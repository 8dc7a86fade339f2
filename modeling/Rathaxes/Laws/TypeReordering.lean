import Rathaxes.CodeWorker.DepthFirst
import Rathaxes.Laws.TypeRegistration

/-!
# The order of reordered declarations

A C compiler reads a file once, so a type that is held by value has to be declared in front of the
declaration that holds it; over a pointer a later declaration will do. The pass means to tell the two
apart with a flag that forces the declaration of a type that is used by value, but it reads the flag
from the entry of the type instead of the dependence. No entry has it, nothing is ever forced, and what
is left is a plain depth-first walk that follows pointers and values alike (`doRecursive_simulates`).

So the order is right for what lies on no cycle at all (`blockReordering_ordered`), and where a cycle
over a pointer is entered at the wrong type, it is wrong: `struct A { struct B *p; };` in front of
`struct B { struct A a; };` comes out behind it.
-/

set_option autoImplicit false

namespace Rathaxes.Resolve

open CodeWorker

/-! ## Vocabulary -/

/-- The chunk holds the type by value. -/
def CDecl.Holds (chunk : CDecl) (t : TypeId) : Prop :=
  ∃ dep ∈ chunk.deps, dep.target = t ∧ dep.aggreg = true

/-- The chunk makes the type complete: it declares the typedef, or the struct or union with its body. -/
def CDecl.Defines (chunk : CDecl) (t : TypeId) : Prop :=
  t ∈ chunk.types ∧ (t.kind = .typedef ∨ chunk.ctype.hasBody = true)

/-- The chunk at `i` holds by value a type that the chunk at `j` defines. -/
structure Needs (chunks : List CDecl) (i j : Nat) (t : TypeId) : Prop where
  ne : i ≠ j
  holds : ∃ c, chunks[i]? = some c ∧ c.Holds t
  defines : ∃ d, chunks[j]? = some d ∧ d.Defines t

/-- Every definition stands in front of the chunks that hold the type by value. -/
def Ordered (chunks : List CDecl) (out : List Nat) : Prop :=
  ∀ i j t, Needs chunks i j t → [j, i].Sublist out

/-- A declaration of one type uses the other, by value or over a pointer. -/
def DependsOn (chunks : List CDecl) (t t' : TypeId) : Prop :=
  ∃ c ∈ chunks, t ∈ c.types ∧ ∃ dep ∈ c.deps, dep.target = t'

/-- Whenever a chunk holds by value a type that another one defines: a typedef that the holder declares
together with a struct or union is new there, the definition is the last declaration of the type, and what
the type depends on never leads back to the holder. -/
structure Orderable (chunks : List CDecl) : Prop where
  fresh : ∀ i j t, Needs chunks i j t → ∀ c, chunks[i]? = some c → FreshTypedef (chunks.take i) c
  last : ∀ i j t, Needs chunks i j t → ∀ k c, chunks[k]? = some c → t ∈ c.types → k ≤ j
  acyclic : ∀ i j t, Needs chunks i j t → ∀ c, chunks[i]? = some c → ∀ u ∈ c.types,
    ¬ Relation.ReflTransGen (DependsOn chunks) t u

/-! ## The walk is a depth-first walk -/

namespace Deps

/-- The entries a type leads to. -/
def successors (deps : Deps) (list : List Dep) : List TypeId :=
  (list.map Dep.target).filter fun t => (deps.get? t).isSome

/-- The types as a graph, each emitting its location. -/
def graph (deps : Deps) : KeyedGraph TypeId (Option Nat) where
  succ t := deps.successors (deps.listOf t)
  key t := (deps.get? t).map TypeEntry.location

theorem successors_cons (deps : Deps) (dep : Dep) (list : List Dep) :
    deps.successors (dep :: list) =
      if (deps.get? dep.target).isSome then dep.target :: deps.successors list
      else deps.successors list := by
  unfold successors
  rw [List.map_cons, List.filter_cons]

theorem mem_successors_iff {deps : Deps} {list : List Dep} {t : TypeId} :
    t ∈ deps.successors list ↔ (∃ dep ∈ list, dep.target = t) ∧ (deps.get? t).isSome := by
  unfold successors
  rw [List.mem_filter, List.mem_map]

theorem graph_key {deps : Deps} {t : TypeId} {entry : TypeEntry} (h : deps.get? t = some entry) :
    deps.graph.key t = some entry.location := by
  show (deps.get? t).map TypeEntry.location = _
  rw [h]
  rfl

theorem graph_succ {deps : Deps} {t : TypeId} {entry : TypeEntry} (h : deps.get? t = some entry) :
    deps.graph.succ t = deps.successors entry.list := by
  show deps.successors (deps.listOf t) = _
  rw [listOf_of_get? h]

end Deps

/-- The walk over the graph stands where the pass does. A type has been met when it has the attribute
`managed`, whatever the value. -/
structure Simulates (s : Reordering) (w : Walk TypeId (Option Nat)) : Prop where
  managed : ∀ t, (s.managed t).isSome ↔ t ∈ w.seen
  inserted : w.out = s.inserted.map some

namespace Simulates

variable {deps : Deps} {s : Reordering} {w w' : Walk TypeId (Option Nat)} {t : TypeId}

theorem start : Simulates ⟨fun _ => none, []⟩ ⟨[], []⟩ where
  managed t := by simp
  inserted := rfl

theorem done_iff (h : Simulates s w) (t : TypeId) : s.done t false = true ↔ t ∈ w.seen := by
  rw [← h.managed t]
  unfold Reordering.done
  cases s.managed t with
  | none => simp
  | some managed => simp

theorem mem_inserted_iff (h : Simulates s w) {location : Nat} :
    location ∈ s.inserted ↔ some location ∈ w.out := by
  rw [h.inserted]
  simp

theorem mark (h : Simulates s w) (t : TypeId) (value : Bool) :
    Simulates (s.mark t value) (KeyedGraph.enter w t) where
  managed t' := by
    unfold Reordering.mark KeyedGraph.enter
    by_cases ht : t' = t
    · subst ht
      simp
    · simp [ht, h.managed t']
  inserted := h.inserted

theorem insert {location : Nat} (h : Simulates s w) (ht : t ∈ w.seen)
    (hkey : deps.graph.key t = some location) :
    Simulates (s.insert t location) (deps.graph.leave w t) := by
  unfold Reordering.insert KeyedGraph.leave
  rw [hkey]
  by_cases hin : location ∈ s.inserted
  · rw [if_pos hin, if_pos (h.mem_inserted_iff.1 hin)]
    exact h
  · rw [if_neg hin, if_neg (mt h.mem_inserted_iff.2 hin)]
    have hmark := h.mark t true
    constructor
    · intro t'
      rw [hmark.managed t']
      unfold KeyedGraph.enter
      rw [List.mem_cons]
      refine ⟨?_, Or.inr⟩
      rintro (rfl | hseen)
      · exact ht
      · exact hseen
    · show w.out ++ [some location] = (s.inserted ++ [location]).map some
      rw [List.map_append, h.inserted]
      rfl

end Simulates

/-! ## One visit -/

/-- What `DoRecursive` does with a dependence. -/
def followDep (deps : Deps) (fuel : Nat) (s : Reordering) (dep : Dep) : Except String Reordering :=
  match deps.get? dep.target with
  | some theDep => doRecursive deps fuel dep.target theDep.aggreg s
  | none => .ok s

section Visit

variable {deps : Deps} {fuel : Nat} {s : Reordering} {t : TypeId} {entry : TypeEntry}

theorem doRecursive_done (h : s.done t false = true) : doRecursive deps fuel t false s = .ok s := by
  unfold doRecursive
  rw [if_pos h]

theorem doRecursive_inserted (h : s.done t false ≠ true) (hget : deps.get? t = some entry)
    (hin : entry.location ∈ s.inserted) :
    doRecursive deps fuel t false s = .ok (s.mark t true) := by
  unfold doRecursive
  rw [if_neg h, hget]
  exact if_pos hin

theorem doRecursive_visit (h : s.done t false ≠ true) (hget : deps.get? t = some entry)
    (hin : entry.location ∉ s.inserted) :
    doRecursive deps (fuel + 1) t false s =
      (entry.list.foldlM (followDep deps fuel) (s.mark t false) >>= fun s =>
        .ok (s.insert t entry.location)) := by
  rw [doRecursive, if_neg h, hget]
  exact if_neg hin

end Visit

section Simulation

variable {deps : Deps} {fuel : Nat}

/-- The dependences of a type, if the visits with this fuel are simulated. -/
theorem foldlM_followDep_simulates
    (hvisit : ∀ {t s w w'}, (deps.get? t).isSome → Simulates s w →
      deps.graph.visit fuel w t = some w' →
      ∃ s', doRecursive deps fuel t false s = .ok s' ∧ Simulates s' w') :
    ∀ {list : List Dep} {s w w'}, Simulates s w →
      deps.graph.visitAll fuel w (deps.successors list) = some w' →
      ∃ s', list.foldlM (followDep deps fuel) s = .ok s' ∧ Simulates s' w' := by
  intro list
  induction list with
  | nil =>
    intro s w w' hs h
    cases h
    exact ⟨s, rfl, hs⟩
  | cons dep list ih =>
    intro s w w' hs h
    rw [Deps.successors_cons] at h
    rw [List.foldlM_cons]
    cases hget : deps.get? dep.target with
    | none =>
      rw [hget] at h
      have hskip : followDep deps fuel s dep = .ok s := by
        unfold followDep
        rw [hget]
      rw [hskip]
      exact ih hs h
    | some theDep =>
      rw [hget] at h
      obtain ⟨w₁, hw₁, h⟩ := KeyedGraph.visitAll_cons.1 h
      obtain ⟨s₁, hs₁, hsim⟩ := hvisit (by rw [hget]; rfl) hs hw₁
      -- the flag of the entry is absent, so the visit is not forced
      have hfollow : followDep deps fuel s dep = .ok s₁ := by
        unfold followDep
        rw [hget]
        exact hs₁
      rw [hfollow]
      exact ih hsim h

/-- A type that is known, or whose chunk is. -/
theorem doRecursive_known {t : TypeId} {s : Reordering} {w w' : Walk TypeId (Option Nat)}
    {entry : TypeEntry} (hget : deps.get? t = some entry) (hs : Simulates s w)
    (h : (t ∈ w.seen ∧ w' = w) ∨
      (t ∉ w.seen ∧ deps.graph.key t ∈ w.out ∧ w' = KeyedGraph.enter w t)) :
    ∃ s', doRecursive deps fuel t false s = .ok s' ∧ Simulates s' w' := by
  rcases h with ⟨hseen, rfl⟩ | ⟨hseen, hout, rfl⟩
  · exact ⟨s, doRecursive_done ((hs.done_iff t).2 hseen), hs⟩
  · rw [Deps.graph_key hget] at hout
    exact ⟨_, doRecursive_inserted (mt (hs.done_iff t).1 hseen) hget (hs.mem_inserted_iff.2 hout),
      hs.mark t true⟩

/-- **The pass walks depth first.** Every visit it makes is a visit of the graph walk that follows all
dependences, those over pointers included. -/
theorem doRecursive_simulates : ∀ {fuel : Nat} {t : TypeId} {s : Reordering}
    {w w' : Walk TypeId (Option Nat)}, (deps.get? t).isSome → Simulates s w →
      deps.graph.visit fuel w t = some w' →
      ∃ s', doRecursive deps fuel t false s = .ok s' ∧ Simulates s' w' := by
  intro fuel
  induction fuel with
  | zero =>
    intro t s w w' ht hs h
    obtain ⟨entry, hget⟩ := Option.isSome_iff_exists.1 ht
    rcases KeyedGraph.visit_cases h with hseen | hout | ⟨-, -, _, _, hfuel, -⟩
    · exact doRecursive_known hget hs (Or.inl hseen)
    · exact doRecursive_known hget hs (Or.inr hout)
    · cases hfuel
  | succ fuel ih =>
    intro t s w w' ht hs h
    obtain ⟨entry, hget⟩ := Option.isSome_iff_exists.1 ht
    rcases KeyedGraph.visit_cases h with hseen | hout | ⟨hseen, hout, fuel', w₁, hfuel, hall, rfl⟩
    · exact doRecursive_known hget hs (Or.inl hseen)
    · exact doRecursive_known hget hs (Or.inr hout)
    · cases hfuel
      rw [Deps.graph_key hget] at hout
      rw [Deps.graph_succ hget] at hall
      obtain ⟨s₁, hs₁, hsim⟩ := foldlM_followDep_simulates ih (hs.mark t false) hall
      have hmet : t ∈ w₁.seen := (KeyedGraph.grows_of_visitAll hall).seen t List.mem_cons_self
      refine ⟨s₁.insert t entry.location, ?_, hsim.insert hmet (Deps.graph_key hget)⟩
      rw [doRecursive_visit (mt (hs.done_iff t).1 hseen) hget (mt hs.mem_inserted_iff.1 hout), hs₁]
      rfl

/-- The loops over the tables. -/
theorem foldlM_doRecursive_simulates : ∀ {ts : List TypeId} {s : Reordering}
    {w w' : Walk TypeId (Option Nat)}, (∀ t ∈ ts, (deps.get? t).isSome) → Simulates s w →
      deps.graph.visitAll fuel w ts = some w' →
      ∃ s', ts.foldlM (fun s t => doRecursive deps fuel t false s) s = .ok s' ∧ Simulates s' w' := by
  intro ts
  induction ts with
  | nil =>
    intro s w w' _ hs h
    cases h
    exact ⟨s, rfl, hs⟩
  | cons t ts ih =>
    intro s w w' hts hs h
    obtain ⟨w₁, hw₁, h⟩ := KeyedGraph.visitAll_cons.1 h
    obtain ⟨s₁, hs₁, hsim⟩ := doRecursive_simulates (hts t List.mem_cons_self) hs hw₁
    rw [List.foldlM_cons, hs₁]
    exact ih (fun t' ht' => hts t' (List.mem_cons_of_mem _ ht')) hsim h

/-- The walk ends: there are no more visits within one another than there are types. -/
theorem walkTypes_simulates (deps : Deps) : ∃ s w, walkTypes deps = .ok s ∧
    deps.graph.visitAll deps.types.length ⟨[], []⟩ deps.types = some w ∧ Simulates s w := by
  have hclosed : ∀ t ∈ deps.types, ∀ t' ∈ deps.graph.succ t, t' ∈ deps.types := by
    intro t _ t' ht'
    exact Deps.mem_types_iff.2 (Deps.mem_successors_iff.1 ht').2
  obtain ⟨w, hw⟩ := KeyedGraph.visitAll_isSome (w := ⟨[], []⟩) hclosed (fun t ht => ht)
  obtain ⟨s, hs, hsim⟩ := foldlM_doRecursive_simulates
    (fun t ht => Deps.mem_types_iff.1 ht) Simulates.start hw
  exact ⟨s, w, hs, hw, hsim⟩

end Simulation

/-! ## The whole pass -/

/-- The output of the pass: what the walk inserted, and the other chunks behind. -/
def placed (chunks : List CDecl) (inserted : List Nat) : List Nat :=
  inserted ++ (List.range chunks.length).filter (· ∉ inserted)

/-- Once the chunks are registered the pass ends, and its output is that of a depth-first walk. -/
theorem blockReordering_of_registerFrom {chunks : List CDecl} {deps : Deps}
    (hdeps : registerFrom Deps.empty 0 chunks = .ok deps) :
    ∃ s w, deps.graph.visitAll deps.types.length ⟨[], []⟩ deps.types = some w ∧ Simulates s w ∧
      blockReordering chunks = .ok (placed chunks s.inserted) := by
  obtain ⟨s, w, hs, hw, hsim⟩ := walkTypes_simulates deps
  refine ⟨s, w, hw, hsim, ?_⟩
  unfold blockReordering
  rw [hdeps]
  show (walkTypes deps >>= _) = _
  rw [hs]
  rfl

/-- Over managed chunks the pass raises no error. -/
theorem blockReordering_run {chunks : List CDecl} (hmanaged : ∀ c ∈ chunks, c.Managed) :
    ∃ deps s w, registerFrom Deps.empty 0 chunks = .ok deps ∧
      deps.graph.visitAll deps.types.length ⟨[], []⟩ deps.types = some w ∧ Simulates s w ∧
      blockReordering chunks = .ok (placed chunks s.inserted) := by
  obtain ⟨deps, hdeps⟩ := registerFrom_ok hmanaged Deps.empty 0
  obtain ⟨s, w, hrun⟩ := blockReordering_of_registerFrom hdeps
  exact ⟨deps, s, w, hdeps, hrun⟩

/-- A key the walk inserts stands in front of one it inserts later or not at all. -/
theorem sublist_placed {chunks : List CDecl} {inserted : List Nat} {i j : Nat} (hj : j ∈ inserted)
    (hi : i < chunks.length) (h : i ∈ inserted → [j, i].Sublist inserted) :
    [j, i].Sublist (placed chunks inserted) := by
  unfold placed
  by_cases hin : i ∈ inserted
  · exact (h hin).trans (List.sublist_append_left _ _)
  · have hleft : i ∈ (List.range chunks.length).filter (· ∉ inserted) := by
      rw [List.mem_filter, List.mem_range, decide_eq_true_iff]
      exact ⟨hi, hin⟩
    exact (List.singleton_sublist.2 hj).append (List.singleton_sublist.2 hleft)

/-- No chunk comes out twice. -/
theorem nodup_placed {chunks : List CDecl} {inserted : List Nat} (h : inserted.Nodup) :
    (placed chunks inserted).Nodup := by
  unfold placed
  rw [List.nodup_append]
  refine ⟨h, List.nodup_range.filter _, ?_⟩
  intro k hk k' hk'
  rw [List.mem_filter, decide_eq_true_iff] at hk'
  rintro rfl
  exact hk'.2 hk

theorem Simulates.nodup_inserted {deps : Deps} {fuel : Nat} {s : Reordering}
    {w : Walk TypeId (Option Nat)} {ts : List TypeId} (h : Simulates s w)
    (hw : deps.graph.visitAll fuel ⟨[], []⟩ ts = some w) : s.inserted.Nodup := by
  have hout := deps.graph.nodup_invariant.visitAll_nil (fun _ _ => trivial) List.nodup_nil hw
  rw [h.inserted] at hout
  exact hout.of_map some

theorem Simulates.sublist_inserted {s : Reordering} {w : Walk TypeId (Option Nat)}
    (h : Simulates s w) {i j : Nat} (hout : [some j, some i].Sublist w.out) :
    [j, i].Sublist s.inserted := by
  rw [h.inserted] at hout
  have hids := hout.filterMap id
  rw [List.filterMap_map] at hids
  simpa using hids

namespace Registered

variable {chunks : List CDecl} {deps : Deps}

/-- The graph follows dependences of the chunks only. -/
theorem reach_dependsOn (h : Registered chunks deps) {t u : TypeId} (hreach : deps.graph.Reach t u) :
    Relation.ReflTransGen (DependsOn chunks) t u := by
  refine Relation.ReflTransGen.mono ?_ _ _ hreach
  intro a b hab
  obtain ⟨⟨dep, hdep, htarget⟩, -⟩ := Deps.mem_successors_iff.1 hab
  obtain ⟨c, hc, hct, hcdep⟩ := h.sound hdep
  exact ⟨c, hc, hct, dep, hcdep, htarget⟩

/-- And it follows all of them between declared types. -/
theorem mem_succ (h : Registered chunks deps) {i : Nat} {c : CDecl} (hc : chunks[i]? = some c)
    (hfresh : FreshTypedef (chunks.take i) c) {u : TypeId} (hu : u ∈ c.types) {dep : Dep}
    (hdep : dep ∈ c.deps) (hget : (deps.get? dep.target).isSome) : dep.target ∈ deps.graph.succ u := by
  obtain ⟨entry, hentry, htarget⟩ := h.complete hc hfresh u hu dep hdep
  exact Deps.mem_successors_iff.2 ⟨⟨entry, hentry, htarget⟩, hget⟩

/-- A type emits the key of the last chunk that declares it. -/
theorem key_eq_some (h : Registered chunks deps) {t : TypeId} {j : Nat} {d : CDecl}
    (hd : chunks[j]? = some d) (hdt : t ∈ d.types)
    (hlast : ∀ k c, chunks[k]? = some c → t ∈ c.types → k ≤ j) : deps.graph.key t = some j := by
  obtain ⟨entry, hget⟩ := Option.isSome_iff_exists.1 (h.entry d (List.mem_of_getElem? hd) t hdt)
  obtain ⟨⟨c, hc, hct⟩, hmax⟩ := h.location hget
  rw [Deps.graph_key hget, Nat.le_antisymm (hlast _ c hc hct) (hmax hd hdt)]

/-- A type that emits the key of a chunk is declared there. -/
theorem mem_types_of_key (h : Registered chunks deps) {t : TypeId} {i : Nat} {c : CDecl}
    (hc : chunks[i]? = some c) (hkey : deps.graph.key t = some i) : t ∈ c.types := by
  obtain ⟨entry, hget, rfl⟩ := Option.map_eq_some_iff.1 hkey
  obtain ⟨⟨c', hc', hct⟩, -⟩ := h.location hget
  rw [hc, Option.some.injEq] at hc'
  rw [hc']
  exact hct

end Registered

/-- The walk inserts keys of chunks. -/
theorem Simulates.mem_range {chunks : List CDecl} {deps : Deps} {s : Reordering}
    {w : Walk TypeId (Option Nat)} (hdeps : Registered chunks deps) (h : Simulates s w)
    (hw : deps.graph.visitAll deps.types.length ⟨[], []⟩ deps.types = some w) {k : Nat}
    (hk : k ∈ s.inserted) : k ∈ List.range chunks.length := by
  have hemitted := KeyedGraph.emitted_invariant (G := deps.graph)
    (P := fun t => (deps.get? t).isSome) fun _ t' ht' => (Deps.mem_successors_iff.1 ht').2
  have hout := hemitted.visitAll_nil (fun t ht => Deps.mem_types_iff.1 ht)
    (fun _ hnil => absurd hnil List.not_mem_nil) hw
  obtain ⟨t, -, hkey⟩ := hout (some k) (h.mem_inserted_iff.1 hk)
  obtain ⟨entry, hget, rfl⟩ := Option.map_eq_some_iff.1 hkey
  obtain ⟨⟨c, hc, -⟩, -⟩ := hdeps.location hget
  exact List.mem_range.2 (List.getElem?_eq_some_iff.1 hc).1

/-- Distinct keys of chunks with the other keys behind are all keys, each once. -/
theorem placed_perm {chunks : List CDecl} {inserted : List Nat} (hnodup : inserted.Nodup)
    (hrange : ∀ k ∈ inserted, k ∈ List.range chunks.length) :
    (placed chunks inserted).Perm (List.range chunks.length) := by
  rw [List.perm_ext_iff_of_nodup (nodup_placed hnodup) List.nodup_range]
  intro k
  unfold placed
  rw [List.mem_append, List.mem_filter, decide_eq_true_iff]
  constructor
  · rintro (hk | ⟨hk, -⟩)
    · exact hrange k hk
    · exact hk
  · intro hk
    by_cases hin : k ∈ inserted
    · exact Or.inl hin
    · exact Or.inr ⟨hk, hin⟩

/-- The items behind a list of keys. -/
def itemsAt (chunks : List CDecl) (keys : List Nat) : List CDecl := keys.filterMap fun k => chunks[k]?

theorem itemsAt_range : ∀ chunks : List CDecl, itemsAt chunks (List.range chunks.length) = chunks
  | [] => rfl
  | chunk :: chunks => by
    unfold itemsAt
    rw [List.length_cons, List.range_succ_eq_map, List.filterMap_cons, List.filterMap_map]
    exact congrArg (chunk :: ·) (itemsAt_range chunks)

/-- **The output is a permutation of the input**, whatever the chunks declare and use: the pass ends, and
every chunk comes out once. The two errors are raised while the chunks are registered, for a declaration
the pass does not manage. -/
theorem blockReordering_perm (chunks : List CDecl) :
    (∃ out, blockReordering chunks = .ok out ∧ out.Perm (List.range chunks.length) ∧
        (itemsAt chunks out).Perm chunks) ∨
      (∃ c ∈ chunks, ¬ c.Managed) ∧
        (blockReordering chunks = .error unmanagedTypedef ∨
          blockReordering chunks = .error unmanagedUse) := by
  cases hrun : registerFrom Deps.empty 0 chunks with
  | ok deps =>
    obtain ⟨s, w, hw, hsim, hout⟩ := blockReordering_of_registerFrom hrun
    have hperm := placed_perm (hsim.nodup_inserted hw)
      (fun k hk => hsim.mem_range (registered_of_registerFrom hrun) hw hk)
    refine Or.inl ⟨_, hout, hperm, ?_⟩
    have hitems := hperm.filterMap fun k => chunks[k]?
    rw [show (List.range chunks.length).filterMap (fun k => chunks[k]?) = chunks from
      itemsAt_range chunks] at hitems
    exact hitems
  | error e =>
    refine Or.inr ⟨?_, ?_⟩
    · by_contra hnone
      have hmanaged : ∀ c ∈ chunks, c.Managed := fun c hc => not_not.1 fun hc' => hnone ⟨c, hc, hc'⟩
      obtain ⟨deps, hok⟩ := registerFrom_ok hmanaged Deps.empty 0
      rw [hrun] at hok
      cases hok
    · have herror : blockReordering chunks = .error e := by
        unfold blockReordering
        rw [hrun]
        rfl
      rw [herror]
      rcases registerFrom_error hrun with rfl | rfl
      · exact Or.inl rfl
      · exact Or.inr rfl

/-- **Types off every cycle are ordered.** The pass raises no error over managed chunks, and if they are
orderable, every definition comes out in front of the chunks that hold the type by value. -/
theorem blockReordering_ordered {chunks : List CDecl} (hmanaged : ∀ c ∈ chunks, c.Managed)
    (h : Orderable chunks) : ∃ out, blockReordering chunks = .ok out ∧ Ordered chunks out := by
  obtain ⟨deps, s, w, hregister, hw, hsim, hout⟩ := blockReordering_run hmanaged
  have hdeps := registered_of_registerFrom hregister
  refine ⟨_, hout, ?_⟩
  intro i j t hneeds
  obtain ⟨c, hc, dep, hdep, rfl, -⟩ := hneeds.holds
  obtain ⟨d, hd, hdt, -⟩ := hneeds.defines
  have hfresh := h.fresh i j _ hneeds c hc
  have hget := hdeps.entry d (List.mem_of_getElem? hd) dep.target hdt
  have hkey := hdeps.key_eq_some hd hdt (h.last i j _ hneeds)
  -- every type that emits the chunk's key is one of its own, leads to the definition and is not met
  -- from there
  have hbefore := KeyedGraph.before_invariant (G := deps.graph) (v := dep.target) (k := some i)
    (fun u hu => hdeps.mem_succ hc hfresh (hdeps.mem_types_of_key hc hu) hdep hget)
    (fun u hu hreach => h.acyclic i j _ hneeds c hc u (hdeps.mem_types_of_key hc hu)
      (hdeps.reach_dependsOn hreach))
  obtain ⟨hfinished, horder⟩ := hbefore.visitAll_nil (fun _ _ => trivial)
    (by simp [KeyedGraph.Finished]) hw
  rw [hkey] at horder
  have hseen := KeyedGraph.seen_of_visitAll hw dep.target (Deps.mem_types_iff.2 hget)
  have hj : some j ∈ w.out := hkey ▸ hfinished _ hseen List.not_mem_nil
  apply sublist_placed (hsim.mem_inserted_iff.2 hj) (List.getElem?_eq_some_iff.1 hc).1
  intro hi
  exact hsim.sublist_inserted (horder (hsim.mem_inserted_iff.1 hi))

/-! ### Two structs -/

/-- The C type of a struct. -/
def structType (identifier : String) (pointer hasBody : Bool) : CType :=
  ⟨.other, .struct, identifier, none, false, pointer, hasBody⟩

/-- A field of struct type. -/
def structField (identifier : String) (pointer : Bool) : CDecl :=
  .mk .fieldDecl (some "field") (structType identifier pointer false) [] []

/-- The definition of a struct. -/
def structDecl (identifier : String) (fields : List CDecl) : CDecl :=
  .mk .decl none (structType identifier false true) fields []

/-- `struct C { struct D field; struct C *field; };` in front of `struct D {};`. -/
def holderFirst : List CDecl :=
  [structDecl "C" [structField "D" false, structField "C" true], structDecl "D" []]

theorem managed_holderFirst : ∀ c ∈ holderFirst, c.Managed := by
  intro c hc
  rcases List.mem_pair.1 hc with rfl | rfl
  · refine ⟨⟨_, rfl⟩, ?_⟩
    intro use huse
    rcases List.mem_pair.1 huse with rfl | rfl
    · exact ⟨_, rfl⟩
    · exact ⟨_, rfl⟩
  · refine ⟨⟨_, rfl⟩, ?_⟩
    intro use huse
    cases huse

theorem needs_holderFirst {i j : Nat} {t : TypeId} (h : Needs holderFirst i j t) :
    i = 0 ∧ j = 1 ∧ t = ⟨.struct, "D"⟩ := by
  obtain ⟨hne, ⟨c, hc, dep, hdep, rfl, haggreg⟩, ⟨d, hd, hdt, -⟩⟩ := h
  match i, hc with
  | 0, hc =>
    cases hc
    rcases List.mem_pair.1 hdep with rfl | rfl
    · match j, hd with
      | 0, _ => exact absurd rfl hne
      | 1, _ => exact ⟨rfl, rfl, rfl⟩
    · cases haggreg
  | 1, hc =>
    cases hc
    cases hdep

theorem orderable_holderFirst : Orderable holderFirst where
  fresh := by
    intro i j t hneeds c hc name t' htypes
    obtain ⟨rfl, -, -⟩ := needs_holderFirst hneeds
    cases hc
    cases htypes
  last := by
    intro i j t hneeds k c hc _
    obtain ⟨-, rfl, -⟩ := needs_holderFirst hneeds
    exact Nat.le_of_lt_succ (List.getElem?_eq_some_iff.1 hc).1
  acyclic := by
    intro i j t hneeds c hc u hu hreach
    obtain ⟨rfl, -, rfl⟩ := needs_holderFirst hneeds
    cases hc
    rw [List.mem_singleton.1 hu] at hreach
    -- nothing leads on from the struct without fields
    rcases Relation.ReflTransGen.cases_head hreach with heq | ⟨b, ⟨c, hc, hct, dep, hdep, -⟩, -⟩
    · exact absurd heq (by decide)
    · rcases List.mem_pair.1 hc with rfl | rfl
      · exact absurd (List.mem_singleton.1 hct) (by decide)
      · cases hdep

theorem blockReordering_holderFirst :
    ∃ out, blockReordering holderFirst = .ok out ∧ Ordered holderFirst out :=
  blockReordering_ordered managed_holderFirst orderable_holderFirst

/-- One declared type holds the other by value. -/
def HoldsByValue (chunks : List CDecl) (t t' : TypeId) : Prop :=
  ∃ c ∈ chunks, t ∈ c.types ∧ c.Holds t'

/-- `struct A { struct B *field; };` in front of `struct B { struct A field; };`. -/
def pointerFirst : List CDecl :=
  [structDecl "A" [structField "B" true], structDecl "B" [structField "A" false]]

theorem holdsByValue_pointerFirst {t t' : TypeId} (h : HoldsByValue pointerFirst t t') :
    t = ⟨.struct, "B"⟩ ∧ t' = ⟨.struct, "A"⟩ := by
  obtain ⟨c, hc, ht, dep, hdep, rfl, haggreg⟩ := h
  rcases List.mem_pair.1 hc with rfl | rfl
  · rw [List.mem_singleton.1 hdep] at haggreg
    cases haggreg
  · rw [List.mem_singleton.1 hdep]
    exact ⟨List.mem_singleton.1 ht, rfl⟩

/-- No value lies on a cycle of values, and still the struct held by value comes out behind the one
that holds it: the walk comes to the holder over the pointer. -/
theorem pointer_brings_holder_first :
    (∀ t, ¬ Relation.TransGen (HoldsByValue pointerFirst) t t) ∧
      blockReordering pointerFirst = .ok [1, 0] ∧
      Needs pointerFirst 1 0 ⟨.struct, "A"⟩ ∧ ¬ Ordered pointerFirst [1, 0] := by
  have hneeds : Needs pointerFirst 1 0 ⟨.struct, "A"⟩ :=
    ⟨Nat.one_ne_zero, ⟨_, rfl, _, List.mem_cons_self, rfl, rfl⟩,
      ⟨_, rfl, List.mem_cons_self, Or.inr rfl⟩⟩
  refine ⟨?_, rfl, hneeds, ?_⟩
  · intro t hcycle
    obtain ⟨b, hb, -⟩ := Relation.TransGen.head'_iff.1 hcycle
    obtain ⟨a, -, ha⟩ := Relation.TransGen.tail'_iff.1 hcycle
    have heq := (holdsByValue_pointerFirst hb).1.symm.trans (holdsByValue_pointerFirst ha).2
    exact absurd heq (by decide)
  · intro hordered
    have hsub := hordered 1 0 _ hneeds
    revert hsub
    decide

/-! ## Cycles -/

/-- Every chunk defines one struct, and no two chunks the same. -/
structure Structs (chunks : List CDecl) : Prop where
  managed : ∀ c ∈ chunks, c.Managed
  struct : ∀ c ∈ chunks, ∃ name, c.types = [⟨.struct, name⟩]
  body : ∀ c ∈ chunks, c.ctype.hasBody = true
  distinct : chunks.Pairwise fun c d => c.types ≠ d.types

theorem not_sublist_swap {a b : Nat} : ∀ {l : List Nat}, l.Nodup → [a, b].Sublist l →
    ¬ [b, a].Sublist l := by
  intro l
  induction l with
  | nil =>
    intro _ h
    cases h
  | cons x l ih =>
    intro hnodup hab hba
    obtain ⟨hx, hnodup⟩ := List.nodup_cons.1 hnodup
    cases hab with
    | cons _ hab =>
      cases hba with
      | cons _ hba => exact ih hnodup hab hba
      | cons_cons _ hba => exact hx (hab.subset (List.mem_cons_of_mem _ List.mem_cons_self))
    | cons_cons _ hab =>
      cases hba with
      | cons _ hba => exact hx (hba.subset (List.mem_cons_of_mem _ List.mem_cons_self))
      | cons_cons _ hba => exact hx (hba.subset List.mem_cons_self)

/-- The order of the chunks does not matter to what depends on what. -/
theorem reach_perm {chunks chunks' : List CDecl} (hperm : chunks'.Perm chunks) {t u : TypeId}
    (h : Relation.ReflTransGen (DependsOn chunks) t u) :
    Relation.ReflTransGen (DependsOn chunks') t u := by
  refine Relation.ReflTransGen.mono ?_ _ _ h
  rintro a b ⟨c, hc, hdep⟩
  exact ⟨c, hperm.mem_iff.2 hc, hdep⟩

namespace Structs

variable {chunks : List CDecl}

/-- A type tells the chunk that declares it. -/
theorem index_eq (h : Structs chunks) {i j : Nat} {c d : CDecl} {t : TypeId}
    (hc : chunks[i]? = some c) (hd : chunks[j]? = some d) (hct : t ∈ c.types) (hdt : t ∈ d.types) :
    i = j := by
  obtain ⟨n, hn⟩ := h.struct c (List.mem_of_getElem? hc)
  obtain ⟨m, hm⟩ := h.struct d (List.mem_of_getElem? hd)
  have heq : c.types = d.types := by
    rw [hn, List.mem_singleton] at hct
    rw [hm, List.mem_singleton] at hdt
    rw [hn, hm, ← hct, ← hdt]
  obtain ⟨hi, rfl⟩ := List.getElem?_eq_some_iff.1 hc
  obtain ⟨hj, rfl⟩ := List.getElem?_eq_some_iff.1 hd
  have hpair := List.pairwise_iff_getElem.1 h.distinct
  rcases Nat.lt_trichotomy i j with hlt | rfl | hgt
  · exact absurd heq (hpair i j hi hj hlt)
  · rfl
  · exact absurd heq.symm (hpair j i hj hi hgt)

theorem freshTypedef (h : Structs chunks) {c : CDecl} (hc : c ∈ chunks) (before : List CDecl) :
    FreshTypedef before c := by
  intro name t htypes
  obtain ⟨n, hn⟩ := h.struct c hc
  rw [hn] at htypes
  cases htypes

theorem perm {chunks' : List CDecl} (h : Structs chunks) (hperm : chunks'.Perm chunks) :
    Structs chunks' where
  managed c hc := h.managed c (hperm.mem_iff.1 hc)
  struct c hc := h.struct c (hperm.mem_iff.1 hc)
  body c hc := h.body c (hperm.mem_iff.1 hc)
  distinct := (hperm.pairwise_iff (fun hne => hne.symm)).2 h.distinct

variable {deps : Deps}

/-- Types are emitted with the keys of different chunks. -/
theorem key_injOn (h : Structs chunks) (hdeps : Registered chunks deps) {a b : TypeId}
    (ha : (deps.get? a).isSome) (hkey : deps.graph.key a = deps.graph.key b) : a = b := by
  obtain ⟨entry, hget⟩ := Option.isSome_iff_exists.1 ha
  obtain ⟨⟨c, hc, -⟩, -⟩ := hdeps.location hget
  rw [Deps.graph_key hget] at hkey
  have hca := hdeps.mem_types_of_key hc (Deps.graph_key hget)
  have hcb := hdeps.mem_types_of_key hc hkey.symm
  obtain ⟨n, hn⟩ := h.struct c (List.mem_of_getElem? hc)
  rw [hn, List.mem_singleton] at hca hcb
  rw [hca, hcb]

/-- The graph reaches all that a type depends on, as far as it is declared. -/
theorem reach_of_dependsOn (h : Structs chunks) (hdeps : Registered chunks deps) {t u : TypeId}
    (hu : (deps.get? u).isSome) (hreach : Relation.ReflTransGen (DependsOn chunks) t u) :
    deps.graph.Reach t u := by
  induction hreach using Relation.ReflTransGen.head_induction_on with
  | refl => exact Relation.ReflTransGen.refl
  | @head a b hab hbu ih =>
    obtain ⟨c, hc, hca, dep, hdep, rfl⟩ := hab
    have hb : (deps.get? dep.target).isSome := by
      rcases Relation.ReflTransGen.cases_head hbu with heq | ⟨x, ⟨c', hc', hc'b, -⟩, -⟩
      · rw [heq]
        exact hu
      · exact hdeps.entry c' hc' _ hc'b
    obtain ⟨i, hi⟩ := List.mem_iff_getElem?.1 hc
    exact Relation.ReflTransGen.head (hdeps.mem_succ hi (h.freshTypedef hc _) hca hdep hb) ih

/-- The struct of the first chunk is walked first. -/
theorem types_head {d : CDecl} {rest : List CDecl} {name : String}
    (hd : d.types = [⟨.struct, name⟩])
    (hrun : registerFrom Deps.empty 0 (d :: rest) = .ok deps) :
    ∃ after, deps.types = ⟨.struct, name⟩ :: after := by
  have hset : ∀ (deps : Deps) (t : TypeId) (entry : TypeEntry),
      (∃ e es, deps.structs.entries = (name, e) :: es) →
      ∃ e es, (deps.set t entry).structs.entries = (name, e) :: es := by
    rintro deps ⟨kind, name'⟩ entry ⟨e, es, hentries⟩
    cases kind with
    | struct =>
      show ∃ e es, assign name' entry deps.structs.entries = (name, e) :: es
      rw [hentries, assign]
      split
      · rename_i heq
        exact ⟨entry, es, by rw [← heq]⟩
      · exact ⟨e, _, rfl⟩
    | union => exact ⟨e, es, hentries⟩
    | typedef => exact ⟨e, es, hentries⟩
  rw [registerFrom] at hrun
  obtain ⟨deps₁, hstep, hrun⟩ := bind_eq_ok_iff.1 hrun
  obtain ⟨ts, hts, huses⟩ := registerChunk_eq_ok_iff.1 hstep
  rw [← CDecl.types_eq hts, hd] at huses
  have hfirst := foldlM_insertDep_rule hset ⟨_, _, rfl⟩ huses
  obtain ⟨e, es, hentries⟩ := registerFrom_rule hset hfirst hrun
  unfold Deps.types
  rw [hentries]
  exact ⟨_, rfl⟩

/-- **What the first struct leads to comes out in front of it**, over pointers as well. -/
theorem first_behind {d c : CDecl} {rest : List CDecl} (h : Structs (d :: rest)) {i : Nat}
    {t u : TypeId} (hdt : t ∈ d.types) (hc : (d :: rest)[i]? = some c) (hcu : u ∈ c.types)
    (hi : i ≠ 0) (hreach : Relation.ReflTransGen (DependsOn (d :: rest)) t u) :
    ∃ out, blockReordering (d :: rest) = .ok out ∧ out.Nodup ∧ [i, 0].Sublist out := by
  obtain ⟨deps, s, w, hregister, hw, hsim, hout⟩ := blockReordering_run h.managed
  have hdeps := registered_of_registerFrom hregister
  refine ⟨_, hout, nodup_placed (hsim.nodup_inserted hw), ?_⟩
  obtain ⟨name, hname⟩ := h.struct d List.mem_cons_self
  obtain ⟨after, hafter⟩ := types_head hname hregister
  rw [hname, List.mem_singleton] at hdt
  subst hdt
  have hu := hdeps.entry c (List.mem_of_getElem? hc) u hcu
  have hne : u ≠ ⟨.struct, name⟩ := by
    rintro rfl
    apply hi
    exact h.index_eq hc rfl hcu (by rw [hname]; exact List.mem_cons_self)
  have hkeyt : deps.graph.key ⟨.struct, name⟩ = some 0 := by
    apply hdeps.key_eq_some rfl (by rw [hname]; exact List.mem_cons_self)
    intro k c' hc' hct
    exact Nat.le_of_eq (h.index_eq hc' rfl hct (by rw [hname]; exact List.mem_cons_self))
  have hkeyu : deps.graph.key u = some i := by
    apply hdeps.key_eq_some hc hcu
    intro k c' hc' hcu'
    exact Nat.le_of_eq (h.index_eq hc' hc hcu' hcu)
  have hcycle := h.reach_of_dependsOn hdeps hu hreach
  rw [hafter] at hw
  -- nothing is walked before the struct, so nothing that reaches it is
  have hnone : ∀ r ∈ ([] : List TypeId), ¬ deps.graph.Reach r ⟨.struct, name⟩ := by
    intro r hr
    cases hr
  have hlast := KeyedGraph.cycle_entry_last (P := fun a => (deps.get? a).isSome)
    (fun _ m hm => (Deps.mem_successors_iff.1 hm).2)
    (fun ha _ hkey => h.key_injOn hdeps ha hkey)
    (fun a ha => Deps.mem_types_iff.1 (hafter ▸ ha)) hnone hne hcycle hw
  rw [hkeyt, hkeyu] at hlast
  exact (hsim.sublist_inserted hlast).trans (List.sublist_append_left _ _)

/-- **The pass is right in every order of the chunks just when no value lies on a cycle.** -/
theorem ordered_in_every_order_iff (h : Structs chunks) :
    (∀ chunks', chunks'.Perm chunks →
      ∃ out, blockReordering chunks' = .ok out ∧ Ordered chunks' out) ↔
    ∀ c ∈ chunks, ∀ d ∈ chunks, c ≠ d → ∀ t ∈ d.types, c.Holds t → ∀ u ∈ c.types,
      ¬ Relation.ReflTransGen (DependsOn chunks) t u := by
  constructor
  · intro hall c hc d hd hne t hdt hholds u hcu hreach
    -- put the definition first
    obtain ⟨front, back, rfl⟩ := List.append_of_mem hd
    have hperm : (d :: (front ++ back)).Perm (front ++ d :: back) := List.perm_middle.symm
    obtain ⟨out, hout, hordered⟩ := hall _ hperm
    have hcrest : c ∈ front ++ back := (List.mem_cons.1 (hperm.mem_iff.2 hc)).resolve_left hne
    obtain ⟨i, hi⟩ := List.mem_iff_getElem?.1 hcrest
    have hci : (d :: (front ++ back))[i + 1]? = some c := hi
    obtain ⟨out', hout', hnodup, hbehind⟩ := (h.perm hperm).first_behind hdt hci hcu
      (Nat.succ_ne_zero i) (reach_perm hperm hreach)
    rw [hout, Except.ok.injEq] at hout'
    subst hout'
    have hfront := hordered (i + 1) 0 t
      ⟨Nat.succ_ne_zero i, ⟨c, hci, hholds⟩, ⟨d, rfl, hdt, Or.inr (h.body d hd)⟩⟩
    exact not_sublist_swap hnodup hbehind hfront
  · intro hacyclic chunks' hperm
    have h' := h.perm hperm
    apply blockReordering_ordered h'.managed
    constructor
    · intro i j t _ c hc
      exact h'.freshTypedef (List.mem_of_getElem? hc) _
    · intro i j t hneeds k c hc hct
      obtain ⟨d, hd, hdt, -⟩ := hneeds.defines
      exact Nat.le_of_eq (h'.index_eq hc hd hct hdt)
    · intro i j t hneeds c hc u hcu hreach
      obtain ⟨c', hc', hholds⟩ := hneeds.holds
      obtain ⟨d, hd, hdt, -⟩ := hneeds.defines
      rw [hc, Option.some.injEq] at hc'
      subst hc'
      have hne : c ≠ d := by
        rintro rfl
        exact hneeds.ne (h'.index_eq hc hd hdt hdt)
      exact hacyclic c (hperm.mem_iff.1 (List.mem_of_getElem? hc)) d
        (hperm.mem_iff.1 (List.mem_of_getElem? hd)) hne t hdt hholds u hcu
        (reach_perm hperm.symm hreach)

end Structs

end Rathaxes.Resolve
