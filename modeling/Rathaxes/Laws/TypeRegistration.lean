import Rathaxes.CodeWorker.Position
import Rathaxes.Resolve.TypeReordering

/-!
# What the registration of types records

The first loop of the reordering pass enters every declaration under the types it declares. Three facts
about the tables it leaves are what the walk over them relies on. A type has an entry just when some
chunk declares it, and the location is the last chunk that does. Every dependence listed for a type is
one of a chunk declaring it. And the list of a type covers all the dependences of a chunk declaring it,
unless the chunk declares a typedef together with a struct and the typedef has been declared before: only
the list of the typedef is looked at before a dependence is left out of both.
-/

set_option autoImplicit false

namespace Rathaxes.Resolve

open CodeWorker

/-! ## Vocabulary -/

mutual

/-- The fields of a block, those of a nested body in front of the field it belongs to. -/
def fieldsOf : List CDecl → List CDecl
  | [] => []
  | entry :: entries => entry.fields ++ fieldsOf entries

/-- The fields an entry of a block contributes. -/
def CDecl.fields : CDecl → List CDecl
  | .mk type name ctype body list =>
    if type = .fieldDecl ∨ type = .fwdDecl then fieldsOf body ++ [.mk type name ctype body list]
    else []

end

/-- The declarations whose types a chunk uses. -/
def CDecl.uses (chunk : CDecl) : List CDecl :=
  if chunk.type = .decl then fieldsOf chunk.body ++ chunk.composed else []

/-- The types a chunk declares. -/
def CDecl.types (chunk : CDecl) : List TypeId := chunk.declared.toOption.getD []

/-- The dependences of a chunk. -/
def CDecl.deps (chunk : CDecl) : List Dep := chunk.uses.filterMap fun use => use.dep.toOption

/-- Nothing in the chunk makes the pass raise an error. -/
structure CDecl.Managed (chunk : CDecl) : Prop where
  declared : ∃ ts, chunk.declared = .ok ts
  dep : ∀ use ∈ chunk.uses, ∃ dep, use.dep = .ok dep

/-- If the chunk declares a typedef together with a struct or union, no chunk before it has declared the
typedef. -/
def FreshTypedef (before : List CDecl) (chunk : CDecl) : Prop :=
  ∀ name t, chunk.types = [⟨.typedef, name⟩, t] → ∀ c ∈ before, ⟨.typedef, name⟩ ∉ c.types

/-! ## The tables -/

namespace Deps

@[simp] theorem get?_empty (t : TypeId) : empty.get? t = none := by
  obtain ⟨kind, name⟩ := t
  cases kind <;> rfl

theorem get?_set (deps : Deps) (t t' : TypeId) (entry : TypeEntry) :
    (deps.set t entry).get? t' = if t' = t then some entry else deps.get? t' := by
  obtain ⟨kind, name⟩ := t
  obtain ⟨kind', name'⟩ := t'
  cases kind <;> cases kind' <;> simp [set, get?, Table.get?_set]

/-- A type has an entry just when the loops over the tables come to it. -/
theorem mem_types_iff {deps : Deps} {t : TypeId} : t ∈ deps.types ↔ (deps.get? t).isSome := by
  have hkey : ∀ {table : Table TypeEntry} {name : String},
      (∃ e ∈ table.entries, e.1 = name) ↔ (table.get? name).isSome := by
    intro table name
    rw [Option.isSome_iff_exists]
    constructor
    · rintro ⟨⟨name, entry⟩, hmem, rfl⟩
      exact ⟨entry, (table.mem_entries_iff name entry).1 hmem⟩
    · rintro ⟨entry, hget⟩
      exact ⟨(name, entry), (table.mem_entries_iff name entry).2 hget, rfl⟩
  obtain ⟨kind, name⟩ := t
  cases kind <;> simp [types, get?, ← hkey]

theorem listOf_of_get? {deps : Deps} {t : TypeId} {entry : TypeEntry}
    (h : deps.get? t = some entry) : deps.listOf t = entry.list := by
  unfold listOf
  rw [h]
  rfl

theorem listOf_of_none {deps : Deps} {t : TypeId} (h : deps.get? t = none) : deps.listOf t = [] := by
  unfold listOf
  rw [h]
  rfl

theorem listOf_congr {deps deps' : Deps} {t : TypeId} (h : deps'.get? t = deps.get? t) :
    deps'.listOf t = deps.listOf t := by
  unfold listOf
  rw [h]

@[simp] theorem listOf_locate (deps : Deps) (key : Nat) (t t' : TypeId) :
    (deps.locate key t).listOf t' = deps.listOf t' := by
  by_cases h : t' = t
  · subst h
    have hget : (deps.locate key t').get? t' = some ⟨key, deps.listOf t'⟩ := by
      rw [locate, get?_set, if_pos rfl]
    exact listOf_of_get? hget
  · apply listOf_congr
    rw [locate, get?_set, if_neg h]

/-- The types of a chunk get its key for their location, and their lists stay. -/
theorem get?_foldl_locate (key : Nat) (t : TypeId) : ∀ (ts : List TypeId) (deps : Deps),
    (ts.foldl (fun deps t => deps.locate key t) deps).get? t =
      if t ∈ ts then some ⟨key, deps.listOf t⟩ else deps.get? t := by
  intro ts
  induction ts with
  | nil =>
    intro deps
    rfl
  | cons t' ts ih =>
    intro deps
    rw [List.foldl_cons, ih, listOf_locate]
    by_cases hts : t ∈ ts
    · rw [if_pos hts, if_pos (List.mem_cons_of_mem _ hts)]
    · rw [if_neg hts, locate, get?_set]
      by_cases ht : t = t'
      · subst ht
        rw [if_pos rfl, if_pos List.mem_cons_self]
      · rw [if_neg ht, if_neg]
        intro hmem
        rcases List.mem_cons.1 hmem with heq | hmem
        · exact ht heq
        · exact hts hmem

theorem listOf_foldl_locate (key : Nat) (t : TypeId) (ts : List TypeId) (deps : Deps) :
    (ts.foldl (fun deps t => deps.locate key t) deps).listOf t = deps.listOf t := by
  induction ts generalizing deps with
  | nil => rfl
  | cons t' ts ih => rw [List.foldl_cons, ih, listOf_locate]

theorem get?_push (deps : Deps) (dep : Dep) (t t' : TypeId) :
    (deps.push dep t).get? t' = if t' = t then
      (deps.get? t).map fun entry => { entry with list := entry.list ++ [dep] }
      else deps.get? t' := by
  unfold push
  cases hget : deps.get? t with
  | none =>
    by_cases ht : t' = t
    · rw [if_pos ht, ht, hget]
      rfl
    · rw [if_neg ht]
  | some entry => exact get?_set deps t t' _

/-- A dependence goes to the end of the list of every type of the chunk. -/
theorem get?_foldl_push (dep : Dep) (t : TypeId) : ∀ (ts : List TypeId) (deps : Deps), ts.Nodup →
    (ts.foldl (fun deps t => deps.push dep t) deps).get? t = if t ∈ ts then
      (deps.get? t).map fun entry => { entry with list := entry.list ++ [dep] }
      else deps.get? t := by
  intro ts
  induction ts with
  | nil =>
    intro deps _
    rfl
  | cons t' ts ih =>
    intro deps hnodup
    obtain ⟨hnot, hnodup⟩ := List.nodup_cons.1 hnodup
    rw [List.foldl_cons, ih _ hnodup, get?_push]
    by_cases ht : t = t'
    · subst ht
      rw [if_neg hnot, if_pos rfl, if_pos List.mem_cons_self]
    · simp only [List.mem_cons, ht, false_or, ↓reduceIte]

end Deps

/-- The same for the lists. -/
theorem Deps.listOf_foldl_push {deps : Deps} (dep : Dep) {ts : List TypeId} (hnodup : ts.Nodup)
    (hentry : ∀ t ∈ ts, (deps.get? t).isSome) (t : TypeId) :
    (ts.foldl (fun deps t => deps.push dep t) deps).listOf t =
      if t ∈ ts then deps.listOf t ++ [dep] else deps.listOf t := by
  have hget := Deps.get?_foldl_push dep t ts deps hnodup
  by_cases ht : t ∈ ts
  · rw [if_pos ht] at hget ⊢
    obtain ⟨entry, hentry⟩ := Option.isSome_iff_exists.1 (hentry t ht)
    rw [hentry] at hget
    rw [Deps.listOf_of_get? hget, Deps.listOf_of_get? hentry]
  · rw [if_neg ht] at hget ⊢
    exact Deps.listOf_congr hget

theorem Deps.mem_listOf_foldl_push {deps : Deps} {dep d : Dep} {ts : List TypeId} (hnodup : ts.Nodup)
    (hentry : ∀ t ∈ ts, (deps.get? t).isSome) {t : TypeId} :
    d ∈ (ts.foldl (fun deps t => deps.push dep t) deps).listOf t ↔
      d ∈ deps.listOf t ∨ t ∈ ts ∧ d = dep := by
  rw [Deps.listOf_foldl_push dep hnodup hentry]
  by_cases ht : t ∈ ts
  · simp [ht]
  · simp [ht]

/-! ## One dependence -/

/-- Dependences the check takes for the same are looked up at the same place. -/
theorem Dep.target_of_same {dep entry : Dep} (h : dep.same entry = true) :
    entry.target = dep.target := by
  unfold Dep.same at h
  rw [Bool.and_eq_true, decide_eq_true_iff, decide_eq_true_iff] at h
  unfold Dep.target
  rw [h.1, h.2]

/-- A list names the type a dependence is on. -/
def Covers (list : List Dep) (dep : Dep) : Prop := ∃ entry ∈ list, entry.target = dep.target

theorem Covers.mono {list list' : List Dep} {dep : Dep} (h : ∀ entry ∈ list, entry ∈ list') :
    Covers list dep → Covers list' dep
  | ⟨entry, hentry, htarget⟩ => ⟨entry, h entry hentry, htarget⟩

/-- The dependences the check of a chunk's types looks at. -/
def frontList (ts : List TypeId) (deps : Deps) : List Dep := (ts.head?.map deps.listOf).getD []

theorem mem_frontList_iff {ts : List TypeId} {deps : Deps} {dep : Dep} :
    dep ∈ frontList ts deps ↔ ∃ front, ts.head? = some front ∧ dep ∈ deps.listOf front := by
  unfold frontList
  cases ts <;> simp

/-- What the insertion of a use does: nothing if the first list has the dependence, and else it goes to
the end of every list. -/
theorem insertDep_eq_ok_iff {ts : List TypeId} {deps deps' : Deps} {use : CDecl} :
    insertDep ts deps use = .ok deps' ↔ ∃ dep, use.dep = .ok dep ∧
      (((frontList ts deps).any dep.same = true ∧ deps' = deps) ∨
        ((frontList ts deps).any dep.same = false ∧
          deps' = ts.foldl (fun deps t => deps.push dep t) deps)) := by
  unfold insertDep
  rw [bind_eq_ok_iff]
  refine exists_congr fun dep => and_congr_right fun _ => ?_
  show (if (frontList ts deps).any dep.same = true then Except.ok deps
    else Except.ok (ts.foldl (fun deps t => deps.push dep t) deps)) = .ok deps' ↔ _
  by_cases hany : (frontList ts deps).any dep.same = true
  · simp [hany, eq_comm]
  · simp [hany, eq_comm]

/-- The state of the tables while the uses of a chunk are inserted, compared with the tables before:
`done` are the uses inserted. -/
structure Inserting (ts : List TypeId) (before : Deps) (done : List CDecl) (deps : Deps) : Prop where
  frame : ∀ t, t ∉ ts → deps.get? t = before.get? t
  location : ∀ t, (deps.get? t).map TypeEntry.location = (before.get? t).map TypeEntry.location
  sound : ∀ t, ∀ dep ∈ deps.listOf t,
    dep ∈ before.listOf t ∨ (t ∈ ts ∧ ∃ use ∈ done, use.dep = .ok dep)
  kept : ∀ t, ∀ dep ∈ before.listOf t, dep ∈ deps.listOf t
  complete : (∀ t ∈ ts, ∀ dep ∈ frontList ts before, Covers (before.listOf t) dep) →
    ∀ t ∈ ts, (∀ dep ∈ frontList ts deps, Covers (deps.listOf t) dep) ∧
      ∀ use ∈ done, ∀ dep, use.dep = .ok dep → Covers (deps.listOf t) dep

namespace Inserting

variable {ts : List TypeId} {before deps deps' : Deps} {done : List CDecl} {use : CDecl}

theorem start (ts : List TypeId) (before : Deps) : Inserting ts before [] before where
  frame _ _ := rfl
  location _ := rfl
  sound _ _ hdep := Or.inl hdep
  kept _ _ hdep := hdep
  complete hfront t ht := by
    refine ⟨hfront t ht, ?_⟩
    intro use huse
    cases huse

theorem isSome_iff (h : Inserting ts before done deps) (t : TypeId) :
    (deps.get? t).isSome ↔ (before.get? t).isSome := by
  have hlocation := congrArg Option.isSome (h.location t)
  rw [Option.isSome_map, Option.isSome_map] at hlocation
  rw [hlocation]

theorem sound_concat (h : Inserting ts before done deps) {t : TypeId} {dep : Dep}
    (hdep : dep ∈ deps.listOf t) :
    dep ∈ before.listOf t ∨ (t ∈ ts ∧ ∃ u ∈ done ++ [use], u.dep = .ok dep) := by
  rcases h.sound t dep hdep with hbefore | ⟨ht, u, hu, hudep⟩
  · exact Or.inl hbefore
  · exact Or.inr ⟨ht, u, List.mem_append_left _ hu, hudep⟩

/-- A use whose dependence the first list has. -/
theorem known {dep : Dep} (h : Inserting ts before done deps) (hdep : use.dep = .ok dep)
    (hany : (frontList ts deps).any dep.same = true) : Inserting ts before (done ++ [use]) deps where
  frame := h.frame
  location := h.location
  sound _ _ hd := h.sound_concat hd
  kept := h.kept
  complete hfront t ht := by
    obtain ⟨hcovered, hdone⟩ := h.complete hfront t ht
    refine ⟨hcovered, List.forall_mem_append.2 ⟨hdone, List.forall_mem_singleton.2 fun d hd => ?_⟩⟩
    rw [hdep, Except.ok.injEq] at hd
    obtain ⟨entry, hentry, hsame⟩ := List.any_eq_true.1 hany
    obtain ⟨e, he, htarget⟩ := hcovered entry hentry
    refine ⟨e, he, ?_⟩
    rw [htarget, Dep.target_of_same hsame, hd]

/-- A use whose dependence is pushed. -/
theorem pushed {dep : Dep} (hnodup : ts.Nodup) (hentry : ∀ t ∈ ts, (before.get? t).isSome)
    (h : Inserting ts before done deps) (hdep : use.dep = .ok dep) :
    Inserting ts before (done ++ [use]) (ts.foldl (fun deps t => deps.push dep t) deps) := by
  have hlist : ∀ {t d}, d ∈ (ts.foldl (fun deps t => deps.push dep t) deps).listOf t ↔
      d ∈ deps.listOf t ∨ t ∈ ts ∧ d = dep :=
    Deps.mem_listOf_foldl_push hnodup fun t ht => (h.isSome_iff t).2 (hentry t ht)
  have hgrows : ∀ {t d}, Covers (deps.listOf t) d →
      Covers ((ts.foldl (fun deps t => deps.push dep t) deps).listOf t) d :=
    Covers.mono fun _ hentry => hlist.2 (Or.inl hentry)
  have hnew : ∀ t ∈ ts, Covers ((ts.foldl (fun deps t => deps.push dep t) deps).listOf t) dep :=
    fun t ht => ⟨dep, hlist.2 (Or.inr ⟨ht, rfl⟩), rfl⟩
  constructor
  case frame =>
    intro t ht
    rw [Deps.get?_foldl_push dep t ts deps hnodup, if_neg ht]
    exact h.frame t ht
  case location =>
    intro t
    rw [Deps.get?_foldl_push dep t ts deps hnodup, ← h.location t]
    split
    · rw [Option.map_map]
      rfl
    · rfl
  case sound =>
    intro t d hd
    rcases hlist.1 hd with hd | ⟨ht, rfl⟩
    · exact h.sound_concat hd
    · exact Or.inr ⟨ht, use, List.mem_append_right _ List.mem_cons_self, hdep⟩
  case kept =>
    intro t d hd
    exact hlist.2 (Or.inl (h.kept t d hd))
  case complete =>
    intro hfront t ht
    obtain ⟨hcovered, hdone⟩ := h.complete hfront t ht
    constructor
    · intro d hd
      -- the first list has what it had, and the new dependence
      obtain ⟨front, hhead, hd⟩ := mem_frontList_iff.1 hd
      rcases hlist.1 hd with hd | ⟨-, rfl⟩
      · exact hgrows (hcovered d (mem_frontList_iff.2 ⟨front, hhead, hd⟩))
      · exact hnew t ht
    · refine List.forall_mem_append.2 ⟨fun u hu d hd => hgrows (hdone u hu d hd), ?_⟩
      refine List.forall_mem_singleton.2 fun d hd => ?_
      rw [hdep, Except.ok.injEq] at hd
      exact hd ▸ hnew t ht

/-- One use. -/
theorem step (hnodup : ts.Nodup) (hentry : ∀ t ∈ ts, (before.get? t).isSome)
    (h : Inserting ts before done deps) (hstep : insertDep ts deps use = .ok deps') :
    Inserting ts before (done ++ [use]) deps' := by
  obtain ⟨dep, hdep, hcases⟩ := insertDep_eq_ok_iff.1 hstep
  rcases hcases with ⟨hany, heq⟩ | ⟨-, heq⟩
  · rw [heq]
    exact h.known hdep hany
  · rw [heq]
    exact h.pushed hnodup hentry hdep

/-- All the uses. -/
theorem run (hnodup : ts.Nodup) (hentry : ∀ t ∈ ts, (before.get? t).isSome) :
    ∀ {uses done : List CDecl} {deps : Deps}, Inserting ts before done deps →
      uses.foldlM (insertDep ts) deps = .ok deps' → Inserting ts before (done ++ uses) deps' := by
  intro uses
  induction uses with
  | nil =>
    intro done deps h hrun
    cases hrun
    rw [List.append_nil]
    exact h
  | cons use uses ih =>
    intro done deps h hrun
    rw [List.foldlM_cons] at hrun
    obtain ⟨deps₁, hstep, hrun⟩ := bind_eq_ok_iff.1 hrun
    rw [List.append_cons]
    exact ih (h.step hnodup hentry hstep) hrun

end Inserting

/-! ## One chunk -/

mutual

/-- The recursion over a body inserts its fields one after the other. -/
theorem recurseTypeDecl_eq (ts : List TypeId) : ∀ (entries : List CDecl) (deps : Deps),
    recurseTypeDecl ts deps entries = (fieldsOf entries).foldlM (insertDep ts) deps
  | [], deps => by
    rw [recurseTypeDecl, fieldsOf]
    rfl
  | entry :: entries, deps => by
    rw [recurseTypeDecl, fieldsOf, List.foldlM_append, recurseEntry_eq ts entry deps]
    apply bind_congr
    intro deps
    exact recurseTypeDecl_eq ts entries deps

theorem recurseEntry_eq (ts : List TypeId) : ∀ (entry : CDecl) (deps : Deps),
    recurseEntry ts deps entry = entry.fields.foldlM (insertDep ts) deps
  | .mk type name ctype body list, deps => by
    rw [recurseEntry, CDecl.fields]
    split
    · rw [List.foldlM_append, recurseTypeDecl_eq ts body deps]
      apply bind_congr
      intro deps
      exact (bind_pure _).symm
    · rfl

end

theorem CDecl.types_eq {chunk : CDecl} {ts : List TypeId} (h : chunk.declared = .ok ts) :
    chunk.types = ts := by
  unfold CDecl.types
  rw [h]
  rfl

theorem CDecl.mem_deps_iff {chunk : CDecl} {dep : Dep} :
    dep ∈ chunk.deps ↔ ∃ use ∈ chunk.uses, use.dep = .ok dep := by
  unfold CDecl.deps
  rw [List.mem_filterMap]
  refine exists_congr fun use => and_congr_right fun _ => ?_
  cases use.dep with
  | error message => simp [Except.toOption]
  | ok d => simp [Except.toOption]

/-- A chunk declares no type, one, or a typedef and an aggregate. -/
theorem CDecl.declared_shape {chunk : CDecl} {ts : List TypeId} (h : chunk.declared = .ok ts) :
    ts = [] ∨ (∃ t, ts = [t]) ∨ ∃ name t, t.kind ≠ .typedef ∧ ts = [⟨.typedef, name⟩, t] := by
  have hshape : chunk.aggregates = [] ∨ ∃ t, t.kind ≠ .typedef ∧ chunk.aggregates = [t] := by
    unfold CDecl.aggregates
    split
    · exact Or.inl rfl
    · split
      · exact Or.inr ⟨_, by simp, rfl⟩
      · exact Or.inr ⟨_, by simp, rfl⟩
      · exact Or.inl rfl
  unfold CDecl.declared at h
  split at h
  · split at h
    · obtain ⟨name, -, h⟩ := bind_eq_ok_iff.1 h
      cases h
      rcases hshape with haggr | ⟨t, ht, haggr⟩
      · exact Or.inr (Or.inl ⟨_, by rw [haggr]⟩)
      · exact Or.inr (Or.inr ⟨name, t, ht, by rw [haggr]⟩)
    · cases h
      rcases hshape with haggr | ⟨t, -, haggr⟩
      · exact Or.inl haggr
      · exact Or.inr (Or.inl ⟨t, haggr⟩)
  · cases h
    exact Or.inl rfl

theorem CDecl.nodup_declared {chunk : CDecl} {ts : List TypeId} (h : chunk.declared = .ok ts) :
    ts.Nodup := by
  rcases CDecl.declared_shape h with rfl | ⟨t, rfl⟩ | ⟨name, t, ht, rfl⟩
  · exact List.nodup_nil
  · exact List.nodup_singleton t
  · rw [List.nodup_cons, List.mem_singleton]
    refine ⟨?_, List.nodup_singleton t⟩
    intro heq
    exact ht (congrArg TypeId.kind heq.symm)

/-- The first list covers nothing the other one lacks, if the typedef of the chunk is new. -/
theorem CDecl.front_covered {chunk : CDecl} {ts : List TypeId} {deps : Deps}
    (h : chunk.declared = .ok ts)
    (hfresh : ∀ name t, ts = [⟨.typedef, name⟩, t] → deps.listOf ⟨.typedef, name⟩ = []) :
    ∀ t ∈ ts, ∀ dep ∈ frontList ts deps, Covers (deps.listOf t) dep := by
  intro t ht dep hdep
  rcases CDecl.declared_shape h with rfl | ⟨t', rfl⟩ | ⟨name, t', -, rfl⟩
  · cases ht
  · rw [List.mem_singleton.1 ht]
    exact ⟨dep, hdep, rfl⟩
  · rw [show frontList [⟨.typedef, name⟩, t'] deps = deps.listOf ⟨.typedef, name⟩ from rfl,
      hfresh name t' rfl] at hdep
    cases hdep

/-- The registration of a chunk: its types are located, its uses inserted. -/
theorem registerChunk_eq_ok_iff {deps deps' : Deps} {chunk : CDecl} {key : Nat} :
    registerChunk deps chunk key = .ok deps' ↔ ∃ ts, chunk.declared = .ok ts ∧
      chunk.uses.foldlM (insertDep ts) (ts.foldl (fun deps t => deps.locate key t) deps) = .ok deps' := by
  unfold registerChunk
  rw [bind_eq_ok_iff]
  refine exists_congr fun ts => and_congr_right fun hts => ?_
  unfold CDecl.uses
  by_cases htype : chunk.type = .decl
  · rw [if_pos htype, if_pos htype, List.foldlM_append, ← recurseTypeDecl_eq]
  · rw [if_neg htype, if_neg htype]
    unfold CDecl.declared at hts
    rw [if_neg htype] at hts
    cases hts
    rfl

/-! ## All chunks -/

/-- What the tables say about the chunks registered. -/
structure Registered (chunks : List CDecl) (deps : Deps) : Prop where
  entry : ∀ c ∈ chunks, ∀ t ∈ c.types, (deps.get? t).isSome
  location : ∀ {t e}, deps.get? t = some e → (∃ c, chunks[e.location]? = some c ∧ t ∈ c.types) ∧
    ∀ {i c}, chunks[i]? = some c → t ∈ c.types → i ≤ e.location
  sound : ∀ {t dep}, dep ∈ deps.listOf t → ∃ c ∈ chunks, t ∈ c.types ∧ dep ∈ c.deps
  complete : ∀ {i c}, chunks[i]? = some c → FreshTypedef (chunks.take i) c →
    ∀ t ∈ c.types, ∀ dep ∈ c.deps, Covers (deps.listOf t) dep

theorem getElem?_concat_iff {α : Type} {l : List α} {a b : α} {i : Nat} :
    (l ++ [a])[i]? = some b ↔ l[i]? = some b ∨ (i = l.length ∧ b = a) := by
  rcases Nat.lt_trichotomy i l.length with hlt | rfl | hgt
  · rw [List.getElem?_append_left hlt]
    have hne : i ≠ l.length := Nat.ne_of_lt hlt
    simp [hne]
  · simp [eq_comm]
  · have hne : i ≠ l.length := Nat.ne_of_gt hgt
    rw [List.getElem?_eq_none (by simp; omega), List.getElem?_eq_none (by omega)]
    simp [hne]

namespace Registered

theorem nil : Registered [] Deps.empty where
  entry := by
    intro c hc
    cases hc
  location := by
    intro t e h
    rw [Deps.get?_empty] at h
    cases h
  sound := by
    intro t dep h
    rw [Deps.listOf_of_none (Deps.get?_empty t)] at h
    cases h
  complete := by
    intro i c hc
    cases hc

variable {chunks : List CDecl} {deps deps' : Deps} {chunk : CDecl}

/-- A type that no chunk has declared has no dependences yet. -/
theorem listOf_eq_nil (h : Registered chunks deps) {t : TypeId} (ht : ∀ c ∈ chunks, t ∉ c.types) :
    deps.listOf t = [] := by
  rw [List.eq_nil_iff_forall_not_mem]
  intro dep hdep
  obtain ⟨c, hc, hct, -⟩ := h.sound hdep
  exact ht c hc hct

/-- The last chunk that declares a type is the new one, if it does. -/
theorem last_concat {t : TypeId} (ht : t ∈ chunk.types) :
    (∃ c, (chunks ++ [chunk])[chunks.length]? = some c ∧ t ∈ c.types) ∧
      ∀ {i c}, (chunks ++ [chunk])[i]? = some c → t ∈ c.types → i ≤ chunks.length := by
  refine ⟨⟨chunk, getElem?_concat_iff.2 (Or.inr ⟨rfl, rfl⟩), ht⟩, ?_⟩
  intro i c hi _
  rcases getElem?_concat_iff.1 hi with hi | ⟨hi, -⟩
  · exact Nat.le_of_lt (List.getElem?_eq_some_iff.1 hi).1
  · exact Nat.le_of_eq hi

/-- Otherwise it is the one it was. -/
theorem last_concat_of_not_mem {t : TypeId} {location : Nat} (hnot : t ∉ chunk.types)
    (h : (∃ c, chunks[location]? = some c ∧ t ∈ c.types) ∧
      ∀ {i c}, chunks[i]? = some c → t ∈ c.types → i ≤ location) :
    (∃ c, (chunks ++ [chunk])[location]? = some c ∧ t ∈ c.types) ∧
      ∀ {i c}, (chunks ++ [chunk])[i]? = some c → t ∈ c.types → i ≤ location := by
  obtain ⟨⟨c, hc, hct⟩, hlast⟩ := h
  refine ⟨⟨c, getElem?_concat_iff.2 (Or.inl hc), hct⟩, ?_⟩
  intro i c' hi hc't
  rcases getElem?_concat_iff.1 hi with hi | ⟨-, rfl⟩
  · exact hlast hi hc't
  · exact absurd hc't hnot

/-- One chunk more. -/
theorem step (h : Registered chunks deps)
    (hstep : registerChunk deps chunk chunks.length = .ok deps') :
    Registered (chunks ++ [chunk]) deps' := by
  obtain ⟨ts, hts, hrun⟩ := registerChunk_eq_ok_iff.1 hstep
  have htypes := CDecl.types_eq hts
  have hget := fun t => Deps.get?_foldl_locate chunks.length t ts deps
  have hlist := fun t => Deps.listOf_foldl_locate chunks.length t ts deps
  have hinserted := Inserting.run (CDecl.nodup_declared hts)
    (fun t ht => by rw [hget, if_pos ht]; rfl) (Inserting.start ts _) hrun
  rw [List.nil_append] at hinserted
  constructor
  case entry =>
    intro c hc t ht
    rw [hinserted.isSome_iff, hget]
    split
    · rfl
    · rename_i hnot
      rcases List.mem_append.1 hc with hc | hc
      · exact h.entry c hc t ht
      · rw [List.mem_singleton.1 hc, htypes] at ht
        exact absurd ht hnot
  case location =>
    intro t e he
    have hlocation := hinserted.location t
    rw [he, hget] at hlocation
    split at hlocation
    · rename_i ht
      have hkey : e.location = chunks.length := Option.some.inj hlocation
      rw [hkey]
      exact last_concat (htypes ▸ ht)
    · rename_i hnot
      obtain ⟨e₀, he₀, hkey⟩ := Option.map_eq_some_iff.1 hlocation.symm
      rw [← hkey]
      exact last_concat_of_not_mem (htypes ▸ hnot) (h.location he₀)
  case sound =>
    intro t dep hdep
    rcases hinserted.sound t dep hdep with hbefore | ⟨ht, use, huse, hok⟩
    · rw [hlist] at hbefore
      obtain ⟨c, hc, hct⟩ := h.sound hbefore
      exact ⟨c, List.mem_append_left _ hc, hct⟩
    · exact ⟨chunk, List.mem_append_right _ List.mem_cons_self, htypes ▸ ht,
        CDecl.mem_deps_iff.2 ⟨use, huse, hok⟩⟩
  case complete =>
    intro i c hc hfresh t ht dep hdep
    rcases getElem?_concat_iff.1 hc with hc | ⟨rfl, rfl⟩
    · have hi := (List.getElem?_eq_some_iff.1 hc).1
      rw [List.take_append_of_le_length (Nat.le_of_lt hi)] at hfresh
      obtain ⟨entry, hentry, htarget⟩ := h.complete hc hfresh t ht dep hdep
      refine ⟨entry, hinserted.kept t entry ?_, htarget⟩
      rw [hlist]
      exact hentry
    · rw [List.take_left] at hfresh
      rw [htypes] at ht
      obtain ⟨use, huse, hok⟩ := CDecl.mem_deps_iff.1 hdep
      apply (hinserted.complete ?_ t ht).2 use huse dep hok
      apply CDecl.front_covered hts
      intro name t' hts'
      rw [hlist]
      apply h.listOf_eq_nil
      exact hfresh name t' (htypes.trans hts')

/-- All the chunks that follow. -/
theorem run : ∀ {rest chunks : List CDecl} {deps : Deps}, Registered chunks deps →
    registerFrom deps chunks.length rest = .ok deps' → Registered (chunks ++ rest) deps' := by
  intro rest
  induction rest with
  | nil =>
    intro chunks deps h hrun
    cases hrun
    rw [List.append_nil]
    exact h
  | cons chunk rest ih =>
    intro chunks deps h hrun
    rw [registerFrom] at hrun
    obtain ⟨deps₁, hstep, hrun⟩ := bind_eq_ok_iff.1 hrun
    rw [List.append_cons]
    apply ih (h.step hstep)
    rw [List.length_append]
    exact hrun

end Registered

/-! ## What only assignments can change -/

section Assigned

variable {Q : Deps → Prop} (hset : ∀ deps t entry, Q deps → Q (deps.set t entry))

include hset

theorem foldl_locate_rule (key : Nat) (ts : List TypeId) (deps : Deps) (h : Q deps) :
    Q (ts.foldl (fun deps t => deps.locate key t) deps) := by
  apply List.foldlRecOn ts _ h
  intro deps hdeps t _
  exact hset deps t _ hdeps

theorem foldl_push_rule (dep : Dep) (ts : List TypeId) (deps : Deps) (h : Q deps) :
    Q (ts.foldl (fun deps t => deps.push dep t) deps) := by
  apply List.foldlRecOn ts _ h
  intro deps hdeps t _
  show Q (deps.push dep t)
  unfold Deps.push
  split
  · exact hset deps t _ hdeps
  · exact hdeps

theorem foldlM_insertDep_rule {ts : List TypeId} {deps' : Deps} : ∀ {uses : List CDecl} {deps : Deps},
    Q deps → uses.foldlM (insertDep ts) deps = .ok deps' → Q deps' := by
  intro uses
  induction uses with
  | nil =>
    intro deps h hrun
    cases hrun
    exact h
  | cons use uses ih =>
    intro deps h hrun
    rw [List.foldlM_cons] at hrun
    obtain ⟨deps₁, hstep, hrun⟩ := bind_eq_ok_iff.1 hrun
    apply ih _ hrun
    obtain ⟨dep, -, ⟨-, rfl⟩ | ⟨-, rfl⟩⟩ := insertDep_eq_ok_iff.1 hstep
    · exact h
    · exact foldl_push_rule hset dep ts deps h

/-- What every assignment to an entry keeps, the first loop keeps. -/
theorem registerFrom_rule {deps' : Deps} : ∀ {chunks : List CDecl} {deps : Deps} {key : Nat},
    Q deps → registerFrom deps key chunks = .ok deps' → Q deps' := by
  intro chunks
  induction chunks with
  | nil =>
    intro deps key h hrun
    cases hrun
    exact h
  | cons chunk chunks ih =>
    intro deps key h hrun
    rw [registerFrom] at hrun
    obtain ⟨deps₁, hstep, hrun⟩ := bind_eq_ok_iff.1 hrun
    obtain ⟨ts, -, huses⟩ := registerChunk_eq_ok_iff.1 hstep
    exact ih (foldlM_insertDep_rule hset (foldl_locate_rule hset key ts deps h) huses) hrun

end Assigned

/-! ## Errors -/

/-- Uses that all make a dependence are inserted. -/
theorem foldlM_insertDep_ok {ts : List TypeId} : ∀ {uses : List CDecl},
    (∀ use ∈ uses, ∃ dep, use.dep = .ok dep) →
      ∀ deps, ∃ deps', uses.foldlM (insertDep ts) deps = .ok deps' := by
  intro uses
  induction uses with
  | nil =>
    intro _ deps
    exact ⟨deps, rfl⟩
  | cons use uses ih =>
    intro hdep deps
    obtain ⟨dep, hok⟩ := hdep use List.mem_cons_self
    obtain ⟨deps₁, hstep⟩ : ∃ deps₁, insertDep ts deps use = .ok deps₁ := by
      by_cases hany : (frontList ts deps).any dep.same = true
      · exact ⟨_, insertDep_eq_ok_iff.2 ⟨dep, hok, Or.inl ⟨hany, rfl⟩⟩⟩
      · rw [Bool.not_eq_true] at hany
        exact ⟨_, insertDep_eq_ok_iff.2 ⟨dep, hok, Or.inr ⟨hany, rfl⟩⟩⟩
    obtain ⟨deps', hrun⟩ := ih (fun u hu => hdep u (List.mem_cons_of_mem _ hu)) deps₁
    refine ⟨deps', ?_⟩
    rw [List.foldlM_cons]
    exact bind_eq_ok_iff.2 ⟨deps₁, hstep, hrun⟩

/-- The first loop raises no error over managed chunks. -/
theorem registerFrom_ok : ∀ {chunks : List CDecl}, (∀ c ∈ chunks, c.Managed) →
    ∀ deps key, ∃ deps', registerFrom deps key chunks = .ok deps' := by
  intro chunks
  induction chunks with
  | nil =>
    intro _ deps key
    exact ⟨deps, rfl⟩
  | cons chunk chunks ih =>
    intro hmanaged deps key
    have hchunk := hmanaged chunk List.mem_cons_self
    obtain ⟨ts, hts⟩ := hchunk.declared
    obtain ⟨deps₁, hrun⟩ := @foldlM_insertDep_ok ts _ hchunk.dep
      (ts.foldl (fun deps t => deps.locate key t) deps)
    have hstep := registerChunk_eq_ok_iff.2 ⟨ts, hts, hrun⟩
    obtain ⟨deps', hrest⟩ := ih (fun c hc => hmanaged c (List.mem_cons_of_mem _ hc)) deps₁ (key + 1)
    refine ⟨deps', ?_⟩
    rw [registerFrom]
    exact bind_eq_ok_iff.2 ⟨deps₁, hstep, hrest⟩

/-- The error of a use. -/
theorem CDecl.dep_error {use : CDecl} {e : String} (h : use.dep = .error e) : e = unmanagedUse := by
  unfold CDecl.dep at h
  simp only at h
  split at h
  · cases h
  · split at h
    · cases h
    · split at h
      · split at h
        · split at h <;> cases h
        · cases h
      · cases h
        rfl

/-- The error of a typedef. -/
theorem CDecl.declared_error {chunk : CDecl} {e : String} (h : chunk.declared = .error e) :
    e = unmanagedTypedef := by
  unfold CDecl.declared at h
  split at h
  · split at h
    · rcases bind_eq_error h with hname | ⟨_, -, h⟩
      · unfold CDecl.typedefName at hname
        split at hname
        · cases hname
        · cases hname
        · cases hname
          rfl
      · cases h
    · cases h
  · cases h

theorem foldlM_insertDep_error {ts : List TypeId} {e : String} : ∀ {uses : List CDecl} {deps : Deps},
    uses.foldlM (insertDep ts) deps = .error e → e = unmanagedUse := by
  intro uses
  induction uses with
  | nil =>
    intro deps h
    cases h
  | cons use uses ih =>
    intro deps h
    rw [List.foldlM_cons] at h
    rcases bind_eq_error h with hstep | ⟨deps₁, -, hrest⟩
    · rcases bind_eq_error hstep with hdep | ⟨dep, -, hinsert⟩
      · exact CDecl.dep_error hdep
      · simp only at hinsert
        split at hinsert <;> cases hinsert
    · exact ih hrest

/-- The errors of the first loop are the two of what it does not manage. -/
theorem registerFrom_error {e : String} : ∀ {chunks : List CDecl} {deps : Deps} {key : Nat},
    registerFrom deps key chunks = .error e → e = unmanagedTypedef ∨ e = unmanagedUse := by
  intro chunks
  induction chunks with
  | nil =>
    intro deps key h
    cases h
  | cons chunk chunks ih =>
    intro deps key h
    rw [registerFrom] at h
    rcases bind_eq_error h with hchunk | ⟨deps₁, -, hrest⟩
    · rcases bind_eq_error hchunk with hdeclared | ⟨ts, -, huses⟩
      · exact Or.inl (CDecl.declared_error hdeclared)
      · split at huses
        · simp only at huses
          rw [recurseTypeDecl_eq, ← List.foldlM_append] at huses
          exact Or.inr (foldlM_insertDep_error huses)
        · cases huses
    · exact ih hrest

/-- **The tables the first loop builds.** -/
theorem registered_of_registerFrom {chunks : List CDecl} {deps : Deps}
    (h : registerFrom Deps.empty 0 chunks = .ok deps) : Registered chunks deps :=
  Registered.nil.run h

end Rathaxes.Resolve
