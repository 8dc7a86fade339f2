import Rathaxes.Back.Lookup
import Rathaxes.Laws.SequenceLookup

/-!
# Looking a pointcut up, twice

The middle end looks a pointcut without a scope up in an interface and in all ancestors whose trees are in
it, and asks that one declaration is found. The back end asks the interface and its own parents, and is
content with any declaration: the test that should tell the declarations apart compares texts that are all
empty. So the two agree, and are right about the ancestors, exactly when the loaded ancestors show one
declaration where all ancestors do, and the interface with its parents shows any where all ancestors show
one (`pointcutLookups_agree_iff`).
-/

set_option autoImplicit false

namespace Rathaxes.Mid

open CodeWorker Interfaces Back

/-! ## The registered interfaces -/

/-- The interfaces of a session: each is registered under its name and has been checked. -/
structure Registry where
  cache : Table Itf
  named : ∀ e ∈ cache.entries, e.2.name.text = e.1 ∧ e.2.name ≠ Word.blank
  checked : ∀ e ∈ cache.entries, e.2.Checked

namespace Registry

variable (R : Registry)

/-- What the lookups work on. -/
def interfaces (loaded : Word → Word → Bool) : Interfaces := ⟨[], R.cache, loaded⟩

/-- The tree of a registered interface. -/
structure Tree (node : ItfNode) : Prop where
  fromFile : node.fromFile = false
  registered : R.cache.get? node.itf.name.text = some node.itf

variable {R} {loaded : Word → Word → Bool}

theorem mem_entries_of_get? {name : String} {itf : Itf} (h : R.cache.get? name = some itf) :
    (name, itf) ∈ R.cache.entries :=
  (R.cache.mem_entries_iff name itf).2 h

theorem Tree.name_ne {node : ItfNode} (h : R.Tree node) : node.itf.name ≠ Word.blank :=
  (R.named _ (mem_entries_of_get? h.registered)).2

theorem Tree.checked {node : ItfNode} (h : R.Tree node) : node.itf.Checked :=
  R.checked _ (mem_entries_of_get? h.registered)

theorem tree_of_get? {name : String} {itf : Itf} (h : R.cache.get? name = some itf) :
    R.Tree ⟨false, itf⟩ := by
  have hname : itf.name.text = name := (R.named _ (mem_entries_of_get? h)).1
  exact ⟨rfl, by simpa [hname] using h⟩

theorem parent_eq {node : ItfNode} (h : R.Tree node) (name : Word) :
    (R.interfaces loaded).parent node name = (R.cache.get? name.text).map (ItfNode.mk false) := by
  simp [parent, h.fromFile, interfaces]

theorem registered_eq (name : Word) :
    (R.interfaces loaded).registered name = R.cache.get? name.text := by
  simp [Interfaces.registered, interfaces, file, interfacesOf]

/-- The parents of a tree are trees. -/
theorem tree_of_mem_parents {node m : ItfNode} (h : R.Tree node)
    (hm : m ∈ (R.interfaces loaded).parents node) : R.Tree m := by
  obtain ⟨name, -, hname⟩ := List.mem_filterMap.1 hm
  rw [parent_eq h] at hname
  obtain ⟨itf, hget, rfl⟩ := Option.map_eq_some_iff.1 hname
  exact tree_of_get? hget

theorem tree_of_reach {node m : ItfNode} (h : R.Tree node)
    (hm : Relation.ReflTransGen (Calls (R.interfaces loaded).parents) node m) : R.Tree m := by
  induction hm with
  | refl => exact h
  | tail _ hstep ih => exact tree_of_mem_parents ih hstep

/-- **A key names one declaration**: it shows the interface, and an interface is registered once. -/
theorem declaration_unique {rtype : RType} {m m' : ItfNode} (hm : R.Tree m) (hm' : R.Tree m')
    {key : String} {d d' : ItfDecl} (h : (key, d) ∈ matching m.itf.pointcuts rtype)
    (h' : (key, d') ∈ matching m'.itf.pointcuts rtype) : d = d' := by
  obtain ⟨decls, hdecls, hd, -⟩ := mem_matching_iff.1 h
  obtain ⟨decls', hdecls', hd', -⟩ := mem_matching_iff.1 h'
  have hc := hm.checked.pointcuts.get? hdecls hd
  have hc' := hm'.checked.pointcuts.get? hdecls' hd'
  have hscope := hc.scope (hm.checked.notGlobal_get? hdecls hd)
  have hscope' := hc'.scope (hm'.checked.notGlobal_get? hdecls' hd')
  have hnames := ((fullName_eq_iff_names hc.params hc'.params).1 (hc.key.symm.trans hc'.key)).1
  have hitf : m.itf.name = m'.itf.name := by
    rw [← hscope, ← hscope']
    exact scope_eq_of_rtxRTypeName_eq (hscope ▸ hm.name_ne) (hscope' ▸ hm'.name_ne)
      (hm'.checked.notGlobal_get? hdecls' hd') hnames
  have hsame : m.itf = m'.itf :=
    Option.some.inj (hm.registered.symm.trans (hitf ▸ hm'.registered))
  rw [hsame, hdecls'] at hdecls
  cases hdecls
  exact Option.some.inj (hd.symm.trans hd')

end Registry

/-! ## The declarations asked for -/

/-- A matching declaration of the node or of one it leads to. -/
def PointcutCandidate (next : ItfNode → List ItfNode) (node : ItfNode) (rtype : RType) (d : ItfDecl) :
    Prop :=
  ∃ m, Relation.ReflTransGen (Calls next) node m ∧ ∃ key, (key, d) ∈ matching m.itf.pointcuts rtype

/-- The trees of parents up to the first one that is not registered. -/
def askedParents (w : Interfaces) : List Word → List Itf
  | [] => []
  | name :: names =>
    match w.registered name with
    | none => []
    | some parentTree => parentTree :: askedParents w names

/-- A matching declaration of the interface or of one of the parents asked. -/
def PointcutNearby (w : Interfaces) (itf : Itf) (rtype : RType) (d : ItfDecl) : Prop :=
  ∃ tree ∈ itf :: askedParents w itf.inheritance, ∃ key, (key, d) ∈ matching tree.pointcuts rtype

section Sets

variable {R : Registry} {loaded : Word → Word → Bool} {node : ItfNode} {rtype : RType} {d d' : ItfDecl}

theorem mem_askedParents {w : Interfaces} {tree : Itf} : ∀ {names : List Word},
    tree ∈ askedParents w names → ∃ name ∈ names, w.registered name = some tree
  | [], h => absurd h List.not_mem_nil
  | name :: names, h => by
    unfold askedParents at h
    cases hreg : w.registered name with
    | none => simp [hreg] at h
    | some parentTree =>
      simp only [hreg, List.mem_cons] at h
      rcases h with rfl | hrest
      · exact ⟨name, List.mem_cons_self, hreg⟩
      · obtain ⟨name', hmem, hreg'⟩ := mem_askedParents hrest
        exact ⟨name', List.mem_cons_of_mem name hmem, hreg'⟩

theorem reach_of_loaded {w : Interfaces} {m : ItfNode}
    (h : Relation.ReflTransGen (Calls w.loadedParents) node m) :
    Relation.ReflTransGen (Calls w.parents) node m := by
  induction h with
  | refl => exact Relation.ReflTransGen.refl
  | tail _ hstep ih => exact ih.tail (mem_parents_of_loaded hstep)

theorem PointcutCandidate.of_loaded
    (h : PointcutCandidate (R.interfaces loaded).loadedParents node rtype d) :
    PointcutCandidate (R.interfaces loaded).parents node rtype d := by
  obtain ⟨m, hpath, hd⟩ := h
  exact ⟨m, reach_of_loaded hpath, hd⟩

theorem PointcutCandidate.of_nearby (hnode : R.Tree node)
    (h : PointcutNearby (R.interfaces loaded) node.itf rtype d) :
    PointcutCandidate (R.interfaces loaded).parents node rtype d := by
  obtain ⟨tree, htree, hd⟩ := h
  rcases List.mem_cons.1 htree with rfl | hasked
  · exact ⟨node, Relation.ReflTransGen.refl, hd⟩
  · obtain ⟨name, hname, hreg⟩ := mem_askedParents hasked
    rw [Registry.registered_eq] at hreg
    refine ⟨⟨false, tree⟩, Relation.ReflTransGen.single ?_, hd⟩
    exact List.mem_filterMap.2 ⟨name, hname, by rw [Registry.parent_eq hnode, hreg]; rfl⟩

/-- Candidates with one full name are one. -/
theorem PointcutCandidate.unique (hnode : R.Tree node)
    (h : PointcutCandidate (R.interfaces loaded).parents node rtype d)
    (h' : PointcutCandidate (R.interfaces loaded).parents node rtype d')
    (hname : d'.rtype.rtxRTypeFullQualifiedName = d.rtype.rtxRTypeFullQualifiedName) : d = d' := by
  obtain ⟨m, hpath, key, hd⟩ := h
  obtain ⟨m', hpath', key', hd'⟩ := h'
  have hm := Registry.tree_of_reach hnode hpath
  have hm' := Registry.tree_of_reach hnode hpath'
  obtain rfl : key = key' := by
    rw [key_of_mem_matching hm.checked.pointcuts hd, key_of_mem_matching hm'.checked.pointcuts hd', hname]
  exact Registry.declaration_unique hm hm' hd hd'

end Sets

/-! ## The middle end -/

section Mid

variable {R : Registry} {loaded : Word → Word → Bool} {node : ItfNode} {rtype : RType}

/-- What a search has found are matching declarations of registered interfaces. -/
structure SoundSearch (R : Registry) (rtype : RType) (s : PointcutSearch) : Prop where
  rtype_eq : s.rtype = rtype
  pushed : s.pushed = []
  declared : ∀ key d, s.possibilities.get? key = some d →
    ∃ m, R.Tree m ∧ (key, d) ∈ matching m.itf.pointcuts rtype

/-- An interface adds its matches to what has been found. -/
theorem SoundSearch.byParameters {s : PointcutSearch} (hs : SoundSearch R rtype s) (hnode : R.Tree node) :
    SoundSearch R rtype (s.byParameters node.itf) ∧
      ∀ e : String × ItfDecl, (s.byParameters node.itf).possibilities.get? e.1 = some e.2 ↔
        s.possibilities.get? e.1 = some e.2 ∨ e ∈ matching node.itf.pointcuts rtype := by
  have hdeclared : ∀ key d, (s.byParameters node.itf).possibilities.get? key = some d →
      ∃ m, R.Tree m ∧ (key, d) ∈ matching m.itf.pointcuts rtype := by
    intro key d hget
    rcases Table.mem_of_get?_foldl_set hget with hmem | hold
    · exact ⟨node, hnode, by rwa [hs.rtype_eq] at hmem⟩
    · exact hs.declared key d hold
  refine ⟨⟨hs.rtype_eq, hs.pushed, hdeclared⟩, fun e => ⟨fun hget => ?_, fun h => ?_⟩⟩
  · rcases Table.mem_of_get?_foldl_set hget with hmem | hold
    · exact Or.inr (by rwa [hs.rtype_eq] at hmem)
    · exact Or.inl hold
  · -- something is under the key, and a key names one declaration
    have hsome : ((s.byParameters node.itf).possibilities.get? e.1).isSome := by
      refine (Table.isSome_get?_foldl_set _ _ _).2 ?_
      rcases h with hold | hmem
      · exact Or.inr (by rw [hold]; rfl)
      · exact Or.inl (List.mem_map_of_mem (by rwa [hs.rtype_eq]))
    obtain ⟨d, hd⟩ := Option.isSome_iff_exists.1 hsome
    obtain ⟨m, hm, hmem⟩ := hdeclared e.1 d hd
    have he : ∃ m', R.Tree m' ∧ (e.1, e.2) ∈ matching m'.itf.pointcuts rtype := by
      rcases h with hold | hmem'
      · exact hs.declared e.1 e.2 hold
      · exact ⟨node, hnode, hmem'⟩
    obtain ⟨m', hm', hmem'⟩ := he
    rw [hd, Registry.declaration_unique hm hm' hmem hmem']

/-- **The lookup of the middle end** collects the matches of the ancestors that are loaded. -/
theorem checkPointcut_collects (hplain : isPlain rtype.name = true) (hnode : R.Tree node) {fuel : Nat}
    {s : PointcutSearch} {r : Bool × PointcutSearch} (hs : SoundSearch R rtype s)
    (h : checkPointcut (R.interfaces loaded) fuel node s = some r) :
    r.1 = false ∧ SoundSearch R rtype r.2 ∧ ∀ e : String × ItfDecl,
      r.2.possibilities.get? e.1 = some e.2 ↔ s.possibilities.get? e.1 = some e.2 ∨
        ∃ m, Relation.ReflTransGen (Calls (R.interfaces loaded).loadedParents) node m ∧
          e ∈ matching m.itf.pointcuts rtype := by
  refine collects_of_turn (f := checkPointcut (R.interfaces loaded)) (Q := R.Tree)
    (H := fun s (e : String × ItfDecl) => s.possibilities.get? e.1 = some e.2)
    (fun n hn m hm => Registry.tree_of_mem_parents hn (mem_parents_of_loaded hm)) (fun _ _ => rfl) ?_
    hnode hs h
  intro fuel n s r hn hs h
  have hdefines := s.defines_of_not_qualified n.itf
    (by rw [hs.rtype_eq]; exact isQualified_of_plain hplain)
  unfold checkPointcut at h
  simp only [hs.rtype_eq, hplain, if_true, hdefines, Bool.false_eq_true, if_false] at h
  obtain ⟨hsound, hadds⟩ := hs.byParameters hn
  exact ⟨_, hsound, hadds, h⟩

/-- A table that files declarations under their full names has one entry when they have one. -/
theorem isSome_only?_iff_oneDeclaration {t : Table ItfDecl} {A : ItfDecl → Prop}
    (h : ∀ key, (t.get? key).isSome ↔ ∃ d, A d ∧ d.rtype.rtxRTypeFullQualifiedName = key) :
    t.only?.isSome ↔ OneDeclaration A := by
  rw [Table.isSome_only?_iff]
  simp only [h]
  constructor
  · rintro ⟨key, ⟨d, hd, rfl⟩, hall⟩
    exact ⟨d, hd, fun d' hd' => hall _ ⟨d', hd', rfl⟩⟩
  · rintro ⟨d, hd, hall⟩
    refine ⟨_, ⟨d, hd, rfl⟩, ?_⟩
    rintro key ⟨d', hd', rfl⟩
    exact hall d' hd'

/-- When nothing settles the lookup, it answers with the one declaration in its table. -/
theorem itfCheckPointcut_eq_only {w : Interfaces} {fuel : Nat} {r : Bool × PointcutSearch}
    (h : checkPointcut w fuel node ⟨rtype, Table.empty, []⟩ = some r) (hfalse : r.1 = false)
    (hpushed : r.2.pushed = []) :
    itfCheckPointcut w fuel rtype node = some (match r.2.possibilities.only? with
      | some d => (true, d.rtype)
      | none => (false, r.2.rtype)) := by
  unfold itfCheckPointcut Table.only?
  simp only [h, Option.map_some, hfalse, Bool.false_eq_true, if_false, hpushed, List.map_nil,
    List.append_nil]
  rcases r.2.possibilities.entries with _ | ⟨e, _ | ⟨e', es⟩⟩ <;> rfl

/-- A table of the matches of the loaded ancestors files each candidate under its full name. -/
theorem isSome_get?_iff_candidate (hnode : R.Tree node) {t : Table ItfDecl}
    (hcollects : ∀ e : String × ItfDecl, t.get? e.1 = some e.2 ↔
      ∃ m, Relation.ReflTransGen (Calls (R.interfaces loaded).loadedParents) node m ∧
        e ∈ matching m.itf.pointcuts rtype) (key : String) :
    (t.get? key).isSome ↔ ∃ d, PointcutCandidate (R.interfaces loaded).loadedParents node rtype d ∧
      d.rtype.rtxRTypeFullQualifiedName = key := by
  rw [Option.isSome_iff_exists]
  refine exists_congr fun d => ?_
  have hkey : ∀ {key' m}, Relation.ReflTransGen (Calls (R.interfaces loaded).loadedParents) node m →
      (key', d) ∈ matching m.itf.pointcuts rtype → key' = d.rtype.rtxRTypeFullQualifiedName := by
    intro key' m hpath hmem
    have hm := Registry.tree_of_reach hnode (reach_of_loaded hpath)
    exact key_of_mem_matching hm.checked.pointcuts hmem
  rw [hcollects (key, d)]
  constructor
  · rintro ⟨m, hpath, hmem⟩
    exact ⟨⟨m, hpath, key, hmem⟩, (hkey hpath hmem).symm⟩
  · rintro ⟨⟨m, hpath, key', hmem⟩, rfl⟩
    exact ⟨m, hpath, hkey hpath hmem ▸ hmem⟩

/-- The middle end succeeds when the loaded ancestors show one declaration, and answers with it. -/
theorem itfCheckPointcut_spec (hplain : isPlain rtype.name = true) (hnode : R.Tree node) {fuel : Nat}
    (h : (checkPointcut (R.interfaces loaded) fuel node ⟨rtype, Table.empty, []⟩).isSome) :
    ∃ answer, itfCheckPointcut (R.interfaces loaded) fuel rtype node = some answer ∧
      (answer.1 = true ↔
        OneDeclaration (PointcutCandidate (R.interfaces loaded).loadedParents node rtype)) ∧
      (answer.1 = true →
        ∃ d, PointcutCandidate (R.interfaces loaded).loadedParents node rtype d ∧ answer.2 = d.rtype) := by
  obtain ⟨r, hr⟩ := Option.isSome_iff_exists.1 h
  have hempty : SoundSearch R rtype ⟨rtype, Table.empty, []⟩ := ⟨rfl, rfl, by simp⟩
  obtain ⟨hfalse, hsound, hcollects⟩ := checkPointcut_collects hplain hnode hempty hr
  simp only [Table.get?_empty, reduceCtorEq, false_or] at hcollects
  have hone := isSome_only?_iff_oneDeclaration (isSome_get?_iff_candidate hnode hcollects)
  refine ⟨_, itfCheckPointcut_eq_only hr hfalse hsound.pushed, ?_⟩
  cases honly : r.2.possibilities.only? with
  | none =>
    rw [honly] at hone
    exact ⟨by simpa using hone, by simp⟩
  | some d =>
    rw [honly] at hone
    refine ⟨by simpa using hone, fun _ => ⟨d, ?_, rfl⟩⟩
    obtain ⟨key, hkey⟩ := Table.only?_eq_some_iff.1 honly
    obtain ⟨m, hpath, hmem⟩ := (hcollects (key, d)).1 ((hkey key d).2 ⟨rfl, rfl⟩)
    exact ⟨m, hpath, key, hmem⟩

end Mid

/-! ## The back end -/

section Back

variable {w : Interfaces} {rtype : RType}

/-- Without a scope the loop over the parents settles nothing, and each parent asked adds its matches. -/
theorem definesInParents_plain (hplain : isPlain rtype.name = true) :
    ∀ (names : List Word) (s : PointcutSearch), s.rtype = rtype →
      definesInParents w names s =
        (false, (askedParents w names).foldl (fun s tree => s.byParameters tree) s)
  | [], _, _ => rfl
  | name :: names, s, hs => by
    unfold definesInParents askedParents
    cases w.registered name with
    | none => rfl
    | some parentTree =>
      have hdefines := s.defines_of_not_qualified parentTree
        (by rw [hs]; exact isQualified_of_plain hplain)
      simp only [hdefines, Bool.false_eq_true, if_false, List.foldl_cons]
      exact definesInParents_plain hplain names (s.byParameters parentTree) hs

/-- The keys found in a list of interfaces. -/
theorem isSome_get?_foldl_byParameters (key : String) : ∀ (trees : List Itf) (s : PointcutSearch),
    s.rtype = rtype →
    (((trees.foldl (fun s tree => s.byParameters tree) s).possibilities.get? key).isSome ↔
      (s.possibilities.get? key).isSome ∨
        ∃ tree ∈ trees, key ∈ (matching tree.pointcuts rtype).map Prod.fst)
  | [], s, _ => by simp
  | tree :: trees, s, hs => by
    have hstep := Table.isSome_get?_foldl_set key (matching tree.pointcuts s.rtype) s.possibilities
    rw [List.foldl_cons, isSome_get?_foldl_byParameters key trees (s.byParameters tree) hs,
      List.exists_mem_cons_iff, ← or_assoc]
    exact or_congr_left (hstep.trans (by rw [hs, or_comm]))

/-- What has been found in a list of interfaces is a declaration of one of them. -/
theorem mem_matching_of_foldl_byParameters {key : String} {d : ItfDecl} : ∀ {trees : List Itf}
    {s : PointcutSearch}, s.rtype = rtype →
    (trees.foldl (fun s tree => s.byParameters tree) s).possibilities.get? key = some d →
    s.possibilities.get? key = some d ∨ ∃ tree ∈ trees, (key, d) ∈ matching tree.pointcuts rtype
  | [], _, _, h => Or.inl h
  | tree :: trees, s, hs, h => by
    rw [List.foldl_cons] at h
    rw [List.exists_mem_cons_iff]
    have hnext : (s.byParameters tree).rtype = rtype := hs
    rcases mem_matching_of_foldl_byParameters hnext h with hold | hlater
    · rcases Table.mem_of_get?_foldl_set hold with hmem | hold
      · exact Or.inr (Or.inl (hs ▸ hmem))
      · exact Or.inl hold
    · exact Or.inr (Or.inr hlater)

/-- What the back end has found after the interface and the parents asked. -/
def nearbySearch (w : Interfaces) (itf : Itf) (rtype : RType) : PointcutSearch :=
  (itf :: askedParents w itf.inheritance).foldl (fun s tree => s.byParameters tree) ⟨rtype, Table.empty, []⟩

/-- The declarations it has found. -/
def nearbyDecls (w : Interfaces) (itf : Itf) (rtype : RType) : List ItfDecl :=
  (nearbySearch w itf rtype).possibilities.entries.map Prod.snd

theorem nameDefinesPointcut_plain (hplain : isPlain rtype.name = true) {itf : Itf}
    (hname : itf.name ≠ Word.blank) (hreg : w.registered itf.name = some itf) (list : List Word) :
    nameDefinesPointcut w itf.name list ⟨rtype, Table.empty, []⟩ = (false, nearbySearch w itf rtype) := by
  have hdefines := (PointcutSearch.mk rtype Table.empty []).defines_of_not_qualified itf
    (isQualified_of_plain hplain)
  unfold nameDefinesPointcut definesInItf
  simp only [hname, ne_eq, not_false_eq_true, if_true, hreg, hdefines, Bool.false_eq_true, if_false]
  exact definesInParents_plain hplain itf.inheritance _ rfl

/-- What has been found is nearby. -/
theorem nearby_of_mem_nearbyDecls {itf : Itf} {d : ItfDecl} (hd : d ∈ nearbyDecls w itf rtype) :
    PointcutNearby w itf rtype d := by
  obtain ⟨⟨key, d⟩, he, rfl⟩ := List.mem_map.1 hd
  have hget := (Table.mem_entries_iff _ key d).1 he
  obtain ⟨tree, htree, hmem⟩ := (mem_matching_of_foldl_byParameters rfl hget).resolve_left (by simp)
  exact ⟨tree, htree, key, hmem⟩

/-- All texts are empty, so one key is left as soon as something is nearby. -/
theorem isSome_only?_nearbyDecls_iff {itf : Itf} :
    (Table.uniques (fun _ => "") (nearbyDecls w itf rtype)).only?.isSome ↔
      ∃ d, PointcutNearby w itf rtype d := by
  rw [Table.isSome_only?_uniques_iff]
  constructor
  · rintro ⟨d, hd, -⟩
    exact ⟨d, nearby_of_mem_nearbyDecls hd⟩
  · rintro ⟨d, tree, htree, key, hmem⟩
    have hsome := (isSome_get?_foldl_byParameters key _ ⟨rtype, Table.empty, []⟩ rfl).2
      (Or.inr ⟨tree, htree, List.mem_map_of_mem hmem⟩)
    obtain ⟨d', hd'⟩ := Option.isSome_iff_exists.1 hsome
    exact ⟨d', List.mem_map_of_mem ((Table.mem_entries_iff _ key d').2 hd'), fun _ _ => rfl⟩

/-- The back end succeeds when the interface or a parent asked has a match, and answers with one. -/
theorem itfNameDefinesPointcut_spec (hplain : isPlain rtype.name = true) {itf : Itf}
    (hname : itf.name ≠ Word.blank) (hreg : w.registered itf.name = some itf) (list : List Word) :
    ((itfNameDefinesPointcut w rtype itf.name list).1 = true ↔ ∃ d, PointcutNearby w itf rtype d) ∧
      ((itfNameDefinesPointcut w rtype itf.name list).1 = true →
        ∃ d, PointcutNearby w itf rtype d ∧ (itfNameDefinesPointcut w rtype itf.name list).2 = d.rtype) := by
  have hone := @isSome_only?_nearbyDecls_iff w rtype itf
  unfold itfNameDefinesPointcut
  simp only [nameDefinesPointcut_plain hplain hname hreg, Bool.false_eq_true, if_false]
  unfold nearbyDecls at hone
  cases honly : (Table.uniques (fun _ => "")
      ((nearbySearch w itf rtype).possibilities.entries.map Prod.snd)).only? with
  | none =>
    rw [honly] at hone
    exact ⟨by simpa using hone, by simp⟩
  | some d =>
    rw [honly] at hone
    have hhead := (Table.only?_uniques_iff.1 honly).1
    refine ⟨by simpa using hone, fun _ => ⟨d, ?_, rfl⟩⟩
    exact nearby_of_mem_nearbyDecls (List.mem_of_mem_head? hhead)

end Back

/-! ## Agreement -/

/-- Both lookups succeed when one declaration is in `A`, and then they answer with it. -/
structure LookupsAgree (A : ItfDecl → Prop) (mid back : Bool × RType) : Prop where
  midFound : mid.1 = true ↔ OneDeclaration A
  backFound : back.1 = true ↔ OneDeclaration A
  answers : OneDeclaration A → ∃ d, A d ∧ mid.2 = d.rtype ∧ back.2 = d.rtype

/-- **The two lookups of a pointcut without a scope** agree, and are right about the interface and its
ancestors, when the loaded ancestors show one declaration exactly if all do, and the interface with the
parents asked shows some exactly if all ancestors show one. -/
theorem pointcutLookups_agree_iff (R : Registry) (loaded : Word → Word → Bool) (itf : Itf)
    (hitf : R.cache.get? itf.name.text = some itf) (rtype : RType) (hplain : isPlain rtype.name = true)
    (hacyclic : ¬ LeadsToCycle (R.interfaces loaded).parents ⟨false, itf⟩) (list : List Word) :
    ∃ bound, ∀ fuel, bound ≤ fuel → ∃ mid,
      itfCheckPointcut (R.interfaces loaded) fuel rtype ⟨false, itf⟩ = some mid ∧
        (LookupsAgree (PointcutCandidate (R.interfaces loaded).parents ⟨false, itf⟩ rtype) mid
            (itfNameDefinesPointcut (R.interfaces loaded) rtype itf.name list) ↔
          (OneDeclaration (PointcutCandidate (R.interfaces loaded).loadedParents ⟨false, itf⟩ rtype) ↔
              OneDeclaration (PointcutCandidate (R.interfaces loaded).parents ⟨false, itf⟩ rtype)) ∧
            ((∃ d, PointcutNearby (R.interfaces loaded) itf rtype d) ↔
              OneDeclaration (PointcutCandidate (R.interfaces loaded).parents ⟨false, itf⟩ rtype))) := by
  have hnode : R.Tree ⟨false, itf⟩ := ⟨rfl, hitf⟩
  obtain ⟨bound, hbound⟩ := terminates_of_grounded (isSome_checkPointcut (w := R.interfaces loaded))
    ((grounded_iff mem_nodes_of_mem_parents).2 hacyclic)
  refine ⟨bound, fun fuel hfuel => ?_⟩
  obtain ⟨mid, hmid, hfound, hrtype⟩ :=
    itfCheckPointcut_spec hplain hnode (hbound fuel hfuel ⟨rtype, Table.empty, []⟩)
  obtain ⟨hback, hbackRtype⟩ := itfNameDefinesPointcut_spec hplain hnode.name_ne
    ((Registry.registered_eq itf.name).trans hitf) list
  refine ⟨mid, hmid, fun h => ?_, fun h => ?_⟩
  · exact ⟨hfound.symm.trans h.midFound, hback.symm.trans h.backFound⟩
  · obtain ⟨hloaded, hnearby⟩ := h
    refine ⟨hfound.trans hloaded, hback.trans hnearby, fun hone => ?_⟩
    obtain ⟨d, hd, hd'⟩ := hrtype (hfound.2 (hloaded.2 hone))
    obtain ⟨e, he, he'⟩ := hbackRtype (hback.2 (hnearby.2 hone))
    -- both are candidates, and there is one full name
    have hdA := PointcutCandidate.of_loaded hd
    have heA := PointcutCandidate.of_nearby hnode he
    obtain ⟨c, -, hall⟩ := hone
    obtain rfl := PointcutCandidate.unique hnode hdA heA ((hall e heA).trans (hall d hdA).symm)
    exact ⟨d, hdA, hd', he'⟩

/-! ## A grandparent, and an overload -/

/-- A declaration of a pointcut `open` of an interface. -/
def openDecl (scope : Word) (params : List Ident) : ItfDecl :=
  ⟨⟨rtxNodeIdentifier ⟨"open", .refl true⟩ scope, params⟩, some .provided⟩

/-- An interface with such declarations. -/
def openItf (name : Word) (decls : List ItfDecl) (parents : List Word) : Itf :=
  let table := decls.foldl (fun t d => t.set d.rtype.rtxRTypeFullQualifiedName d) Table.empty
  ⟨name, [], Table.empty.set "open" table, Table.empty, parents⟩

/-- `Base` declares `open()`. `Disk` inherits from `Char`, which inherits from `Base`. `Net` declares `open`
for a `buf` of its own and for one of `Base`. -/
def openRegistry : Registry where
  cache :=
    let base : Word := ⟨"Base", .refl true⟩
    let net : Word := ⟨"Net", .refl true⟩
    let buf : Word := ⟨"buf", .refl true⟩
    (((Table.empty.set "Base" (openItf base [openDecl base []] [])).set "Char"
      (openItf ⟨"Char", .refl true⟩ [] [base])).set "Disk"
      (openItf ⟨"Disk", .refl true⟩ [] [⟨"Char", .refl true⟩])).set "Net"
      (openItf net [openDecl net [rtxNodeIdentifier buf net], openDecl net [rtxNodeIdentifier buf base]] [])
  named := by decide
  checked := by decide

/-- The interfaces with all trees loaded. -/
def openInterfaces : Interfaces := openRegistry.interfaces fun _ _ => true

def diskNode : ItfNode := ⟨false, openItf ⟨"Disk", .refl true⟩ [] [⟨"Char", .refl true⟩]⟩

def netNode : ItfNode :=
  ⟨false, openItf ⟨"Net", .refl true⟩
    [openDecl ⟨"Net", .refl true⟩ [rtxNodeIdentifier ⟨"buf", .refl true⟩ ⟨"Net", .refl true⟩],
    openDecl ⟨"Net", .refl true⟩ [rtxNodeIdentifier ⟨"buf", .refl true⟩ ⟨"Base", .refl true⟩]] []⟩

/-- The pointcut `open` without a scope. -/
def plainOpen (params : List Ident) : RType := ⟨rtxNodeIdentifier ⟨"open", .refl true⟩, params⟩

theorem disk_not_cyclic : ¬ LeadsToCycle openInterfaces.parents diskNode := by
  have hdisk : openInterfaces.parents diskNode = [⟨false, openItf ⟨"Char", rfl⟩ [] [⟨"Base", rfl⟩]⟩] := by
    decide
  have hchar : openInterfaces.parents ⟨false, openItf ⟨"Char", rfl⟩ [] [⟨"Base", rfl⟩]⟩ =
      [⟨false, openItf ⟨"Base", rfl⟩ [openDecl ⟨"Base", rfl⟩ []] []⟩] := by
    decide
  have hbase : openInterfaces.parents ⟨false, openItf ⟨"Base", rfl⟩ [openDecl ⟨"Base", rfl⟩ []] []⟩ = [] := by
    decide
  refine (grounded_iff mem_nodes_of_mem_parents).1 ?_
  refine ⟨_, fun m hm => ⟨_, fun m' hm' => ⟨_, fun m'' hm'' => ?_⟩⟩⟩
  rw [Calls, hdisk, List.mem_singleton] at hm
  rw [Calls, hm, hchar, List.mem_singleton] at hm'
  rw [Calls, hm', hbase] at hm''
  cases hm''

theorem pointcutLookups_disk : ∃ bound, ∀ fuel, bound ≤ fuel → ∃ mid,
    itfCheckPointcut openInterfaces fuel (plainOpen []) diskNode = some mid ∧
      (LookupsAgree (PointcutCandidate openInterfaces.parents diskNode (plainOpen [])) mid
          (itfNameDefinesPointcut openInterfaces (plainOpen []) diskNode.itf.name []) ↔
        (OneDeclaration (PointcutCandidate openInterfaces.loadedParents diskNode (plainOpen [])) ↔
            OneDeclaration (PointcutCandidate openInterfaces.parents diskNode (plainOpen []))) ∧
          ((∃ d, PointcutNearby openInterfaces diskNode.itf (plainOpen []) d) ↔
            OneDeclaration (PointcutCandidate openInterfaces.parents diskNode (plainOpen [])))) :=
  pointcutLookups_agree_iff openRegistry (fun _ _ => true) diskNode.itf (by decide) (plainOpen []) rfl
    disk_not_cyclic []

/-- The middle end finds `open()` of the grandparent of `Disk`, and the back end does not; of the two
declarations of `Net` that match `open(buf)` the back end takes the first, and the middle end none. -/
theorem lookups_disagree :
    itfCheckPointcut openInterfaces 3 (plainOpen []) diskNode =
        some (true, (openDecl ⟨"Base", rfl⟩ []).rtype) ∧
      itfNameDefinesPointcut openInterfaces (plainOpen []) diskNode.itf.name [] = (false, plainOpen []) ∧
      itfCheckPointcut openInterfaces 1 (plainOpen [rtxNodeIdentifier ⟨"buf", rfl⟩]) netNode =
        some (false, plainOpen [rtxNodeIdentifier ⟨"buf", rfl⟩]) ∧
      itfNameDefinesPointcut openInterfaces (plainOpen [rtxNodeIdentifier ⟨"buf", rfl⟩]) netNode.itf.name
        [] = (true, (openDecl ⟨"Net", rfl⟩ [rtxNodeIdentifier ⟨"buf", rfl⟩ ⟨"Net", rfl⟩]).rtype) := by
  decide

end Rathaxes.Mid
