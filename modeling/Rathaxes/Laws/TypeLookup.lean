import Rathaxes.Laws.SequenceLookup

/-!
# Looking a type up in an inheritance graph

Without a scope `rtxInterfaceHasType` collects the names of all interfaces that declare the type, over every path of
inheritance, and asks that one name is left. With a scope it walks to the interface of that name and stops there.
On a graph whose parents are all loaded the two describe the same thing, the interfaces that can be reached
(`interfaceHasType_iff`): what the first finds is what the second finds again.
-/

set_option autoImplicit false

namespace Rathaxes.Mid

open CodeWorker Interfaces

variable {w : Interfaces} {node m : ItfNode} {rtype : RType}

/-! ## Graphs -/

/-- The interface itself or an ancestor. -/
def Ancestor (w : Interfaces) (node m : ItfNode) : Prop := Relation.ReflTransGen (Calls w.parents) node m

/-- The inheritance graph above an interface is fully loaded: each interface of it holds the trees of all parents it
names, and a name stands for one interface. -/
structure FullyLoaded (w : Interfaces) (node : ItfNode) : Prop where
  parent : ∀ m, Ancestor w node m → ∀ name ∈ m.itf.inheritance,
    ∃ p, w.loadedParent m name = some p ∧ p.itf.name = name
  unique : ∀ m m', Ancestor w node m → Ancestor w node m' → m.itf.name = m'.itf.name → m.itf = m'.itf

namespace FullyLoaded

theorem ancestor (h : FullyLoaded w node) (hm : Ancestor w node m) : FullyLoaded w m where
  parent n hn := h.parent n (hm.trans hn)
  unique n n' hn hn' := h.unique n n' (hm.trans hn) (hm.trans hn')

/-- Every parent is in the node. -/
theorem mem_loadedParents (h : FullyLoaded w node) {p : ItfNode} (hp : p ∈ w.parents node) :
    p ∈ w.loadedParents node := by
  obtain ⟨name, hname, hparent⟩ := List.mem_filterMap.1 hp
  obtain ⟨q, hq, -⟩ := h.parent node .refl name hname
  have hsame : w.parent node name = some q := by
    unfold loadedParent at hq
    split at hq
    · exact hq
    · cases hq
  rw [hparent] at hsame
  exact List.mem_filterMap.2 ⟨name, hname, hsame ▸ hq⟩

end FullyLoaded

/-- An interface of this name, the current one or an ancestor, declares the type. -/
def Declares (w : Interfaces) (node : ItfNode) (scope name : Word) : Prop :=
  ∃ m, Ancestor w node m ∧ m.itf.name = scope ∧ name ∈ m.itf.types

/-- Where a name stands for one interface, that one decides. -/
theorem declares_iff_mem (h : FullyLoaded w node) (hm : Ancestor w node m) (name : Word) :
    Declares w node m.itf.name name ↔ name ∈ m.itf.types := by
  constructor
  · rintro ⟨m', hm', hname, htypes⟩
    rwa [← h.unique m' m hm' hm hname]
  · intro htypes
    exact ⟨m, hm, rfl, htypes⟩

/-- An ancestor other than the interface itself is one of a parent. -/
theorem declares_parents {scope name : Word} (hne : scope ≠ node.itf.name) :
    Declares w node scope name ↔ ∃ p ∈ w.parents node, Declares w p scope name := by
  constructor
  · rintro ⟨m, hm, hname, htypes⟩
    rcases Relation.ReflTransGen.cases_head hm with rfl | ⟨p, hp, hpm⟩
    · exact absurd hname.symm hne
    · exact ⟨p, hp, m, hpm, hname, htypes⟩
  · rintro ⟨p, hp, m, hm, hname, htypes⟩
    exact ⟨m, Relation.ReflTransGen.head hp hm, hname, htypes⟩

/-! ## With a scope -/

/-- **The walk to a scope** adds nothing, and finds out whether the interface of that name declares the type. -/
theorem hasType_scoped (hplain : isPlain rtype.name = false) (hglobal : rtype.name.global = false) :
    ∀ {fuel : Nat} {node : ItfNode} {s : List Word} {r : Bool × List Word}, FullyLoaded w node →
      hasType w rtype fuel node s = some r →
        r.2 = s ∧ (r.1 = true ↔ Declares w node rtype.name.scope rtype.name.name) := by
  intro fuel
  induction fuel with
  | zero =>
    intro node s r _ h
    cases h
  | succ fuel ih =>
    intro node s r hloaded h
    unfold hasType at h
    simp only [hplain, hglobal, Bool.false_eq_true, if_false, if_true] at h
    by_cases hself : rtype.name.scope = node.itf.name
    · rw [if_neg (not_not_intro hself)] at h
      cases h
      refine ⟨rfl, ?_⟩
      rw [decide_eq_true_iff, hself, declares_iff_mem hloaded .refl]
    · rw [if_pos hself] at h
      by_cases hdirect : rtype.name.scope ∈ node.itf.inheritance
      · rw [if_neg (not_not_intro hdirect)] at h
        obtain ⟨p, hp, hname⟩ := hloaded.parent node .refl _ hdirect
        rw [hp] at h
        cases h
        have hmem : p ∈ w.parents node :=
          mem_parents_of_loaded (List.mem_filterMap.2 ⟨_, hdirect, hp⟩)
        refine ⟨rfl, ?_⟩
        rw [decide_eq_true_iff, ← declares_iff_mem hloaded (.single hmem), hname]
      · rw [if_pos hdirect] at h
        obtain ⟨hstate, hverdict⟩ := untilTrue_verdict
          (V := fun p => Declares w p rtype.name.scope rtype.name.name)
          (fun p hp r hr => ih (hloaded.ancestor (.single (mem_parents_of_loaded hp))) hr) h
        refine ⟨hstate, hverdict.trans ?_⟩
        rw [declares_parents hself]
        constructor
        · rintro ⟨p, hp, hdeclares⟩
          exact ⟨p, mem_parents_of_loaded hp, hdeclares⟩
        · rintro ⟨p, hp, hdeclares⟩
          exact ⟨p, hloaded.mem_loadedParents hp, hdeclares⟩

/-! ## Without a scope -/

/-- A turn adds the name of the interface if it declares the type, and goes on to all parents. -/
theorem hasType_turn (hplain : isPlain rtype.name = true) {fuel : Nat} {n : ItfNode} {s : List Word}
    {r : Bool × List Word} (h : hasType w rtype (fuel + 1) n s = some r) :
    ∃ s₁, True ∧ (∀ name, name ∈ s₁ ↔ name ∈ s ∨ n.itf.name = name ∧ rtype.name.name ∈ n.itf.types) ∧
      callAll (fun s m => hasType w rtype fuel m s) s₁ (w.parents n) = some r := by
  unfold hasType at h
  simp only [hplain, if_true] at h
  refine ⟨_, trivial, fun name => ?_, h⟩
  by_cases htypes : rtype.name.name ∈ n.itf.types
  · simp [htypes, eq_comm]
  · simp [htypes]

/-- **The search without a scope** collects the names of all interfaces that declare the type. -/
theorem hasType_plain (hplain : isPlain rtype.name = true) {fuel : Nat} {r : Bool × List Word}
    (h : hasType w rtype fuel node [] = some r) :
    r.1 = false ∧ ∀ name, name ∈ r.2 ↔ Declares w node name rtype.name.name := by
  have hcollects : r.1 = false ∧ True ∧ ∀ name, name ∈ r.2 ↔ name ∈ ([] : List Word) ∨
      ∃ m, Relation.ReflTransGen (Calls w.parents) node m ∧
        m.itf.name = name ∧ rtype.name.name ∈ m.itf.types :=
    collects_of_turn (f := fun fuel node s => hasType w rtype fuel node s) (P := fun _ => True)
      (H := fun (s : List Word) name => name ∈ s) (Q := fun _ => True) (fun _ _ _ _ => trivial)
      (fun _ _ => rfl) (fun _ _ _ _ _ _ h => hasType_turn hplain h) trivial trivial h
  refine ⟨hcollects.1, fun name => ?_⟩
  rw [hcollects.2.2]
  exact ⟨fun h => h.resolve_left List.not_mem_nil, .inr⟩

/-! ## The lookup -/

/-- One bound for the lookups of all types. -/
theorem exists_bound_hasType (hacyclic : ¬ LeadsToCycle w.parents node) :
    ∃ bound, ∀ fuel ≥ bound, ∀ rtype s, (hasType w rtype fuel node s).isSome := by
  let run (fuel : Nat) (n : ItfNode) (q : RType × List Word) := hasType w q.1 fuel n q.2
  have hturn : ∀ fuel n, (∀ m ∈ w.parents n, ∀ q, (run fuel m q).isSome) → ∀ q, (run (fuel + 1) n q).isSome :=
    fun fuel n h q => isSome_hasType q.1 fuel n (fun m hm s => h m hm (q.1, s)) q.2
  obtain ⟨bound, hbound⟩ := terminates_of_grounded hturn ((grounded_iff mem_nodes_of_mem_parents).2 hacyclic)
  exact ⟨bound, fun fuel hfuel rtype s => hbound fuel hfuel (rtype, s)⟩

theorem interfaceHasType_scoped (hloaded : FullyLoaded w node) (hglobal : rtype.name.global = false)
    (hscope : rtype.name.scope ≠ Word.blank) {fuel : Nat} {r : Bool × RType}
    (h : interfaceHasType w fuel rtype node = some r) :
    r.2 = rtype ∧ (r.1 = true ↔ Declares w node rtype.name.scope rtype.name.name) := by
  obtain ⟨⟨found, names⟩, hfound, rfl⟩ := Option.map_eq_some_iff.1 h
  obtain ⟨rfl, hverdict⟩ :=
    hasType_scoped (isPlain_eq_false_iff.2 fun _ => hscope) hglobal hloaded hfound
  cases found with
  | true => exact ⟨rfl, iff_of_true rfl (hverdict.1 rfl)⟩
  | false => exact ⟨rfl, iff_of_false Bool.false_ne_true fun hd => Bool.false_ne_true (hverdict.2 hd)⟩

/-- Without a scope one name has to be left, which becomes the scope. -/
theorem interfaceHasType_plain (hplain : isPlain rtype.name = true) {fuel : Nat} {r : Bool × RType}
    (h : interfaceHasType w fuel rtype node = some r) :
    (r.1 = true ↔ ∃! scope, Declares w node scope rtype.name.name) ∧
      (r.1 = true → ∃ scope, Declares w node scope rtype.name.name ∧ r.2 = withScope rtype scope) := by
  obtain ⟨⟨found, names⟩, hfound, rfl⟩ := Option.map_eq_some_iff.1 h
  obtain ⟨rfl, hnames⟩ := hasType_plain hplain hfound
  have hone : (Table.uniques Word.text names).only?.isSome ↔
      ∃! scope, Declares w node scope rtype.name.name := by
    rw [Table.isSome_only?_uniques_iff]
    simp only [hnames, Word.text_injective.eq_iff]
    rfl
  rw [← hone]
  simp only [Bool.false_eq_true, if_false]
  cases honly : (Table.uniques Word.text names).only? with
  | none => exact ⟨Iff.rfl, fun hfalse => nomatch hfalse⟩
  | some scope =>
    have hmem : scope ∈ names := List.mem_of_mem_head? (Table.only?_uniques_iff.1 honly).1
    exact ⟨iff_of_true rfl rfl, fun _ => ⟨scope, (hnames scope).1 hmem, rfl⟩⟩

/-- The interface itself or an ancestor, which declares the type. -/
def DeclaredBy (w : Interfaces) (node : ItfNode) (name : Word) (itf : Itf) : Prop :=
  (∃ m, Ancestor w node m ∧ m.itf = itf) ∧ name ∈ itf.types

theorem declares_iff_declaredBy {scope name : Word} :
    Declares w node scope name ↔ ∃ itf, DeclaredBy w node name itf ∧ itf.name = scope := by
  constructor
  · rintro ⟨m, hm, hname, htypes⟩
    exact ⟨m.itf, ⟨⟨m, hm, rfl⟩, htypes⟩, hname⟩
  · rintro ⟨-, ⟨⟨m, hm, rfl⟩, htypes⟩, hname⟩
    exact ⟨m, hm, hname, htypes⟩

/-- One name is one interface. -/
theorem existsUnique_declares_iff (hloaded : FullyLoaded w node) {name : Word} :
    (∃! scope, Declares w node scope name) ↔ ∃! itf, DeclaredBy w node name itf := by
  constructor
  · rintro ⟨scope, hscope, hunique⟩
    obtain ⟨itf, hitf, rfl⟩ := declares_iff_declaredBy.1 hscope
    refine ⟨itf, hitf, fun itf' hitf' => ?_⟩
    have hname := hunique itf'.name (declares_iff_declaredBy.2 ⟨itf', hitf', rfl⟩)
    obtain ⟨⟨m, hm, rfl⟩, -⟩ := hitf
    obtain ⟨⟨m', hm', rfl⟩, -⟩ := hitf'
    exact hloaded.unique m' m hm' hm hname
  · rintro ⟨itf, hitf, hunique⟩
    refine ⟨itf.name, declares_iff_declaredBy.2 ⟨itf, hitf, rfl⟩, fun scope hscope => ?_⟩
    obtain ⟨itf', hitf', rfl⟩ := declares_iff_declaredBy.1 hscope
    rw [hunique itf' hitf']

/-- **What was found is found again**, as it is. -/
theorem interfaceHasType_again (hloaded : FullyLoaded w node) (hglobal : rtype.name.global = false) {fuel : Nat}
    (hends : ∀ rt, (interfaceHasType w fuel rt node).isSome) {r : Bool × RType}
    (h : interfaceHasType w fuel rtype node = some r) (htrue : r.1 = true) :
    interfaceHasType w fuel r.2 node = some (true, r.2) := by
  have hkept : r.2 = rtype → interfaceHasType w fuel r.2 node = some (true, r.2) := by
    intro hsame
    rw [hsame, h, ← htrue, ← hsame]
  by_cases hscope : rtype.name.scope = Word.blank
  · obtain ⟨scope, hdeclares, hset⟩ :=
      (interfaceHasType_plain (decide_eq_true ⟨hglobal, hscope⟩) h).2 htrue
    by_cases hblank : scope = Word.blank
    · -- an interface without a name leaves the type as it was
      refine hkept ?_
      rw [hset, hblank, ← hscope]
      rfl
    · obtain ⟨r', hr'⟩ := Option.isSome_iff_exists.1 (hends r.2)
      rw [hset] at hr' ⊢
      have hglobal' : (withScope rtype scope).name.global = false := hglobal
      obtain ⟨hsame, hfound⟩ := interfaceHasType_scoped hloaded hglobal' hblank hr'
      rw [hr']
      exact congrArg some (Prod.ext (hfound.2 hdeclares) hsame)
  · exact hkept (interfaceHasType_scoped hloaded hglobal hscope h).1

/-- **Looking a type up.** Above an interface whose inheritance graph has no cycle and is fully loaded, a type without
a scope is found when one interface declares it, which becomes its scope; a type with a scope is found when the
interface of that name is there and declares it. What was found is found again as it is. -/
theorem interfaceHasType_iff (w : Interfaces) (node : ItfNode) (hacyclic : ¬ LeadsToCycle w.parents node)
    (hloaded : FullyLoaded w node) :
    ∃ bound, ∀ fuel ≥ bound, ∀ rtype : RType, rtype.name.global = false →
      ∃ r, interfaceHasType w fuel rtype node = some r ∧
        (rtype.name.scope = Word.blank →
          (r.1 = true ↔ ∃! itf, DeclaredBy w node rtype.name.name itf) ∧
          (r.1 = true → ∃ itf, DeclaredBy w node rtype.name.name itf ∧ r.2 = withScope rtype itf.name)) ∧
        (rtype.name.scope ≠ Word.blank →
          (r.1 = true ↔ ∃ itf, DeclaredBy w node rtype.name.name itf ∧ itf.name = rtype.name.scope) ∧
          r.2 = rtype) ∧
        (r.1 = true → interfaceHasType w fuel r.2 node = some (true, r.2)) := by
  obtain ⟨bound, hbound⟩ := exists_bound_hasType hacyclic
  refine ⟨bound, fun fuel hfuel rtype hglobal => ?_⟩
  have hends : ∀ rt, (interfaceHasType w fuel rt node).isSome := fun rt =>
    Option.isSome_map.trans (hbound fuel hfuel rt [])
  obtain ⟨r, hr⟩ := Option.isSome_iff_exists.1 (hends rtype)
  refine ⟨r, hr, fun hscope => ?_, fun hscope => ?_, interfaceHasType_again hloaded hglobal hends hr⟩
  · obtain ⟨hfound, hset⟩ := interfaceHasType_plain (decide_eq_true ⟨hglobal, hscope⟩) hr
    refine ⟨hfound.trans (existsUnique_declares_iff hloaded), fun htrue => ?_⟩
    obtain ⟨scope, hdeclares, hr2⟩ := hset htrue
    obtain ⟨itf, hitf, rfl⟩ := declares_iff_declaredBy.1 hdeclares
    exact ⟨itf, hitf, hr2⟩
  · obtain ⟨hsame, hfound⟩ := interfaceHasType_scoped hloaded hglobal hscope hr
    exact ⟨hfound.trans declares_iff_declaredBy, hsame⟩

/-! ## Above both sides of a diamond -/

/-- An interface that inherits from both sides of the diamond. -/
def diamondTop : ItfNode :=
  ⟨false, ⟨⟨"Top", .refl true⟩, [⟨"top", .refl true⟩], Table.empty, Table.empty,
    [⟨"Left", .refl true⟩, ⟨"Right", .refl true⟩]⟩⟩

theorem fullyLoaded_diamondTop : FullyLoaded diamond diamondTop where
  parent m hm name hname := by
    have hall : ∀ m ∈ diamondTop :: nodes diamond, ∀ name ∈ m.itf.inheritance,
        ((diamond.loadedParent m name).map fun p => p.itf.name) = some name := by decide
    exact Option.map_eq_some_iff.1 (hall m (mem_nodes_of_reach hm) name hname)
  unique m m' hm hm' := by
    have hall : ∀ m ∈ diamondTop :: nodes diamond, ∀ m' ∈ diamondTop :: nodes diamond,
        m.itf.name = m'.itf.name → m.itf = m'.itf := by decide
    exact hall m (mem_nodes_of_reach hm) m' (mem_nodes_of_reach hm')

theorem diamondTop_not_cyclic : ¬ LeadsToCycle diamond.parents diamondTop := by
  have hends : ∀ n ∈ diamond.parents diamondTop, ∀ m ∈ diamond.parents n, diamond.parents m = [] := by decide
  refine (grounded_iff mem_nodes_of_mem_parents).1 ?_
  refine ⟨_, fun n hn => ⟨_, fun m hm => ⟨_, fun p hp => ?_⟩⟩⟩
  rw [Calls, hends n hn m hm] at hp
  cases hp

theorem interfaceHasType_iff_diamondTop : ∃ bound, ∀ fuel ≥ bound, ∀ rtype : RType, rtype.name.global = false →
    ∃ r, interfaceHasType diamond fuel rtype diamondTop = some r ∧
      (rtype.name.scope = Word.blank →
        (r.1 = true ↔ ∃! itf, DeclaredBy diamond diamondTop rtype.name.name itf) ∧
        (r.1 = true → ∃ itf, DeclaredBy diamond diamondTop rtype.name.name itf ∧
          r.2 = withScope rtype itf.name)) ∧
      (rtype.name.scope ≠ Word.blank →
        (r.1 = true ↔ ∃ itf, DeclaredBy diamond diamondTop rtype.name.name itf ∧ itf.name = rtype.name.scope) ∧
        r.2 = rtype) ∧
      (r.1 = true → interfaceHasType diamond fuel r.2 diamondTop = some (true, r.2)) :=
  interfaceHasType_iff diamond diamondTop diamondTop_not_cyclic fullyLoaded_diamondTop

/-- `dev` of the base is found over both sides, and is one. -/
example : interfaceHasType diamond 3 ⟨rtxNodeIdentifier ⟨"dev", rfl⟩, []⟩ diamondTop =
    some (true, ⟨rtxNodeIdentifier ⟨"dev", rfl⟩ ⟨"Base", rfl⟩, []⟩) := by
  decide

end Rathaxes.Mid
