import Rathaxes.Laws.SoundLookup
import Rathaxes.Laws.TypeLookup

/-!
# Looking a pointcut up by its scope

With a scope `rtxTypeCheck_ItfCheckPointcut` walks to the interface of that name, as the lookup of a type does. But an
interface that inherits from nothing is asked whatever the scope is, and a qualified pointcut takes its name as the
scope. What is found is in the scope that was asked for, and keeps it, as long as the walk does not come to such an
interface that has something to say to the pointcut (`Strays`); where it goes straight to one that has the pointcut with
the same parameters (`Misled`), the pointcut is found there, with another scope (`itfCheckPointcut_scoped`).

Between the two is a walk that comes to an interface with the name and other parameters. It goes on with the name of that
interface for a scope.
-/

set_option autoImplicit false

namespace Rathaxes.Mid

open CodeWorker Interfaces

/-! ## Filed interfaces -/

/-- All interfaces are sound, and those of the cache are filed under their names. -/
structure Interfaces.Filed (w : Interfaces) : Prop where
  file : ∀ itf ∈ w.file, itf.Sound
  cache : ∀ e ∈ w.cache.entries, e.2.Sound ∧ e.2.name.text = e.1

/-- The interface itself or an ancestor whose tree is loaded. -/
def LoadedAncestor (w : Interfaces) (node m : ItfNode) : Prop :=
  Relation.ReflTransGen (Calls w.loadedParents) node m

variable {w : Interfaces} {node m : ItfNode} {rtype : RType}

namespace Interfaces.Filed

theorem ancestor (hw : w.Filed) (hnode : node.itf.Sound) (h : Ancestor w node m) : m.itf.Sound := by
  rcases List.mem_cons.1 (mem_nodes_of_reach h) with rfl | hm
  · exact hnode
  · exact itf_of_mem_nodes hw.file (fun e he => (hw.cache e he).1) hm

/-- A parent has the name it is looked for under. -/
theorem name_of_loadedParent (hw : w.Filed) {name : Word} (h : w.loadedParent node name = some m) :
    m.itf.name = name := by
  unfold loadedParent parent at h
  split at h
  · split at h
    · rename_i itf hfile
      cases h
      split at hfile
      · have hfound := List.find?_some hfile
        exact of_decide_eq_true hfound
      · cases hfile
    · obtain ⟨itf, hcache, rfl⟩ := Option.map_eq_some_iff.1 h
      exact Word.text_injective (hw.cache _ ((w.cache.mem_entries_iff _ _).2 hcache)).2
  · cases h

end Interfaces.Filed

/-! ## What is found in the scope -/

/-- The interface of the scope, the interface itself or an ancestor, declares the pointcut with matching parameters. -/
def ScopeDeclares (w : Interfaces) (node : ItfNode) (rtype : RType) (d : ItfDecl) : Prop :=
  ∃ m, Ancestor w node m ∧ m.itf.name = rtype.name.scope ∧ ∃ key, (key, d) ∈ matching m.itf.pointcuts rtype

/-- The scope of what is declared is the one that was asked for. -/
theorem ScopeDeclares.scope {d : ItfDecl} (h : ScopeDeclares w node rtype d)
    (hfiled : ∀ {m}, Ancestor w node m → m.itf.Sound) : d.rtype.name.scope = rtype.name.scope := by
  obtain ⟨m, hm, hname, key, hmem⟩ := h
  obtain ⟨decls, hdecls, hd, -⟩ := mem_matching_iff.1 hmem
  have hchecked := (hfiled hm).checked
  rw [← hname]
  exact (hchecked.pointcuts.get? hdecls hd).scope (hchecked.notGlobal_get? hdecls hd)

/-- A search that has asked only the interface of the scope. -/
structure ScopedSearch (w : Interfaces) (node : ItfNode) (rtype : RType) (s : PointcutSearch) : Prop where
  rtype_eq : s.rtype = rtype
  pushed : s.pushed = []
  declared : ∀ key d, s.possibilities.get? key = some d → ScopeDeclares w node rtype d

/-- The interface of the scope leaves the scope as it is. -/
theorem ScopedSearch.asked {s : PointcutSearch} (hs : ScopedSearch w node rtype s)
    (hfiled : ∀ {m}, Ancestor w node m → m.itf.Sound) (hm : Ancestor w node m)
    (hname : m.itf.name = rtype.name.scope) {r : Bool × PointcutSearch} (h : s.Asked m.itf r) :
    ScopedSearch w node rtype r.2 ∧ (r.1 = true → ∃ d, ScopeDeclares w node rtype d) := by
  obtain ⟨rt, possibilities, pushed⟩ := s
  obtain rfl : rt = rtype := hs.rtype_eq
  have hkeep : withScope rt m.itf.name = rt := by
    rw [hname]
    rfl
  have hmatch : ∀ {key d}, (key, d) ∈ matching m.itf.pointcuts rt → ScopeDeclares w node rt d :=
    fun h => ⟨m, hm, hname, _, h⟩
  cases h with
  | absent _ => exact ⟨hs, fun htrue => nomatch htrue⟩
  | @found decls decl hdecls hqualified hkey =>
    have hexact : exactMatch m.itf.name m.itf.pointcuts rt = some decl := by
      unfold exactMatch
      rw [hdecls]
      exact hkey
    have hdeclares := hmatch
      ((exactMatch_eq_some_iff (hfiled hm).checked.pointcuts hqualified).1 ⟨rfl, hexact⟩).1
    refine ⟨⟨hkeep, hs.pushed, fun key d hget => ?_⟩, fun _ => ⟨decl, hdeclares⟩⟩
    rw [Table.get?_set] at hget
    split at hget
    · cases hget
      exact hdeclares
    · exact hs.declared key d hget
  | missed _ => exact ⟨⟨hkeep, hs.pushed, hs.declared⟩, fun htrue => nomatch htrue⟩
  | collected _ =>
    refine ⟨⟨rfl, hs.pushed, fun key d hget => ?_⟩, fun htrue => nomatch htrue⟩
    rcases Table.mem_of_get?_foldl_set hget with hmem | hold
    · exact hmatch hmem
    · exact hs.declared key d hold

/-! ## Interfaces that are asked -/

/-- The lookup ends here: all parameters have a scope, and the interface has the pointcut with these parameters. -/
def Itf.Ends (itf : Itf) (rtype : RType) : Prop :=
  isQualified rtype = true ∧ (exactMatch itf.name itf.pointcuts rtype).isSome = true

/-- The interface has the name, and where a parameter has no scope also a pointcut that matches. -/
def Itf.Answers (itf : Itf) (rtype : RType) : Prop :=
  itf.pointcuts.get? rtype.name.name.text ≠ none ∧
    (isQualified rtype = false → matching itf.pointcuts rtype ≠ [])

theorem PointcutSearch.defines_iff_ends {s : PointcutSearch} {itf : Itf} :
    (s.defines itf).1 = true ↔ itf.Ends s.rtype := by
  unfold Itf.Ends
  cases hqualified : isQualified s.rtype with
  | true => simp [(s.defines_of_qualified itf hqualified).1]
  | false => simp [s.defines_of_not_qualified itf hqualified]

/-- An interface that ends the lookup becomes the scope. -/
theorem PointcutSearch.scope_of_defines {s : PointcutSearch} {itf : Itf} (h : (s.defines itf).1 = true) :
    (s.defines itf).2.rtype.name.scope = itf.name := by
  have hasked := s.asked itf
  generalize s.defines itf = r at h hasked
  cases hasked with
  | absent _ => cases h
  | found _ _ _ => rfl
  | missed _ => cases h
  | collected _ => cases h

/-- An interface that does not answer changes nothing. -/
theorem PointcutSearch.defines_of_silent {s : PointcutSearch} {itf : Itf} (h : ¬ itf.Answers s.rtype) :
    s.defines itf = (false, s) := by
  by_cases hname : itf.pointcuts.get? s.rtype.name.name.text = none
  · unfold PointcutSearch.defines
    rw [hname]
  · have hnot : ¬ (isQualified s.rtype = false → matching itf.pointcuts s.rtype ≠ []) := fun hmatch => h ⟨hname, hmatch⟩
    obtain ⟨hqualified, hempty⟩ := Classical.not_imp.1 hnot
    rw [s.defines_of_not_qualified itf hqualified, PointcutSearch.byParameters, not_not.1 hempty]
    rfl

/-! ## The walk to a scope -/

/-- The walk from this interface comes to the one of the scope, and the lookup ends there. -/
inductive Meets (w : Interfaces) (rtype : RType) : ItfNode → Prop where
  | here {node : ItfNode} : node.itf.name = rtype.name.scope → node.itf.Ends rtype → Meets w rtype node
  | parent {node p : ItfNode} : node.itf.name ≠ rtype.name.scope → rtype.name.scope ∈ node.itf.inheritance →
      w.loadedParent node rtype.name.scope = some p → p.itf.Ends rtype → Meets w rtype node
  | above {node p : ItfNode} : node.itf.name ≠ rtype.name.scope → rtype.name.scope ∉ node.itf.inheritance →
      p ∈ w.loadedParents node → Meets w rtype p → Meets w rtype node

section Meets

variable {w : Interfaces} {rtype : RType} {node : ItfNode}

theorem meets_iff_of_self (hself : node.itf.name = rtype.name.scope) : Meets w rtype node ↔ node.itf.Ends rtype := by
  refine ⟨fun hmeets => ?_, .here hself⟩
  cases hmeets with
  | here _ hends => exact hends
  | parent hname _ _ _ => exact absurd hself hname
  | above hname _ _ _ => exact absurd hself hname

theorem meets_iff_of_parent (hname : node.itf.name ≠ rtype.name.scope) (hmem : rtype.name.scope ∈ node.itf.inheritance) :
    Meets w rtype node ↔ ∃ p, w.loadedParent node rtype.name.scope = some p ∧ p.itf.Ends rtype := by
  refine ⟨fun hmeets => ?_, fun ⟨p, hp, hends⟩ => .parent hname hmem hp hends⟩
  cases hmeets with
  | here hself _ => exact absurd hself hname
  | parent _ _ hp hends => exact ⟨_, hp, hends⟩
  | above _ hnot _ _ => exact absurd hmem hnot

theorem meets_iff_of_above (hname : node.itf.name ≠ rtype.name.scope) (hmem : rtype.name.scope ∉ node.itf.inheritance) :
    Meets w rtype node ↔ ∃ p ∈ w.loadedParents node, Meets w rtype p := by
  refine ⟨fun hmeets => ?_, fun ⟨p, hp, hmeets⟩ => .above hname hmem hp hmeets⟩
  cases hmeets with
  | here hself _ => exact absurd hself hname
  | parent _ hmem' _ _ => exact absurd hmem' hmem
  | above _ _ hp hmeets => exact ⟨_, hp, hmeets⟩

end Meets

/-- The walk from this interface comes to one that inherits from nothing and answers, although it is not the one of the
scope. Interfaces that have the scope or inherit from it are not passed, and the lookup has not ended before. -/
inductive Strays (w : Interfaces) (rtype : RType) : ItfNode → Prop where
  | root {node : ItfNode} : node.itf.name ≠ rtype.name.scope → node.itf.inheritance = [] → node.itf.Answers rtype →
      Strays w rtype node
  | above {node p : ItfNode} {before after : List ItfNode} : node.itf.name ≠ rtype.name.scope →
      rtype.name.scope ∉ node.itf.inheritance → w.loadedParents node = before ++ p :: after →
        (∀ q ∈ before, ¬ Meets w rtype q) → Strays w rtype p → Strays w rtype node

/-- The walk goes straight to an interface that inherits from nothing, is not the one of the scope, and has the pointcut
with these parameters. -/
inductive Misled (w : Interfaces) (rtype : RType) : ItfNode → Prop where
  | root {node : ItfNode} : node.itf.name ≠ rtype.name.scope → node.itf.inheritance = [] → node.itf.Ends rtype →
      Misled w rtype node
  | above {node p : ItfNode} {before after : List ItfNode} : node.itf.name ≠ rtype.name.scope →
      rtype.name.scope ∉ node.itf.inheritance → w.loadedParents node = before ++ p :: after →
        (∀ q ∈ before, ¬ Meets w rtype q ∧ ¬ Strays w rtype q) → Misled w rtype p → Misled w rtype node

/-- What a turn of the lookup can do with a scope: it asks the interface, or its parent of that name if it is loaded, or
goes over the parents. -/
inductive ScopedTurn (w : Interfaces) (fuel : Nat) (node : ItfNode) (s : PointcutSearch) (r : Bool × PointcutSearch) :
    Prop where
  | here (hasked : node.itf.name = s.rtype.name.scope ∨ node.itf.inheritance = []) (hr : r = s.defines node.itf)
  | parent (hname : node.itf.name ≠ s.rtype.name.scope) (hmem : s.rtype.name.scope ∈ node.itf.inheritance)
      (p : ItfNode) (hp : w.loadedParent node s.rtype.name.scope = some p) (hr : r = s.defines p.itf)
  | missing (hname : node.itf.name ≠ s.rtype.name.scope) (hmem : s.rtype.name.scope ∈ node.itf.inheritance)
      (hp : w.loadedParent node s.rtype.name.scope = none) (hr : r = (false, s))
  | above (hname : node.itf.name ≠ s.rtype.name.scope) (hmem : s.rtype.name.scope ∉ node.itf.inheritance)
      (hsome : node.itf.inheritance ≠ [])
      (hrun : untilTrue (fun s parent => checkPointcut w fuel parent s) s (w.loadedParents node) = some r)

theorem scopedTurn {fuel : Nat} {s : PointcutSearch} {r : Bool × PointcutSearch}
    (hglobal : s.rtype.name.global = false) (hscope : s.rtype.name.scope ≠ Word.blank)
    (h : checkPointcut w (fuel + 1) node s = some r) : ScopedTurn w fuel node s r := by
  have hplain : isPlain s.rtype.name = false := isPlain_eq_false_iff.2 fun _ => hscope
  unfold checkPointcut at h
  simp only [hplain, hglobal, Bool.false_eq_true, if_false, if_true] at h
  split at h
  · rename_i hup
    split at h
    · rename_i hmem
      exact .above (Ne.symm hup.1) hmem hup.2 h
    · rename_i hmem
      split at h
      · rename_i p hp
        cases h
        exact .parent (Ne.symm hup.1) (not_not.1 hmem) p hp rfl
      · rename_i hp
        cases h
        exact .missing (Ne.symm hup.1) (not_not.1 hmem) hp rfl
  · rename_i hhere
    cases h
    refine .here ?_ rfl
    by_contra hnot
    rw [not_or] at hnot
    exact hhere ⟨Ne.symm hnot.1, hnot.2⟩

section Walk

variable {origin : ItfNode}

/-- The interface of the scope leaves the scope as it is, and ends the lookup or not. -/
theorem ScopedSearch.ended {s : PointcutSearch} (hs : ScopedSearch w origin rtype s) (hw : w.Filed)
    (horigin : origin.itf.Sound) (hm : LoadedAncestor w origin m) (hname : m.itf.name = rtype.name.scope) :
    ScopedSearch w origin rtype (s.defines m.itf).2 ∧
      ((s.defines m.itf).1 = true → ∃ d, ScopeDeclares w origin rtype d) ∧
      ((s.defines m.itf).1 = true ↔ m.itf.Ends rtype) := by
  have hasked := hs.asked (hw.ancestor horigin) (reach_of_loaded hm) hname (s.asked m.itf)
  have hends : (s.defines m.itf).1 = true ↔ m.itf.Ends s.rtype := PointcutSearch.defines_iff_ends
  rw [hs.rtype_eq] at hends
  exact ⟨hasked.1, hasked.2, hends⟩

/-- **A walk that does not stray** asks only the interface of the scope, and returns true where it meets it. -/
theorem checkPointcut_course (hw : w.Filed) (horigin : origin.itf.Sound) (hglobal : rtype.name.global = false)
    (hscope : rtype.name.scope ≠ Word.blank) : ∀ {fuel : Nat} {node : ItfNode} {s : PointcutSearch}
    {r : Bool × PointcutSearch}, LoadedAncestor w origin node → ¬ Strays w rtype node → ScopedSearch w origin rtype s →
      checkPointcut w fuel node s = some r →
        ScopedSearch w origin rtype r.2 ∧ (r.1 = true → ∃ d, ScopeDeclares w origin rtype d) ∧
          (r.1 = true ↔ Meets w rtype node) := by
  intro fuel
  induction fuel with
  | zero =>
    intro node s r _ _ _ h
    cases h
  | succ fuel ih =>
    intro node s r hnode hstrays hs h
    have hturn := scopedTurn (by rwa [hs.rtype_eq]) (by rwa [hs.rtype_eq]) h
    cases hturn with
    | here hasked hr =>
      rw [hs.rtype_eq] at hasked
      subst hr
      by_cases hself : node.itf.name = rtype.name.scope
      · obtain ⟨hkept, hdeclared, hends⟩ := hs.ended hw horigin hnode hself
        exact ⟨hkept, hdeclared, hends.trans (meets_iff_of_self hself).symm⟩
      · have hroot := hasked.resolve_left hself
        have hsilent : ¬ node.itf.Answers s.rtype := by
          rw [hs.rtype_eq]
          exact fun hanswers => hstrays (.root hself hroot hanswers)
        have hnone : ¬ Meets w rtype node := by
          rw [meets_iff_of_above hself (by simp [hroot]), loadedParents, hroot]
          simp
        rw [PointcutSearch.defines_of_silent hsilent]
        exact ⟨hs, fun htrue => absurd htrue Bool.false_ne_true, iff_of_false Bool.false_ne_true hnone⟩
    | parent hname hmem p hp hr =>
      rw [hs.rtype_eq] at hname hmem hp
      subst hr
      have hparent : LoadedAncestor w origin p := hnode.tail (List.mem_filterMap.2 ⟨_, hmem, hp⟩)
      obtain ⟨hkept, hdeclared, hends⟩ := hs.ended hw horigin hparent (hw.name_of_loadedParent hp)
      refine ⟨hkept, hdeclared, hends.trans ?_⟩
      simp [meets_iff_of_parent hname hmem, hp]
    | missing hname hmem hp hr =>
      rw [hs.rtype_eq] at hname hmem hp
      subst hr
      have hnone : ¬ Meets w rtype node := by
        simp [meets_iff_of_parent hname hmem, hp]
      exact ⟨hs, fun htrue => absurd htrue Bool.false_ne_true, iff_of_false Bool.false_ne_true hnone⟩
    | above hname hmem hsome hrun =>
      rw [hs.rtype_eq] at hname hmem
      rw [meets_iff_of_above hname hmem]
      exact untilTrue_course (P := ScopedSearch w origin rtype)
        (T := fun _ => ∃ d, ScopeDeclares w origin rtype d) (M := Meets w rtype)
        (fun before p after hsplit hbefore s r hs h =>
          have hp : p ∈ w.loadedParents node := by simp [hsplit]
          ih (hnode.tail hp) (fun hstray => hstrays (.above hname hmem hsplit hbefore hstray)) hs h) hs hrun

/-- **A walk that is misled** returns true, with another scope. -/
theorem checkPointcut_misled (hw : w.Filed) (horigin : origin.itf.Sound) (hglobal : rtype.name.global = false)
    (hscope : rtype.name.scope ≠ Word.blank) (hmisled : Misled w rtype node) :
    LoadedAncestor w origin node → ∀ {fuel : Nat} {s : PointcutSearch} {r : Bool × PointcutSearch},
      ScopedSearch w origin rtype s → checkPointcut w fuel node s = some r →
        r.1 = true ∧ r.2.rtype.name.scope ≠ rtype.name.scope := by
  induction hmisled with
  | @root node hname hroot hends =>
    intro hnode fuel s r hs h
    cases fuel with
    | zero => cases h
    | succ fuel =>
      cases scopedTurn (by rwa [hs.rtype_eq]) (by rwa [hs.rtype_eq]) h with
      | here _ hr =>
        subst hr
        have htrue : (s.defines node.itf).1 = true := by
          rw [PointcutSearch.defines_iff_ends, hs.rtype_eq]
          exact hends
        refine ⟨htrue, ?_⟩
        rw [PointcutSearch.scope_of_defines htrue]
        exact hname
      | parent _ hmem _ _ _ =>
        rw [hroot] at hmem
        cases hmem
      | missing _ hmem _ _ =>
        rw [hroot] at hmem
        cases hmem
      | above _ _ hsome _ => exact absurd hroot hsome
  | @above node p before after hname hmem hsplit hbefore hmisled ih =>
    intro hnode fuel s r hs h
    have hloaded : ∀ q ∈ before ++ p :: after, LoadedAncestor w origin q :=
      fun q hq => hnode.tail (by rwa [Calls, hsplit])
    cases fuel with
    | zero => cases h
    | succ fuel =>
      cases scopedTurn (by rwa [hs.rtype_eq]) (by rwa [hs.rtype_eq]) h with
      | here hasked _ =>
        rw [hs.rtype_eq] at hasked
        have hroot := hasked.resolve_left hname
        rw [loadedParents, hroot] at hsplit
        cases before <;> cases hsplit
      | parent _ hmem' _ _ _ =>
        rw [hs.rtype_eq] at hmem'
        exact absurd hmem' hmem
      | missing _ hmem' _ _ =>
        rw [hs.rtype_eq] at hmem'
        exact absurd hmem' hmem
      | above _ _ _ hrun =>
        rw [hsplit] at hrun
        refine untilTrue_first (P := ScopedSearch w origin rtype)
          (T := fun s => s.rtype.name.scope ≠ rtype.name.scope)
          (fun s r hs h => ih (hloaded p (by simp)) hs h) (fun q hq s r hs h => ?_) hs hrun
        obtain ⟨hkept, -, hmeets⟩ := checkPointcut_course hw horigin hglobal hscope
          (hloaded q (List.mem_append_left _ hq)) (hbefore q hq).2 hs h
        exact ⟨by rw [← Bool.not_eq_true, hmeets]; exact (hbefore q hq).1, hkept⟩

end Walk

/-! ## The lookup -/

/-- What is found for this rtype is declared by the interface of the scope, and keeps the scope. -/
def KeepsScope (w : Interfaces) (node : ItfNode) (rtype : RType) : Prop :=
  ∀ fuel found, itfCheckPointcut w fuel rtype node = some (true, found) →
    (∃ d, ScopeDeclares w node rtype d) ∧ found.name.scope = rtype.name.scope

theorem keepsScope_of_not_strays (hw : w.Filed) (hnode : node.itf.Sound) (hglobal : rtype.name.global = false)
    (hscope : rtype.name.scope ≠ Word.blank) (hstrays : ¬ Strays w rtype node) : KeepsScope w node rtype := by
  intro fuel found h
  obtain ⟨r, hr, hfound⟩ := Option.map_eq_some_iff.1 h
  obtain ⟨hs, htrue, -⟩ :=
    checkPointcut_course hw hnode hglobal hscope .refl hstrays ⟨rfl, rfl, by simp⟩ hr
  cases hone : r.1 with
  | true =>
    rw [if_pos hone] at hfound
    cases hfound
    exact ⟨htrue hone, by rw [hs.rtype_eq]⟩
  | false =>
    rw [itfCheckPointcut_eq_only hr hone hs.pushed, Option.some.injEq] at h
    cases honly : r.2.possibilities.only? with
    | none => simp [honly] at h
    | some d =>
      obtain ⟨key, hkey⟩ := Table.only?_eq_some_iff.1 honly
      have hdeclares := hs.declared key d ((hkey key d).2 ⟨rfl, rfl⟩)
      rw [honly] at h
      cases h
      exact ⟨⟨d, hdeclares⟩, hdeclares.scope (hw.ancestor hnode)⟩

theorem not_keepsScope_of_misled (hw : w.Filed) (hnode : node.itf.Sound) (hacyclic : ¬ LeadsToCycle w.parents node)
    (hglobal : rtype.name.global = false) (hscope : rtype.name.scope ≠ Word.blank) (hmisled : Misled w rtype node) :
    ¬ KeepsScope w node rtype := by
  intro h
  have hground := (grounded_iff mem_nodes_of_mem_parents).2 hacyclic
  obtain ⟨bound, hbound⟩ := terminates_of_grounded (isSome_checkPointcut (w := w)) hground
  obtain ⟨r, hr⟩ := Option.isSome_iff_exists.1 (hbound bound le_rfl ⟨rtype, Table.empty, []⟩)
  obtain ⟨htrue, hne⟩ :=
    checkPointcut_misled hw hnode hglobal hscope hmisled .refl ⟨rfl, rfl, by simp⟩ hr
  have hfound : itfCheckPointcut w bound rtype node = some (true, r.2.rtype) := by
    unfold itfCheckPointcut
    rw [hr, Option.map_some, if_pos htrue]
  exact hne (h bound r.2.rtype hfound).2

/-- **Looking a pointcut up by its scope.** If the walk to the scope does not stray, what is found is declared by the
interface of the scope, and keeps the scope. If it is misled, it is found with another scope. -/
theorem itfCheckPointcut_scoped (w : Interfaces) (node : ItfNode) (hw : w.Filed) (hnode : node.itf.Sound)
    (hacyclic : ¬ LeadsToCycle w.parents node) (rtype : RType) (hglobal : rtype.name.global = false)
    (hscope : rtype.name.scope ≠ Word.blank) :
    (¬ Strays w rtype node → KeepsScope w node rtype) ∧ (Misled w rtype node → ¬ KeepsScope w node rtype) :=
  ⟨keepsScope_of_not_strays hw hnode hglobal hscope, not_keepsScope_of_misled hw hnode hacyclic hglobal hscope⟩

/-! ## A scope no interface has -/

/-- `Base` declares `open()` and inherits from nothing. -/
def baseOnly : Interfaces :=
  let base : Word := ⟨"Base", .refl true⟩
  ⟨[], Table.empty.set "Base" (openItf base [openDecl base []] []), fun _ _ => true⟩

/-- `Char` declares `close()` and inherits from `Base`. -/
def charNode : ItfNode :=
  let decl : ItfDecl := ⟨⟨rtxNodeIdentifier ⟨"close", .refl true⟩ ⟨"Char", .refl true⟩, []⟩, some .provided⟩
  ⟨false, ⟨⟨"Char", .refl true⟩, [],
    Table.empty.set "close" (Table.empty.set decl.rtype.rtxRTypeFullQualifiedName decl),
    Table.empty, [⟨"Base", .refl true⟩]⟩⟩

theorem baseOnly_filed : baseOnly.Filed where
  file _ hitf := absurd hitf List.not_mem_nil
  cache e he := by
    have hentry : e = ("Base", openItf ⟨"Base", rfl⟩ [openDecl ⟨"Base", rfl⟩ []] []) :=
      List.mem_singleton.1 he
    subst hentry
    exact ⟨⟨by decide, by decide⟩, rfl⟩

theorem charNode_sound : charNode.itf.Sound := ⟨by decide, by decide⟩

theorem charNode_not_cyclic : ¬ LeadsToCycle baseOnly.parents charNode := by
  have hends : ∀ n ∈ baseOnly.parents charNode, baseOnly.parents n = [] := by decide
  refine (grounded_iff mem_nodes_of_mem_parents).1 ⟨_, fun n hn => ⟨_, fun m hm => ?_⟩⟩
  rw [Calls, hends n hn] at hm
  cases hm

/-- `Base::open()` keeps its scope when it is looked up for `Char`, and `Other::open()` does not. -/
theorem itfCheckPointcut_scoped_open :
    KeepsScope baseOnly charNode ⟨rtxNodeIdentifier ⟨"open", rfl⟩ ⟨"Base", rfl⟩, []⟩ ∧
      ¬ KeepsScope baseOnly charNode ⟨rtxNodeIdentifier ⟨"open", rfl⟩ ⟨"Other", rfl⟩, []⟩ := by
  have hlookup := itfCheckPointcut_scoped baseOnly charNode baseOnly_filed charNode_sound charNode_not_cyclic
  constructor
  · refine (hlookup ⟨rtxNodeIdentifier ⟨"open", rfl⟩ ⟨"Base", rfl⟩, []⟩ rfl (by decide)).1 fun hstrays => ?_
    -- `Char` has a parent, and it is the one of the scope
    cases hstrays with
    | root _ hroot _ => exact absurd hroot (by decide)
    | above _ hmem _ _ _ => exact absurd hmem (by decide)
  · refine (hlookup ⟨rtxNodeIdentifier ⟨"open", rfl⟩ ⟨"Other", rfl⟩, []⟩ rfl (by decide)).2 ?_
    let base : ItfNode := ⟨false, openItf ⟨"Base", rfl⟩ [openDecl ⟨"Base", rfl⟩ []] []⟩
    have hparents : baseOnly.loadedParents charNode = [] ++ base :: [] := by decide
    refine .above (by decide) (by decide) hparents (by simp) (.root (by decide) (by decide) ⟨by decide, by decide⟩)

/-- `Other::open()` is found for `Char`, as `Base::open()`, and there is no interface `Other`. -/
theorem other_open_found :
    itfCheckPointcut baseOnly 2 ⟨rtxNodeIdentifier ⟨"open", rfl⟩ ⟨"Other", rfl⟩, []⟩ charNode =
        some (true, ⟨rtxNodeIdentifier ⟨"open", rfl⟩ ⟨"Base", rfl⟩, []⟩) ∧
      ¬ ∃ d, ScopeDeclares baseOnly charNode ⟨rtxNodeIdentifier ⟨"open", rfl⟩ ⟨"Other", rfl⟩, []⟩ d := by
  refine ⟨by decide, ?_⟩
  rintro ⟨d, m, hm, hname, -⟩
  have hother : ∀ n ∈ charNode :: nodes baseOnly, n.itf.name ≠ ⟨"Other", rfl⟩ := by decide
  exact hother m (mem_nodes_of_reach hm) hname

end Rathaxes.Mid
