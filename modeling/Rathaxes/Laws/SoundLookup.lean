import Rathaxes.Laws.PointcutLookup

/-!
# Lookups in interfaces that have been checked

An interface is sound when it has a name and what is filed in it has been checked. Where all interfaces are
sound, a type that is found has a scope or is global (`interfaceHasType_qualifies`), and so are the name and
the parameters of a pointcut that is found, but for a global pointcut: it is accepted for its name and left
as it is (`itfCheckPointcut_qualifies`).
-/

set_option autoImplicit false

namespace Rathaxes.Mid

open CodeWorker Interfaces

/-! ## Sound interfaces -/

/-- An interface has a name, and what is filed in it has been checked. -/
structure Itf.Sound (itf : Itf) : Prop where
  named : itf.name ≠ Word.blank
  checked : itf.Checked

/-- The interfaces the lookups reach are sound. -/
structure Interfaces.Sound (w : Interfaces) : Prop where
  file : ∀ itf ∈ w.file, itf.Sound
  cache : ∀ e ∈ w.cache.entries, e.2.Sound

section Sound

variable {w : Interfaces}

theorem Interfaces.Sound.node (hw : w.Sound) {m : ItfNode} (h : m ∈ nodes w) : m.itf.Sound :=
  itf_of_mem_nodes hw.file hw.cache h

theorem Interfaces.Sound.parent (hw : w.Sound) {node m : ItfNode} (h : m ∈ w.parents node) :
    m.itf.Sound :=
  hw.node (mem_nodes_of_mem_parents node m h)

/-- **A pointcut that is filed is qualified.** -/
theorem Itf.Sound.isQualified {itf : Itf} (h : itf.Sound) {name key : String} {decls : Table ItfDecl}
    {decl : ItfDecl} (hname : itf.pointcuts.get? name = some decls) (hkey : decls.get? key = some decl) :
    isQualified decl.rtype = true := by
  have hdecl := h.checked.pointcuts.get? hname hkey
  have hscope := hdecl.scope (h.checked.notGlobal_get? hname hkey)
  exact isQualified_iff.2 ⟨hdecl.params, isPlain_eq_false_iff.2 fun _ => hscope ▸ h.named⟩

/-! ## Types -/

/-- What a lookup of a type collects are names of interfaces, and without a scope it returns false. -/
theorem hasType_keeps (hw : w.Sound) {rtype : RType} : ∀ {fuel : Nat} {node : ItfNode} {s : List Word}
    {r : Bool × List Word}, node.itf.Sound → (∀ n ∈ s, n ≠ Word.blank) →
      hasType w rtype fuel node s = some r →
        (∀ n ∈ r.2, n ≠ Word.blank) ∧ (r.1 = true → isPlain rtype.name = false)
  | 0, _, _, _, _, _, h => (nomatch h)
  | fuel + 1, node, s, r, hnode, hs, h => by
    have hparents : ∀ m ∈ w.parents node, ∀ s r, (∀ n ∈ s, n ≠ Word.blank) →
        hasType w rtype fuel m s = some r →
          (∀ n ∈ r.2, n ≠ Word.blank) ∧ (r.1 = true → isPlain rtype.name = false) :=
      fun m hm s r hs h => hasType_keeps hw (hw.parent hm) hs h
    unfold hasType at h
    cases hplain : isPlain rtype.name with
    | true =>
      simp only [hplain, if_true] at h
      refine (callAll_keeps (P := fun s => ∀ n ∈ s, n ≠ Word.blank)
        (fun m hm s r hs h => (hparents m hm s r hs h).1) ?_ h).symm.imp_right fun hfalse htrue => ?_
      · split
        · exact List.forall_mem_append.2 ⟨hs, List.forall_mem_singleton.2 hnode.named⟩
        · exact hs
      · rw [hfalse] at htrue
        cases htrue
    | false =>
      refine ⟨?_, fun _ => rfl⟩
      simp only [hplain, Bool.false_eq_true, if_false] at h
      split at h
      · split at h
        · split at h
          · exact (untilTrue_keeps (T := fun _ => True) (P := fun s => ∀ n ∈ s, n ≠ Word.blank)
              (fun m hm s r hs h => ⟨(hparents m (mem_parents_of_loaded hm) s r hs h).1, fun _ => trivial⟩)
              hs h).1
          · split at h <;> cases h <;> exact hs
        · cases h
          exact hs
      · cases h
        exact hs

/-- A type that is found is qualified. -/
theorem interfaceHasType_qualifies (hw : w.Sound) {fuel : Nat} {node : ItfNode} (hnode : node.itf.Sound)
    {rtype : RType} {r : Bool × RType} (h : interfaceHasType w fuel rtype node = some r)
    (htrue : r.1 = true) : isPlain r.2.name = false := by
  obtain ⟨found, hfound, rfl⟩ := Option.map_eq_some_iff.1 h
  obtain ⟨hnames, hqualified⟩ := hasType_keeps hw hnode (by simp) hfound
  cases hone : found.1 with
  | true => simpa only [hone, if_true] using hqualified hone
  | false =>
    simp only [hone, Bool.false_eq_true, if_false] at htrue ⊢
    cases honly : (Table.uniques Word.text found.2).only? with
    | none => simp [honly] at htrue
    | some itf =>
      have hmem := List.mem_of_mem_head? (Table.only?_uniques_iff.1 honly).1
      exact isPlain_withScope (hnames itf hmem)

/-! ## Pointcuts -/

/-- What a search for a pointcut has found is qualified. -/
structure QualifiedSearch (s : PointcutSearch) : Prop where
  notGlobal : s.rtype.name.global = false
  pushed : s.pushed = []
  declared : ∀ key decl, s.possibilities.get? key = some decl → isQualified decl.rtype = true

/-- An interface adds declarations that are qualified, and answers true for a qualified pointcut. -/
theorem QualifiedSearch.asked {s : PointcutSearch} (hs : QualifiedSearch s) {itf : Itf} (hitf : itf.Sound)
    {r : Bool × PointcutSearch} (h : s.Asked itf r) :
    QualifiedSearch r.2 ∧ (r.1 = true → isQualified r.2.rtype = true) := by
  cases h with
  | absent _ => exact ⟨hs, fun h => (nomatch h)⟩
  | @found decls decl hname hqualified hkey =>
    refine ⟨⟨hs.notGlobal, hs.pushed, fun key d hget => ?_⟩, fun _ => isQualified_withScope hitf.named hqualified⟩
    rw [Table.get?_set] at hget
    split at hget
    · cases hget
      exact hitf.isQualified hname hkey
    · exact hs.declared key d hget
  | missed _ => exact ⟨⟨hs.notGlobal, hs.pushed, hs.declared⟩, fun h => (nomatch h)⟩
  | collected _ =>
    refine ⟨⟨hs.notGlobal, hs.pushed, fun key d hget => ?_⟩, fun h => (nomatch h)⟩
    rcases Table.mem_of_get?_foldl_set hget with hmem | hold
    · obtain ⟨decls, hname, hd, -⟩ := mem_matching_iff.1 hmem
      exact hitf.isQualified hname hd
    · exact hs.declared key d hold

/-- **The lookup of a pointcut** keeps this along inheritance. -/
theorem checkPointcut_keeps (hw : w.Sound) : ∀ {fuel : Nat} {node : ItfNode} {s : PointcutSearch}
    {r : Bool × PointcutSearch}, node.itf.Sound → QualifiedSearch s →
      checkPointcut w fuel node s = some r →
        QualifiedSearch r.2 ∧ (r.1 = true → isQualified r.2.rtype = true)
  | 0, _, _, _, _, _, h => (nomatch h)
  | fuel + 1, node, s, r, hnode, hs, h => by
    have hparents : ∀ m ∈ w.loadedParents node, ∀ s r, QualifiedSearch s →
        checkPointcut w fuel m s = some r →
          QualifiedSearch r.2 ∧ (r.1 = true → isQualified r.2.rtype = true) :=
      fun m hm s r hs h => checkPointcut_keeps hw (hw.parent (mem_parents_of_loaded hm)) hs h
    have hdefines := hs.asked hnode (s.asked node.itf)
    unfold checkPointcut at h
    cases hplain : isPlain s.rtype.name with
    | true =>
      -- a plain name is not found by its key, so nothing is pushed
      have hnot := s.defines_of_not_qualified node.itf (isQualified_of_plain hplain)
      rw [hnot] at hdefines
      simp only [hplain, if_true, hnot, Bool.false_eq_true, if_false] at h
      obtain ⟨hfalse, hkept⟩ := callAll_keeps (fun m hm s r hs h => (hparents m hm s r hs h).1) hdefines.1 h
      refine ⟨hkept, fun htrue => ?_⟩
      rw [hfalse] at htrue
      cases htrue
    | false =>
      simp only [hplain, Bool.false_eq_true, if_false, hs.notGlobal, if_true] at h
      split at h
      · split at h
        · exact untilTrue_keeps (T := fun s => isQualified s.rtype = true) hparents hs h
        · rename_i hscope
          split at h
          · rename_i parent hparent
            cases h
            have hmem : parent ∈ w.loadedParents node :=
              List.mem_filterMap.2 ⟨_, not_not.1 hscope, hparent⟩
            exact hs.asked (hw.parent (mem_parents_of_loaded hmem)) (s.asked parent.itf)
          · cases h
            exact ⟨hs, fun htrue => (nomatch htrue)⟩
      · cases h
        exact hdefines

/-- **A pointcut that is found** is qualified, or it is a global one and left as it is. -/
theorem itfCheckPointcut_qualifies (hw : w.Sound) {fuel : Nat} {node : ItfNode} (hnode : node.itf.Sound)
    {rtype : RType} {r : Bool × RType} (h : itfCheckPointcut w fuel rtype node = some r)
    (htrue : r.1 = true) :
    isQualified r.2 = true ↔ (rtype.name.global = true → isQualified rtype = true) := by
  obtain ⟨found, hfound, hr⟩ := Option.map_eq_some_iff.1 h
  cases hglobal : rtype.name.global with
  | true =>
    subst hr
    cases fuel with
    | zero => cases hfound
    | succ fuel =>
      simp only [checkPointcut, isPlain, hglobal, Bool.true_eq_false, false_and, decide_false,
        Bool.false_eq_true, if_false, Option.some.injEq] at hfound
      subst hfound
      cases hbuiltin : decide (rtype.name.name.text ∈ builtinPointcuts) with
      | true => simp
      | false => simp [hbuiltin, Table.empty] at htrue
  | false =>
    have hempty : QualifiedSearch ⟨rtype, Table.empty, []⟩ := ⟨hglobal, rfl, by simp⟩
    obtain ⟨hkept, hqualified⟩ := checkPointcut_keeps hw hnode hempty hfound
    refine iff_of_true ?_ fun h => absurd h Bool.false_ne_true
    cases hone : found.1 with
    | true =>
      rw [if_pos hone] at hr
      rw [← hr]
      exact hqualified hone
    | false =>
      rw [itfCheckPointcut_eq_only hfound hone hkept.pushed, Option.some.injEq] at h
      subst h
      cases honly : found.2.possibilities.only? with
      | none => simp [honly] at htrue
      | some d =>
        obtain ⟨key, hkey⟩ := Table.only?_eq_some_iff.1 honly
        exact hkept.declared key d ((hkey key d).2 ⟨rfl, rfl⟩)

end Sound

end Rathaxes.Mid
