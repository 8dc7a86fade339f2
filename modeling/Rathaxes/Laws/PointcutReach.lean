import Rathaxes.Laws.PointcutLookup
import Rathaxes.Laws.TypeLookup

/-!
# Where a pointcut is found

`rtxTypeCheck_ItfNameDefinesPointcut` starts at the interface of a name, or at those in use, and goes on to their
parents. A pointcut it finds is the key of a declaration of an interface in reach, except for the names of the builtin
ones (`itfNameDefinesPointcut_declared`, `itfNameDefinesPointcut_global`).
-/

set_option autoImplicit false

namespace Rathaxes.Mid

open CodeWorker Interfaces Back

/-! ## Interfaces in reach -/

/-- An interface in reach of names: one they stand for, or an ancestor. -/
def InReach (w : Interfaces) (names : List Word) (itf : Itf) : Prop :=
  ∃ name ∈ names, ∃ tree, w.registered name = some tree ∧ Ancestor w ⟨false, tree⟩ ⟨false, itf⟩

/-- An interface files a pointcut under its name and its full name. -/
def DeclaresPointcut (itf : Itf) (rtype : RType) : Prop :=
  ∃ decls decl, itf.pointcuts.get? rtype.name.name.text = some decls ∧
    decls.get? rtype.rtxRTypeFullQualifiedName = some decl

section Reach

variable {R : Registry} {loaded : Word → Word → Bool} {names : List Word} {itf tree : Itf}

theorem inReach_of_registered {w : Interfaces} {name : Word} (hname : name ∈ names)
    (h : w.registered name = some tree) : InReach w names tree :=
  ⟨name, hname, tree, h, Relation.ReflTransGen.refl⟩

theorem InReach.parent (h : InReach (R.interfaces loaded) names itf) {name : Word} (hname : name ∈ itf.inheritance)
    (hreg : (R.interfaces loaded).registered name = some tree) : InReach (R.interfaces loaded) names tree := by
  obtain ⟨start, hstart, root, hroot, hpath⟩ := h
  refine ⟨start, hstart, root, hroot, hpath.tail ?_⟩
  rw [Registry.registered_eq] at hreg
  refine List.mem_filterMap.2 ⟨name, hname, ?_⟩
  simp [Interfaces.parent, Registry.interfaces, hreg]

theorem Registry.name_of_registered {name : Word} (h : (R.interfaces loaded).registered name = some itf) :
    itf.name = name := by
  rw [Registry.registered_eq] at h
  exact Word.ext (R.named _ (Registry.mem_entries_of_get? h)).1

theorem Registry.checked_of_registered {name : Word} (h : (R.interfaces loaded).registered name = some itf) :
    itf.Checked := by
  rw [Registry.registered_eq] at h
  exact R.checked _ (Registry.mem_entries_of_get? h)

theorem Registry.name_ne_of_registered {name : Word} (h : (R.interfaces loaded).registered name = some itf) :
    itf.name ≠ Word.blank := by
  rw [Registry.registered_eq] at h
  exact (R.named _ (Registry.mem_entries_of_get? h)).2

/-- An interface in reach is registered. -/
theorem InReach.registered (h : InReach (R.interfaces loaded) names itf) :
    (R.interfaces loaded).registered itf.name = some itf := by
  obtain ⟨name, -, root, hroot, hpath⟩ := h
  rw [Registry.registered_eq] at hroot ⊢
  exact (Registry.tree_of_reach (Registry.tree_of_get? hroot) hpath).registered

/-- No interface files a global pointcut. -/
theorem DeclaresPointcut.not_global {rtype : RType} (h : DeclaresPointcut itf rtype) (hchecked : itf.Checked) :
    rtype.name.global = false := by
  obtain ⟨decls, decl, hdecls, hdecl⟩ := h
  have hd := hchecked.pointcuts.get? hdecls hdecl
  have hname : rtype.name.rtxRTypeName = decl.rtype.name.rtxRTypeName := (fullName_parts hd.key).1
  rw [global_eq_of_rtxRTypeName_eq hname]
  exact hchecked.notGlobal_get? hdecls hdecl

/-- What is filed in an interface is declared there. -/
theorem declares_of_get? {name key : String} {decls : Table ItfDecl} {decl : ItfDecl} (hchecked : itf.Checked)
    (hdecls : itf.pointcuts.get? name = some decls) (hdecl : decls.get? key = some decl) :
    DeclaresPointcut itf decl.rtype := by
  have hd := hchecked.pointcuts.get? hdecls hdecl
  rw [hd.name] at hdecls
  rw [hd.key] at hdecl
  exact ⟨decls, decl, hdecls, hdecl⟩

end Reach

/-! ## The search -/

/-- What a search among interfaces of a kind leaves: the pointcut with another scope at most, which a success has found
declared, and declarations of the kind. A qualified pointcut collects none. -/
structure Searched (A : Itf → Prop) (rtype : RType) (r : Bool × PointcutSearch) : Prop where
  same : r.2.rtype = rtype ∨ isQualified rtype = true ∧ ∃ scope, scope ≠ Word.blank ∧ r.2.rtype = withScope rtype scope
  found : r.1 = true → isQualified rtype = true ∧ ∃ itf, A itf ∧ DeclaresPointcut itf r.2.rtype
  collected : r.1 = false → ∀ key d, r.2.possibilities.get? key = some d →
    isQualified rtype = false ∧ ∃ itf, A itf ∧ DeclaresPointcut itf d.rtype

section Search

variable {A : Itf → Prop} {rtype : RType} {s : PointcutSearch} {itf : Itf}

theorem searched_start (A : Itf → Prop) (rtype : RType) : Searched A rtype (false, ⟨rtype, Table.empty, []⟩) where
  same := Or.inl rfl
  found := fun h => nomatch h
  collected := by
    intro _ key d h
    rw [Table.get?_empty] at h
    cases h

/-- The pointcut is as qualified as it was. -/
theorem Searched.qualified {found : Bool} (h : Searched A rtype (found, s)) :
    isQualified s.rtype = isQualified rtype := by
  rcases h.same with hsame | ⟨hqualified, scope, hscope, hsame⟩
  · exact congrArg isQualified hsame
  · have hsame : s.rtype = withScope rtype scope := hsame
    rw [hsame, hqualified, isQualified_withScope hscope hqualified]

/-- With a scope given it is the pointcut with that scope. -/
theorem Searched.withScope_eq {found : Bool} (h : Searched A rtype (found, s)) (scope : Word) :
    withScope s.rtype scope = withScope rtype scope := by
  rcases h.same with hsame | ⟨-, scope', -, hsame⟩
  · exact congrArg (withScope · scope) hsame
  · have hsame : s.rtype = withScope rtype scope' := hsame
    rw [hsame]
    rfl

/-- **An interface that is asked** settles the search with a declaration of its own or adds to what is collected. -/
theorem Searched.asked (h : Searched A rtype (false, s)) (hitf : A itf) (hchecked : itf.Checked)
    (hname : itf.name ≠ Word.blank) {r : Bool × PointcutSearch} (hr : s.Asked itf r) : Searched A rtype r := by
  have hrescoped := h.withScope_eq itf.name
  cases hr with
  | absent _ => exact h
  | @found decls decl hdecls hqualified hkey =>
    rw [h.qualified] at hqualified
    exact ⟨Or.inr ⟨hqualified, itf.name, hname, hrescoped⟩, fun _ => ⟨hqualified, itf, hitf, decls, decl, hdecls, hkey⟩,
      fun hfalse => (nomatch hfalse)⟩
  | missed hqualified =>
    rw [h.qualified] at hqualified
    exact ⟨Or.inr ⟨hqualified, itf.name, hname, hrescoped⟩, fun htrue => (nomatch htrue), h.collected⟩
  | collected hqualified =>
    refine ⟨h.same, fun htrue => (nomatch htrue), fun _ key d hget => ?_⟩
    rcases Table.mem_of_get?_foldl_set hget with hmem | hold
    · obtain ⟨decls, hdecls, hd, -⟩ := mem_matching_iff.1 hmem
      exact ⟨h.qualified ▸ hqualified, itf, hitf, declares_of_get? hchecked hdecls hd⟩
    · exact h.collected rfl key d hold

end Search

section Lookup

variable {R : Registry} {loaded : Word → Word → Bool} {names : List Word} {rtype : RType} {s : PointcutSearch}

/-- Asking a registered interface. -/
theorem Searched.registered {name : Word} {itf : Itf}
    (h : Searched (InReach (R.interfaces loaded) names) rtype (false, s))
    (hreg : (R.interfaces loaded).registered name = some itf) (hitf : InReach (R.interfaces loaded) names itf) :
    Searched (InReach (R.interfaces loaded) names) rtype (s.defines itf) :=
  h.asked hitf (Registry.checked_of_registered hreg) (Registry.name_ne_of_registered hreg) (s.asked itf)

/-- A pointcut that has been found gets the scope it has. -/
theorem withScope_of_asked {itf : Itf} {r : Bool × PointcutSearch} (h : s.Asked itf r) (hfound : r.1 = true) :
    { r.2 with rtype := withScope r.2.rtype itf.name } = r.2 := by
  cases h with
  | found _ _ _ => rfl
  | absent _ => cases hfound
  | missed _ => cases hfound
  | collected _ => cases hfound

theorem definesInParents_searched {itf : Itf} (hitf : InReach (R.interfaces loaded) names itf) :
    ∀ {parents : List Word} {s : PointcutSearch}, (∀ name ∈ parents, name ∈ itf.inheritance) →
      Searched (InReach (R.interfaces loaded) names) rtype (false, s) →
      Searched (InReach (R.interfaces loaded) names) rtype (definesInParents (R.interfaces loaded) parents s)
  | [], s, _, hs => hs
  | name :: parents, s, hparents, hs => by
    obtain ⟨hname, hparents⟩ := List.forall_mem_cons.1 hparents
    unfold definesInParents
    cases hreg : (R.interfaces loaded).registered name with
    | none => exact hs
    | some tree =>
      have hasked := hs.registered hreg (hitf.parent hname hreg)
      dsimp only
      cases hfound : (s.defines tree).1 with
      | true =>
        obtain rfl := Registry.name_of_registered hreg
        rw [if_pos rfl, withScope_of_asked (s.asked tree) hfound, ← hfound]
        exact hasked
      | false =>
        rw [if_neg Bool.false_ne_true]
        refine definesInParents_searched hitf hparents ?_
        rw [← hfound]
        exact hasked

theorem definesInItf_searched {itfName : Word}
    (hitf : ∀ itf, (R.interfaces loaded).registered itfName = some itf → InReach (R.interfaces loaded) names itf)
    (hs : Searched (InReach (R.interfaces loaded) names) rtype (false, s)) :
    Searched (InReach (R.interfaces loaded) names) rtype (definesInItf (R.interfaces loaded) itfName s) := by
  unfold definesInItf
  cases hreg : (R.interfaces loaded).registered itfName with
  | none => exact hs
  | some itf =>
    have hasked := hs.registered hreg (hitf itf hreg)
    dsimp only
    cases hfound : (s.defines itf).1 with
    | true =>
      obtain rfl := Registry.name_of_registered hreg
      rw [if_pos rfl, withScope_of_asked (s.asked itf) hfound, ← hfound]
      exact hasked
    | false =>
      rw [if_neg Bool.false_ne_true]
      refine definesInParents_searched (hitf itf hreg) (fun name hname => hname) ?_
      rw [← hfound]
      exact hasked

/-- The loop over the interfaces in use is for pointcuts without a scope, which none of them settles. -/
theorem definesInList_searched (hqualified : isQualified rtype = false) :
    ∀ {list : List Word} {s : PointcutSearch}, (∀ name ∈ list, name ∈ names) →
      Searched (InReach (R.interfaces loaded) names) rtype (false, s) →
      Searched (InReach (R.interfaces loaded) names) rtype (definesInList (R.interfaces loaded) list s)
  | [], s, _, hs => hs
  | name :: list, s, hlist, hs => by
    obtain ⟨hname, hlist⟩ := List.forall_mem_cons.1 hlist
    unfold definesInList
    cases hreg : (R.interfaces loaded).registered name with
    | none => exact hs
    | some itf =>
      dsimp only
      have hasked : Searched (InReach (R.interfaces loaded) names) rtype
          (if name ≠ Word.blank then definesInItf (R.interfaces loaded) name s else (false, s)) := by
        split
        · exact definesInItf_searched (fun itf hitf => inReach_of_registered hname hitf) hs
        · exact hs
      revert hasked
      generalize (if name ≠ Word.blank then definesInItf (R.interfaces loaded) name s else (false, s)) = r
      intro hasked
      obtain ⟨found, s'⟩ := r
      cases found with
      | true =>
        rw [(hasked.found rfl).1] at hqualified
        cases hqualified
      | false => exact definesInList_searched hqualified hlist hasked

/-- A search for a pointcut that is not a builtin one. -/
theorem nameDefinesPointcut_searched {itfName : Word} {list : List Word}
    (hitf : ∀ itf, (R.interfaces loaded).registered itfName = some itf → InReach (R.interfaces loaded) names itf)
    (hlist : ∀ name ∈ list, name ∈ names)
    (hblank : itfName = Word.blank → rtype.name.global = false ∧ isQualified rtype = false) :
    Searched (InReach (R.interfaces loaded) names) rtype
      (nameDefinesPointcut (R.interfaces loaded) itfName list ⟨rtype, Table.empty, []⟩) := by
  unfold nameDefinesPointcut
  by_cases hname : itfName = Word.blank
  · obtain ⟨hglobal, hqualified⟩ := hblank hname
    rw [if_neg (not_not.2 hname), if_pos hglobal]
    exact definesInList_searched hqualified hlist (searched_start _ rtype)
  · rw [if_pos hname]
    exact definesInItf_searched hitf (searched_start _ rtype)

/-- **A pointcut that is found** is declared by an interface in reach. If it was qualified, it has kept its name and its
parameters. -/
theorem itfNameDefinesPointcut_declared {itfName : Word} {list : List Word} {rtype' : RType}
    (hitf : ∀ itf, (R.interfaces loaded).registered itfName = some itf → InReach (R.interfaces loaded) names itf)
    (hlist : ∀ name ∈ list, name ∈ names)
    (hblank : itfName = Word.blank → rtype.name.global = false ∧ isQualified rtype = false)
    (h : itfNameDefinesPointcut (R.interfaces loaded) rtype itfName list = (true, rtype')) :
    (∃ itf, InReach (R.interfaces loaded) names itf ∧ DeclaresPointcut itf rtype') ∧
      (isQualified rtype = true → rtype'.name.name = rtype.name.name ∧ rtype'.params = rtype.params) := by
  have hs := nameDefinesPointcut_searched hitf hlist hblank
  unfold itfNameDefinesPointcut at h
  dsimp only at h
  split at h
  · rename_i hfound
    obtain rfl : _ = rtype' := (Prod.mk.inj h).2
    refine ⟨(hs.found hfound).2, fun _ => ?_⟩
    rcases hs.same with hsame | ⟨-, scope, -, hsame⟩
    · rw [hsame]
      exact ⟨rfl, rfl⟩
    · rw [hsame]
      exact ⟨rfl, rfl⟩
  · rename_i hfound
    split at h
    · rename_i entry honly
      obtain rfl : entry.rtype = rtype' := (Prod.mk.inj h).2
      have hmem := List.mem_of_mem_head? (Table.only?_uniques_iff.1 honly).1
      obtain ⟨⟨key, d⟩, he, rfl⟩ := List.mem_map.1 hmem
      obtain ⟨hqualified, hdeclared⟩ :=
        hs.collected (Bool.eq_false_iff.2 hfound) key d ((Table.mem_entries_iff _ key d).1 he)
      refine ⟨hdeclared, fun htrue => ?_⟩
      rw [hqualified] at htrue
      cases htrue
    · cases h

/-- A global pointcut without a scope is one of the builtin ones, and stays as it is. -/
theorem itfNameDefinesPointcut_global {w : Interfaces} {list : List Word} (hglobal : rtype.name.global = true) :
    itfNameDefinesPointcut w rtype Word.blank list = (decide (rtype.name.name.text ∈ builtinPointcuts), rtype) := by
  unfold itfNameDefinesPointcut nameDefinesPointcut
  simp only [ne_eq, not_true_eq_false, if_false, hglobal, Bool.true_eq_false]
  cases decide (rtype.name.name.text ∈ builtinPointcuts) <;> rfl

end Lookup

end Rathaxes.Mid
