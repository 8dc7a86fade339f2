import Rathaxes.Back.TemplateSpec
import Rathaxes.Laws.Declarations

/-!
# What the checks of a template compare

A prototype of a template may leave qualifications out. What it can be taken for (`implements`), what stands in the
template for a pointcut of an interface (`SameTypes`) and which declared prototype a written one names
(`NamesPointcut`) are three relations. What matches a qualified prototype is matched by all that one matches
(`implements_trans`). A match names the declared prototype where the marks of global types agree
(`namesPointcut_iff`), and a pointcut that is found stands for the declared one where it has no further parameters
(`standsFor_iff`).
-/

set_option autoImplicit false

namespace Rathaxes.Back

open CodeWorker Mid

/-! ## Counting errors -/

theorem tally_eq_zero_iff {n : Nat} {found : Bool} : tally n found = 0 ↔ n = 0 ∧ found = true := by
  unfold tally
  cases found <;> simp

theorem foldl_tally_eq_zero_iff {α : Type} {p : α → Bool} : ∀ {xs : List α} {n : Nat},
    xs.foldl (fun n x => tally n (p x)) n = 0 ↔ n = 0 ∧ ∀ x ∈ xs, p x = true
  | [], n => by simp
  | x :: xs, n => by
    rw [List.foldl_cons, foldl_tally_eq_zero_iff, tally_eq_zero_iff, List.forall_mem_cons, and_assoc]

/-! ## Matching -/

section Matching

variable {c p q : Ident}

theorem paramMatches_iff : paramMatches p q = true ↔
    p.name = q.name ∧ (q.global = true ∨ q.scope = Word.blank ∨ q.scope = p.scope) := by
  simp only [paramMatches, decide_eq_true_eq]
  cases q.global <;> by_cases hscope : q.scope = Word.blank <;> simp [hscope]

/-- What matches a qualified parameter is matched by what the parameter matches. -/
theorem paramMatches_trans (hp : isPlain p = false) (hscoped : p.global = true → p.scope = Word.blank)
    (hcp : paramMatches c p = true) (hpq : paramMatches p q = true) : paramMatches c q = true := by
  rw [paramMatches_iff] at hcp hpq ⊢
  refine ⟨hcp.1.trans hpq.1, ?_⟩
  rcases hpq.2 with hglobal | hblank | hsame
  · exact Or.inl hglobal
  · exact Or.inr (Or.inl hblank)
  · cases hg : p.global with
    | true => exact Or.inr (Or.inl (hsame.trans (hscoped hg)))
    | false =>
      rcases hcp.2 with hglobal | hblank | hcscope
      · rw [hg] at hglobal
        cases hglobal
      · exact absurd hblank (isPlain_eq_false_iff.1 hp hg)
      · exact Or.inr (Or.inr (hsame.trans hcscope))

end Matching

section Implements

variable {c p q : RType}

theorem paramsMatch_iff : paramsMatch p q = true ↔
    List.Forall₂ (fun declared given => paramMatches declared given = true) p.params q.params := by
  rw [paramsMatch, Bool.and_eq_true, decide_eq_true_eq, List.all_eq_true, List.forall₂_iff_zip]
  refine and_congr_right fun _ => ?_
  rw [Prod.forall]

theorem implements_iff : implements p q = true ↔
    p.name.name = q.name.name ∧ (isPlain q.name = true ∨ q.name.scope = p.name.scope) ∧
      paramsMatch p q = true := by
  simp [implements, matchPointcuts]

/-- The global parameters of a prototype have no scope. -/
def Scoped (rtype : RType) : Prop := ∀ param ∈ rtype.params, param.global = true → param.scope = Word.blank

instance (rtype : RType) : Decidable (Scoped rtype) := inferInstanceAs (Decidable (∀ _ ∈ _, _))

theorem forall₂_paramMatches_trans : ∀ {cs ps qs : List Ident},
    (∀ p ∈ ps, isPlain p = false ∧ (p.global = true → p.scope = Word.blank)) →
    List.Forall₂ (fun declared given => paramMatches declared given = true) cs ps →
    List.Forall₂ (fun declared given => paramMatches declared given = true) ps qs →
    List.Forall₂ (fun declared given => paramMatches declared given = true) cs qs
  | _, _, _, _, .nil, .nil => .nil
  | _, _, _, hps, .cons hcp hcps, .cons hpq hpqs => by
    obtain ⟨hp, hps⟩ := List.forall_mem_cons.1 hps
    exact .cons (paramMatches_trans hp.1 hp.2 hcp hpq) (forall₂_paramMatches_trans hps hcps hpqs)

/-- **What implements a qualified pointcut** implements whatever that one implements. -/
theorem implements_trans (hp : isQualified p = true) (hscoped : Scoped p) (hcp : implements c p = true)
    (hpq : implements p q = true) : implements c q = true := by
  obtain ⟨hparams, hplain⟩ := isQualified_iff.1 hp
  rw [implements_iff] at hcp hpq ⊢
  obtain ⟨hcpName, hcpScope, hcpParams⟩ := hcp
  obtain ⟨hpqName, hpqScope, hpqParams⟩ := hpq
  have hscope : p.name.scope = c.name.scope := by
    rcases hcpScope with hplain' | hscope
    · rw [hplain] at hplain'
      cases hplain'
    · exact hscope
  refine ⟨hcpName.trans hpqName, hpqScope.imp_right fun h => h.trans hscope, ?_⟩
  rw [paramsMatch_iff] at hcpParams hpqParams ⊢
  exact forall₂_paramMatches_trans (fun p hp => ⟨hparams p hp, hscoped p hp⟩) hcpParams hpqParams

end Implements

/-! ## What the helpers find -/

theorem requireQualified_eq_ok_iff {rtype : RType} : requireQualified rtype = .ok () ↔ isQualified rtype = true := by
  rw [isQualified_iff, ← List.findIdx?_eq_none_iff, and_comm]
  unfold requireQualified
  cases isPlain rtype.name with
  | true => simp
  | false => cases rtype.params.findIdx? isPlain <;> simp

theorem templateHasChunk_eq_ok_iff {rtype : RType} {chunks : List TplChunk} {r : Bool × List TplChunk} :
    templateHasChunk rtype chunks = .ok r ↔
      isQualified rtype = true ∧ hookFirst (fun tplChunk => implements rtype tplChunk.pointcut) rtype chunks = r := by
  rw [templateHasChunk, bind_eq_ok_iff, ← requireQualified_eq_ok_iff]
  constructor
  · rintro ⟨⟨⟩, hqualified, hhook⟩
    exact ⟨hqualified, Except.ok.inj hhook⟩
  · rintro ⟨hqualified, rfl⟩
    exact ⟨(), hqualified, rfl⟩

/-- A loop that stops at a chunk with the pointcut leaves the chunks as they are. -/
theorem hookFirst_eq {test : TplChunk → Bool} {pointcut : RType} {chunks : List TplChunk}
    (h : ∀ entry, chunks.find? test = some entry → entry.pointcut = pointcut) :
    hookFirst test pointcut chunks = (chunks.any test, chunks) := by
  unfold hookFirst
  rw [updateFirst_eq_self]
  intro entry hentry
  rw [← h entry hentry]

/-- The parameters of the interface are a first part of those of the template. -/
theorem paramsAgree_eq_true_iff : ∀ {params given : List Ident} {i : Nat},
    paramsAgree i params given = .ok true ↔ params.map Ident.rtxRTypeName <+: given.map Ident.rtxRTypeName
  | [], given, i => by simp [paramsAgree]
  | param :: params, [], i => by simp [paramsAgree]
  | param :: params, pRtype :: given, i => by
    rw [paramsAgree, List.map_cons, List.map_cons, List.cons_prefix_cons]
    by_cases hname : pRtype.rtxRTypeName = param.rtxRTypeName
    · rw [if_neg (not_not.2 hname), paramsAgree_eq_true_iff]
      simp [hname]
    · rw [if_pos hname]
      simp [Ne.symm hname]

/-- The name and the types of the parameters are the same. -/
structure SameTypes (declared given : RType) : Prop where
  name : given.name.name = declared.name.name
  params : given.params.map Ident.rtxRTypeName = declared.params.map Ident.rtxRTypeName

/-- What the code of a template has to have to be taken for a pointcut of the interface: the name without a scope and the
parameters of the interface in front, or all that is written of the interface's. -/
def TakenFor (declared given : RType) : Prop :=
  (given.name.name = declared.name.name ∧ given.name.scope = Word.blank ∧
      declared.params.map Ident.rtxRTypeName <+: given.params.map Ident.rtxRTypeName) ∨
    given.name.rtxRTypeName = declared.name.rtxRTypeName ∧
      given.params.map Ident.rtxRTypeName = declared.params.map Ident.rtxRTypeName

instance (declared given : RType) : Decidable (TakenFor declared given) := inferInstanceAs (Decidable (_ ∨ _))

/-- A pointcut in the code of a template stands for one of the interface: it has its name, without a scope or as the
interface writes it, and the types of its parameters. -/
structure StandsFor (declared given : RType) : Prop extends SameTypes declared given where
  scope : given.name.scope = Word.blank ∨ given.name.rtxRTypeName = declared.name.rtxRTypeName

theorem pointcutAgrees_iff {declared given : RType} (hdeclared : ∀ p ∈ declared.params, isPlain p = false)
    (hgiven : Written given) : pointcutAgrees declared given = .ok true ↔ TakenFor declared given := by
  have hfull := @fullName_eq_iff_written given declared (fun p hp => rtxRTypeName_ne_of_named (hgiven.params p hp))
    fun p hp => rtxRTypeName_ne_of_not_plain (hdeclared p hp)
  unfold pointcutAgrees
  split
  · rename_i hname
    rw [paramsAgree_eq_true_iff]
    constructor
    · intro hparams
      exact .inl ⟨hname.1, hname.2, hparams⟩
    · rintro (⟨-, -, hparams⟩ | ⟨-, hparams⟩)
      · exact hparams
      · rw [hparams]
  · rename_i hname
    rw [Except.ok.injEq, decide_eq_true_iff, hfull]
    constructor
    · exact .inr
    · rintro (⟨hsame, hblank, -⟩ | hwritten)
      · exact absurd ⟨hsame, hblank⟩ hname
      · exact hwritten

/-- **What is taken for a pointcut of the interface** stands for it exactly if it has no parameters behind those the
interface gives. -/
theorem standsFor_iff {declared given : RType} :
    StandsFor declared given ↔ TakenFor declared given ∧ given.params.length ≤ declared.params.length := by
  constructor
  · intro h
    refine ⟨?_, by simpa using (congrArg List.length h.params).le⟩
    rcases h.scope with hblank | hsame
    · exact .inl ⟨h.name, hblank, by rw [h.params]⟩
    · exact .inr ⟨hsame, h.params⟩
  · rintro ⟨⟨hname, hblank, hparams⟩ | ⟨hsame, hparams⟩, hlength⟩
    · exact ⟨⟨hname, (hparams.eq_of_length_le (by simpa using hlength)).symm⟩, .inl hblank⟩
    · exact ⟨⟨name_eq_of_rtxRTypeName_eq hsame, hparams⟩, .inr hsame⟩

theorem templateHasPointcut_eq_true {rtype : RType} : ∀ {pointcuts : List RType},
    templateHasPointcut rtype pointcuts = .ok true → ∃ given ∈ pointcuts, pointcutAgrees rtype given = .ok true
  | [], h => by
    rw [templateHasPointcut] at h
    cases h
  | given :: pointcuts, h => by
    rw [templateHasPointcut] at h
    obtain ⟨agrees, hagrees, h⟩ := bind_eq_ok_iff.1 h
    cases agrees with
    | true => exact ⟨given, List.mem_cons_self, hagrees⟩
    | false =>
      obtain ⟨other, hother, hsame⟩ := templateHasPointcut_eq_true h
      exact ⟨other, List.mem_cons_of_mem _ hother, hsame⟩

theorem written_of_mem_pointcutsOf {chunks : List TplChunk} {given : RType} (h : given ∈ pointcutsOf chunks) :
    Written given := by
  obtain ⟨chunk, -, hgiven⟩ := List.mem_flatMap.1 h
  exact chunk.read given hgiven

theorem takenFor_of_templateHasPointcut {rtype : RType} {chunks : List TplChunk}
    (hrtype : ∀ p ∈ rtype.params, isPlain p = false) (h : templateHasPointcut rtype (pointcutsOf chunks) = .ok true) :
    ∃ given ∈ pointcutsOf chunks, TakenFor rtype given := by
  obtain ⟨given, hgiven, hagrees⟩ := templateHasPointcut_eq_true h
  exact ⟨given, hgiven, (pointcutAgrees_iff hrtype (written_of_mem_pointcutsOf hgiven)).1 hagrees⟩

/-! ## Written prototypes -/

/-- An identifier as a template writes it names a declared one: it has no qualification, or that of the
declaration. -/
def Names (declared written : Ident) : Prop :=
  declared.name = written.name ∧ (isPlain written = true ∨ declared.rtxRTypeName = written.rtxRTypeName)

/-- A pointcut as a template writes it names a declared one, and so do its parameters. -/
def NamesPointcut (declared written : RType) : Prop :=
  Names declared.name written.name ∧ List.Forall₂ Names declared.params written.params

/-- A qualified identifier of a template has the mark of a global one where the declaration has it. -/
def MarkedAs (declared written : Ident) : Prop := isPlain written = true ∨ declared.global = written.global

instance (declared written : Ident) : Decidable (MarkedAs declared written) := inferInstanceAs (Decidable (_ ∨ _))

/-- The name and the parameters of a pointcut have the marks of the declaration. -/
def Marked (declared written : RType) : Prop :=
  MarkedAs declared.name written.name ∧ ∀ pair ∈ declared.params.zip written.params, MarkedAs pair.1 pair.2

instance (declared written : RType) : Decidable (Marked declared written) := inferInstanceAs (Decidable (_ ∧ _))

theorem names_of_marked {declared written : Ident} (hname : declared.name = written.name)
    (hscope : written.global = true ∨ written.scope = Word.blank ∨ written.scope = declared.scope)
    (hmarked : MarkedAs declared written) : Names declared written := by
  refine ⟨hname, ?_⟩
  cases hplain : isPlain written with
  | true => exact Or.inl rfl
  | false =>
    have hglobal : declared.global = written.global := by
      rcases hmarked with h | h
      · rw [hplain] at h
        cases h
      · exact h
    refine Or.inr ?_
    cases hg : written.global with
    | true => rw [rtxRTypeName_of_global hg, rtxRTypeName_of_global (hglobal.trans hg), hname]
    | false =>
      have hblank := isPlain_eq_false_iff.1 hplain hg
      have hsame : written.scope = declared.scope := by
        rcases hscope with h | h | h
        · rw [hg] at h
          cases h
        · exact absurd h hblank
        · exact h
      rw [rtxRTypeName_of_scoped hg hblank, rtxRTypeName_of_scoped (hglobal.trans hg) (hsame ▸ hblank), hname, hsame]

theorem namesPointcut_of_implements {declared written : RType} (h : implements declared written = true)
    (hmarked : Marked declared written) : NamesPointcut declared written := by
  obtain ⟨hname, hscope, hparams⟩ := implements_iff.1 h
  refine ⟨names_of_marked hname ?_ hmarked.1, ?_⟩
  · rcases hscope with hplain | hsame
    · exact Or.inr (Or.inl (of_decide_eq_true hplain).2)
    · exact Or.inr (Or.inr hsame)
  · obtain ⟨hlength, hmatch⟩ := List.forall₂_iff_zip.1 (paramsMatch_iff.1 hparams)
    refine List.forall₂_iff_zip.2 ⟨hlength, fun {a b} hab => ?_⟩
    obtain ⟨hname, hscope⟩ := paramMatches_iff.1 (hmatch hab)
    exact names_of_marked hname hscope (hmarked.2 (a, b) hab)

/-- What an identifier that names a declared one has of it. -/
theorem Names.marked {declared written : Ident} (h : Names declared written) :
    (written.global = true ∨ written.scope = Word.blank ∨ written.scope = declared.scope) ∧
      MarkedAs declared written := by
  rcases h.2 with hplain | hsame
  · exact ⟨.inr (.inl (of_decide_eq_true hplain).2), .inl hplain⟩
  · have hglobal := global_eq_of_rtxRTypeName_eq hsame
    refine ⟨?_, .inr hglobal⟩
    cases hg : written.global with
    | true => exact .inl rfl
    | false =>
      by_cases hblank : written.scope = Word.blank
      · exact .inr (.inl hblank)
      · have hplain : isPlain declared = false := by
          rw [isPlain_eq_of_rtxRTypeName_eq hsame]
          exact isPlain_eq_false_iff.2 fun _ => hblank
        have hscope := isPlain_eq_false_iff.1 hplain (hglobal.trans hg)
        exact .inr (.inr (scope_eq_of_rtxRTypeName_eq hscope hblank hg hsame).symm)

/-- **A pointcut as it is written names a declared one** exactly if it can be taken for it and has its marks. -/
theorem namesPointcut_iff {declared written : RType}
    (hdeclared : declared.name.global = true → declared.name.scope = Word.blank)
    (hwritten : written.name.global = true → written.name.scope = Word.blank) :
    NamesPointcut declared written ↔ implements declared written = true ∧ Marked declared written := by
  refine ⟨fun ⟨hname, hparams⟩ => ?_, fun h => namesPointcut_of_implements h.1 h.2⟩
  obtain ⟨hlength, hzip⟩ := List.forall₂_iff_zip.1 hparams
  obtain ⟨hscope, hmarked⟩ := hname.marked
  refine ⟨implements_iff.2 ⟨hname.1, ?_, paramsMatch_iff.2 (List.forall₂_iff_zip.2 ⟨hlength, fun hab => ?_⟩)⟩,
    hmarked, fun pair hpair => (hzip hpair).marked.2⟩
  · cases hplain : isPlain written.name with
    | true => exact .inl rfl
    | false =>
      have hglobal : declared.name.global = written.name.global := hmarked.resolve_left (by simp [hplain])
      refine .inr ?_
      cases hg : written.name.global with
      | true => rw [hwritten hg, hdeclared (hglobal.trans hg)]
      | false =>
        exact (hscope.resolve_left (by simp [hg])).resolve_left (isPlain_eq_false_iff.1 hplain hg)
  · exact paramMatches_iff.2 ⟨(hzip hab).1, (hzip hab).marked.1⟩

end Rathaxes.Back
