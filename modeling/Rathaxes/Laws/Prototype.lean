import Rathaxes.CodeWorker.Text
import Rathaxes.Parse.Prototype

/-!
# Prototypes and their hashes

The hash of a prototype is a text in which it is written once more, without blanks and without the names of parameters.
What `rtx_template_prototype` accepts is made of identifiers and has a scope or the mark of a global name, but not both
(`parsed_of_rtxTemplatePrototype`). A prototype of this kind is read back from its hash (`rtxTemplatePrototype_hash`), so
no two of them have the same (`hash_eq_iff_of_parsed`).
-/

set_option autoImplicit false

namespace Rathaxes

open CodeWorker Parse

/-! ## What is accepted -/

/-- A word `#readIdentifier` reads. -/
def Word.IsIdentifier (w : Word) : Prop := ∃ c s, w.text.toList = c :: s ∧ isIdentStart c = true

/-- An identifier `rtx_scoped_identifier` reads: plain, scoped or global. -/
structure Ident.Parsed (i : Ident) : Prop where
  name : i.name.IsIdentifier
  scope : i.scope = Word.blank ∨ i.scope.IsIdentifier
  global : i.global = true → i.scope = Word.blank

/-- A prototype of such identifiers. -/
structure RType.Parsed (r : RType) : Prop where
  name : r.name.Parsed
  params : ∀ p ∈ r.params, p.Parsed

namespace Parse

theorem readWord_eq_some_iff {s rest : List Char} {w : Word} :
    readWord s = some (w, rest) ↔ readIdentifier s = some (w.text.toList, rest) := by
  unfold readWord
  split
  · rename_i a rest' h
    constructor
    · intro hread
      obtain ⟨hw, hrest⟩ := Prod.mk.inj (Option.some.inj hread)
      rw [← hw, ← hrest, String.toList_ofList]
      exact h
    · intro hread
      obtain ⟨ha, hrest⟩ := Prod.mk.inj (Option.some.inj (h.symm.trans hread))
      have hw : String.ofList a = w.text := by rw [ha, String.ofList_toList]
      rw [Option.some.injEq, Prod.mk.injEq]
      exact ⟨Word.ext hw, hrest⟩
  · rename_i h
    rw [h]
    simp

theorem isIdentifier_of_readWord {s rest : List Char} {w : Word} (h : readWord s = some (w, rest)) :
    w.IsIdentifier := by
  have hread := readWord_eq_some_iff.1 h
  unfold readIdentifier at hread
  split at hread
  · cases hread
  · split at hread
    · rename_i c s hstart
      obtain ⟨hw, -⟩ := Prod.mk.inj (Option.some.inj hread)
      exact ⟨c, _, hw.symm, hstart⟩
    · cases hread

/-- What stands in front of a name is a scope, or the mark of a global one, or nothing. -/
theorem readMark_spec (s : List Char) :
    ((readMark s).1.1 = Word.blank ∨ (readMark s).1.1.IsIdentifier) ∧
      ((readMark s).1.2 = true → (readMark s).1.1 = Word.blank) := by
  unfold readMark
  split
  · rename_i scope rest h
    exact ⟨.inr (isIdentifier_of_readWord h), fun hfalse => (nomatch hfalse)⟩
  · split
    · exact ⟨.inl rfl, fun _ => rfl⟩
    · exact ⟨.inl rfl, fun _ => rfl⟩

theorem parsed_of_rtxScopedIdentifier {forceScope : Bool} {s rest : List Char} {i : Ident}
    (h : rtxScopedIdentifier forceScope s = some (i, rest)) : i.Parsed := by
  unfold rtxScopedIdentifier at h
  obtain ⟨hscope, hglobal⟩ := readMark_spec (skipBlanks s)
  simp only at h
  split at h
  · obtain ⟨⟨name, rest'⟩, hname, h⟩ := Option.bind_eq_some_iff.1 h
    cases h
    exact ⟨isIdentifier_of_readWord hname, hscope, hglobal⟩
  · cases h

theorem parsed_of_rtxParam {s rest : List Char} {p : Ident × Word} (h : rtxParam s = some (p, rest)) :
    p.1.Parsed := by
  obtain ⟨⟨param, s'⟩, hparam, h⟩ := Option.bind_eq_some_iff.1 h
  have hparsed := parsed_of_rtxScopedIdentifier hparam
  simp only at h
  split at h
  · cases h
    exact hparsed
  · cases h
    exact hparsed

theorem parsed_of_readParams : ∀ {fuel : Nat} {s rest : List Char} {ps : List (Ident × Word)},
    readParams fuel s = some (ps, rest) → ∀ p ∈ ps, p.1.Parsed := by
  intro fuel
  induction fuel with
  | zero =>
    intro s rest ps h
    cases h
    exact fun _ hp => (nomatch hp)
  | succ fuel ih =>
    intro s rest ps h
    unfold readParams at h
    split at h
    · obtain ⟨⟨param, s'⟩, hparam, h⟩ := Option.bind_eq_some_iff.1 h
      obtain ⟨⟨params, rest'⟩, hparams, h⟩ := Option.bind_eq_some_iff.1 h
      cases h
      exact List.forall_mem_cons.2 ⟨parsed_of_rtxParam hparam, ih hparams⟩
    · cases h
      exact fun _ hp => (nomatch hp)

theorem parsed_of_readAllParams {s rest : List Char} {ps : List (Ident × Word)}
    (h : readAllParams s = some (ps, rest)) : ∀ p ∈ ps, p.1.Parsed := by
  unfold readAllParams at h
  split at h
  · cases h
    exact fun _ hp => (nomatch hp)
  · rename_i param s' hparam
    obtain ⟨⟨params, rest'⟩, hparams, h⟩ := Option.bind_eq_some_iff.1 h
    cases h
    exact List.forall_mem_cons.2 ⟨parsed_of_rtxParam hparam, parsed_of_readParams hparams⟩

theorem parsed_of_rtxParameterList {s rest : List Char} {ps : List (Ident × Word)}
    (h : rtxParameterList s = some (ps, rest)) : ∀ p ∈ ps, p.1.Parsed := by
  unfold rtxParameterList at h
  split at h
  · obtain ⟨⟨params, s'⟩, hparams, h⟩ := Option.bind_eq_some_iff.1 h
    simp only at h
    split at h
    · cases h
      exact parsed_of_readAllParams hparams
    · cases h
  · cases h

/-- **What is accepted is well formed.** -/
theorem parsed_of_rtxTemplatePrototype {s rest : List Char} {r : RType} {ids : List Word}
    (h : rtxTemplatePrototype s = some ((r, ids), rest)) : r.Parsed := by
  obtain ⟨⟨name, s'⟩, hname, h⟩ := Option.bind_eq_some_iff.1 h
  obtain ⟨⟨params, rest'⟩, hparams, h⟩ := Option.bind_eq_some_iff.1 h
  cases h
  refine ⟨parsed_of_rtxScopedIdentifier hname, fun p hp => ?_⟩
  obtain ⟨q, hq, rfl⟩ := List.mem_map.1 hp
  exact parsed_of_rtxParameterList hparams q hq

/-! ## What is read back -/

/-- A text no word goes on with, and no colon. -/
def Stops (s : List Char) : Prop := ∀ c ∈ s.head?, isWordChar c = false ∧ c ≠ ':'

theorem stops_cons {c : Char} {s : List Char} (hword : isWordChar c = false) (hcolon : c ≠ ':') : Stops (c :: s) := by
  intro d hd
  cases hd
  exact ⟨hword, hcolon⟩

theorem readIdentifier_append {w : Word} (hw : w.IsIdentifier) {rest : List Char}
    (hrest : ∀ c ∈ rest.head?, isWordChar c = false) :
    readIdentifier (w.text.toList ++ rest) = some (w.text.toList, rest) := by
  obtain ⟨c, s, htext, hstart⟩ := hw
  have hall := w.plain
  rw [htext, List.all_cons, Bool.and_eq_true, List.all_eq_true] at hall
  have htake : rest.takeWhile isWordChar = [] := by
    cases rest with
    | nil => rfl
    | cons d rest => rw [List.takeWhile_cons, hrest d rfl]; rfl
  have hdrop : rest.dropWhile isWordChar = rest := by
    have hall := List.takeWhile_append_dropWhile (p := isWordChar) (l := rest)
    rwa [htake] at hall
  rw [htext, List.cons_append, readIdentifier, if_pos hstart]
  show some (c :: (s ++ rest).takeWhile isWordChar, (s ++ rest).dropWhile isWordChar) = _
  rw [List.takeWhile_append_of_pos hall.2, List.dropWhile_append_of_pos hall.2, htake, hdrop, List.append_nil]

theorem readWord_append {w : Word} (hw : w.IsIdentifier) {rest : List Char}
    (hrest : ∀ c ∈ rest.head?, isWordChar c = false) : readWord (w.text.toList ++ rest) = some (w, rest) :=
  readWord_eq_some_iff.2 (readIdentifier_append hw hrest)

theorem readWord_eq_none {c : Char} {s : List Char} (h : isIdentStart c = false) : readWord (c :: s) = none := by
  have hread : readIdentifier (c :: s) = none := by
    rw [readIdentifier, if_neg (by simp [h])]
  cases hword : readWord (c :: s) with
  | none => rfl
  | some r =>
    rw [readWord_eq_some_iff.1 hword] at hread
    cases hread

theorem skipBlanks_of_not_blank {c : Char} {s : List Char} (h : c.isWhitespace = false) :
    skipBlanks (c :: s) = c :: s := by
  rw [skipBlanks, List.dropWhile_cons, h]
  rfl

theorem isWhitespace_of_isIdentStart {c : Char} (h : isIdentStart c = true) : c.isWhitespace = false := by
  cases hblank : c.isWhitespace with
  | false => rfl
  | true =>
    simp only [Char.isWhitespace, Bool.or_eq_true, decide_eq_true_eq] at hblank
    rcases hblank with ((rfl | rfl) | rfl) | rfl
    all_goals cases h

theorem ne_colon_of_isIdentStart {c : Char} (h : isIdentStart c = true) : c ≠ ':' := by
  rintro rfl
  cases h

/-- Nothing stands in front of a plain name. -/
theorem readMark_plain {name : Word} (hname : name.IsIdentifier) {rest : List Char} (hrest : Stops rest) :
    readMark (name.text.toList ++ rest) = ((Word.blank, false), name.text.toList ++ rest) := by
  unfold readMark
  rw [readWord_append hname fun c hc => (hrest c hc).1]
  split
  · rename_i heq
    obtain ⟨-, hcolon⟩ := Prod.mk.inj (Option.some.inj heq)
    exact absurd rfl (hrest ':' (by rw [hcolon]; rfl)).2
  · split
    · rename_i heq
      obtain ⟨c, s, htext, hstart⟩ := hname
      rw [htext, List.cons_append] at heq
      exact absurd (List.cons.inj heq).1 (ne_colon_of_isIdentStart hstart)
    · rfl

theorem readMark_scoped {scope : Word} (hscope : scope.IsIdentifier) (rest : List Char) :
    readMark (scope.text.toList ++ ':' :: ':' :: rest) = ((scope, false), rest) := by
  have hstop : ∀ c ∈ (':' :: ':' :: rest).head?, isWordChar c = false := by
    intro c hc
    cases hc
    decide
  unfold readMark
  rw [readWord_append hscope hstop]
  rfl

theorem readMark_global (rest : List Char) : readMark (':' :: ':' :: rest) = ((Word.blank, true), rest) := by
  unfold readMark
  rw [readWord_eq_none (by decide)]
  rfl

theorem skipBlanks_word {w : Word} (hw : w.IsIdentifier) (rest : List Char) :
    skipBlanks (w.text.toList ++ rest) = w.text.toList ++ rest := by
  obtain ⟨c, s, htext, hstart⟩ := hw
  rw [htext, List.cons_append, skipBlanks_of_not_blank (isWhitespace_of_isIdentStart hstart)]

/-- **An identifier is read back** from its name. -/
theorem rtxScopedIdentifier_append {i : Ident} (hi : i.Parsed) {rest : List Char} (hrest : Stops rest) :
    rtxScopedIdentifier false (i.rtxRTypeName.toList ++ rest) = some (i, rest) := by
  obtain ⟨scope, name, global⟩ := i
  have hname : readWord (name.text.toList ++ rest) = some (name, rest) :=
    readWord_append hi.name fun c hc => (hrest c hc).1
  unfold rtxScopedIdentifier
  cases global with
  | true =>
    obtain rfl : scope = Word.blank := hi.global rfl
    have htext : (Ident.mk Word.blank name true).rtxRTypeName.toList ++ rest =
        ':' :: ':' :: (name.text.toList ++ rest) := by
      rw [rtxRTypeName_of_global rfl, String.toList_append, List.append_assoc]
      rfl
    rw [htext, skipBlanks_of_not_blank (by decide), readMark_global]
    simp [hname]
  | false =>
    rcases hi.scope with hblank | hscope
    · have hblank : scope = Word.blank := hblank
      subst hblank
      rw [rtxRTypeName_of_blank rfl rfl, skipBlanks_word hi.name, readMark_plain hi.name hrest]
      simp [hname]
    · have hne : scope ≠ Word.blank := by
        rintro rfl
        obtain ⟨c, s, htext, -⟩ := hscope
        cases htext
      have htext : (Ident.mk scope name false).rtxRTypeName.toList ++ rest =
          scope.text.toList ++ ':' :: ':' :: (name.text.toList ++ rest) := by
        rw [rtxRTypeName_of_scoped rfl hne, String.toList_append, String.toList_append, List.append_assoc,
          List.append_assoc]
        rfl
      rw [htext, skipBlanks_word hscope, readMark_scoped hscope]
      simp [hname]

/-! ## Parameters -/

/-- The parameters behind the first one, as they are written in a hash. -/
def restText (ps : List Ident) : List Char := ps.flatMap fun p => ',' :: p.rtxRTypeName.toList

/-- A comma or a parenthesis. -/
def AtDelimiter (s : List Char) : Prop := ∃ c t, s = c :: t ∧ (c = ',' ∨ c = ')')

theorem AtDelimiter.stops {s : List Char} (h : AtDelimiter s) : Stops s := by
  obtain ⟨c, t, rfl, rfl | rfl⟩ := h
  · exact stops_cons (by decide) (by decide)
  · exact stops_cons (by decide) (by decide)

theorem atDelimiter_restText (ps : List Ident) (rest : List Char) : AtDelimiter (restText ps ++ ')' :: rest) := by
  cases ps with
  | nil => exact ⟨')', rest, rfl, .inr rfl⟩
  | cons p ps => exact ⟨',', _, rfl, .inl rfl⟩

theorem rtxParam_append {p : Ident} (hp : p.Parsed) {rest : List Char} (hrest : AtDelimiter rest) :
    rtxParam (p.rtxRTypeName.toList ++ rest) = some ((p, Word.blank), rest) := by
  have hnone : readWord (skipBlanks rest) = none := by
    obtain ⟨c, t, rfl, rfl | rfl⟩ := hrest
    · rw [skipBlanks_of_not_blank (by decide), readWord_eq_none (by decide)]
    · rw [skipBlanks_of_not_blank (by decide), readWord_eq_none (by decide)]
  unfold rtxParam
  rw [rtxScopedIdentifier_append hp hrest.stops]
  simp only [Option.bind_eq_bind, Option.bind_some, hnone]
  rfl

theorem readParams_append (rest : List Char) : ∀ {ps : List Ident} {fuel : Nat}, (∀ p ∈ ps, p.Parsed) →
    ps.length ≤ fuel → readParams fuel (restText ps ++ ')' :: rest) =
      some (ps.map fun p => (p, Word.blank), ')' :: rest)
  | [], 0, _, _ => rfl
  | [], fuel + 1, _, _ => by
    show readParams (fuel + 1) (')' :: rest) = _
    rw [readParams, skipBlanks_of_not_blank (by decide)]
    rfl
  | p :: ps, fuel + 1, hps, hfuel => by
    obtain ⟨hp, hps⟩ := List.forall_mem_cons.1 hps
    have htext : restText (p :: ps) ++ ')' :: rest = ',' :: (p.rtxRTypeName.toList ++ (restText ps ++ ')' :: rest)) := by
      rw [restText, List.flatMap_cons, List.cons_append, List.cons_append, List.append_assoc]
      rfl
    rw [htext, readParams, skipBlanks_of_not_blank (by decide)]
    show (rtxParam (p.rtxRTypeName.toList ++ (restText ps ++ ')' :: rest)) >>= _) = _
    rw [rtxParam_append hp (atDelimiter_restText ps rest)]
    show (readParams fuel (restText ps ++ ')' :: rest) >>= _) = _
    rw [readParams_append rest hps (Nat.le_of_succ_le_succ hfuel)]
    rfl

/-- The parameters of a hash, as they are written. -/
theorem toList_intercalate_params (p : Ident) (ps : List Ident) :
    (String.intercalate "," ((p :: ps).map Ident.rtxRTypeName)).toList = p.rtxRTypeName.toList ++ restText ps := by
  rw [String.toList_intercalate, List.map_cons, List.map_cons, intercalate_cons_eq_flatMap, restText,
    List.flatMap_map, List.flatMap_map]
  rfl

theorem length_le_restText (ps : List Ident) : ps.length ≤ (restText ps).length := by
  induction ps with
  | nil => exact Nat.le_refl 0
  | cons p ps ih =>
    have htext : restText (p :: ps) = ',' :: (p.rtxRTypeName.toList ++ restText ps) := rfl
    rw [htext, List.length_cons, List.length_cons, List.length_append]
    omega

/-- There is no parameter before the closing parenthesis. -/
theorem rtxParam_close (rest : List Char) : rtxParam (')' :: rest) = none := by
  have hword : readWord (')' :: rest) = none := readWord_eq_none (by decide)
  have hmark : readMark (')' :: rest) = ((Word.blank, false), ')' :: rest) := by
    unfold readMark
    rw [hword]
    rfl
  have hnone : rtxScopedIdentifier false (')' :: rest) = none := by
    unfold rtxScopedIdentifier
    rw [skipBlanks_of_not_blank (by decide), hmark]
    simp [hword]
  unfold rtxParam
  rw [hnone]
  rfl

theorem readAllParams_append {ps : List Ident} (hps : ∀ p ∈ ps, p.Parsed) (rest : List Char) :
    readAllParams ((String.intercalate "," (ps.map Ident.rtxRTypeName)).toList ++ ')' :: rest) =
      some (ps.map fun p => (p, Word.blank), ')' :: rest) := by
  cases ps with
  | nil =>
    show readAllParams (')' :: rest) = _
    rw [readAllParams, rtxParam_close]
    rfl
  | cons p ps =>
    obtain ⟨hp, hps⟩ := List.forall_mem_cons.1 hps
    have hlength : ps.length ≤ (restText ps ++ ')' :: rest).length := by
      rw [List.length_append]
      exact Nat.le_trans (length_le_restText ps) (Nat.le_add_right _ _)
    rw [toList_intercalate_params, List.append_assoc, readAllParams, rtxParam_append hp (atDelimiter_restText ps rest)]
    show (readParams (restText ps ++ ')' :: rest).length (restText ps ++ ')' :: rest) >>= _) = _
    rw [readParams_append rest hps hlength]
    rfl

/-- **A prototype is read back from its hash**, with no names for its parameters. -/
theorem rtxTemplatePrototype_hash {r : RType} (hr : r.Parsed) (rest : List Char) :
    rtxTemplatePrototype ((hashTemplatePrototype r).toList ++ rest) =
      some ((r, r.params.map fun _ => Word.blank), rest) := by
  have hopen : Stops ('(' :: ((String.intercalate "," (r.params.map Ident.rtxRTypeName)).toList ++ ')' :: rest)) :=
    stops_cons (by decide) (by decide)
  have htext : (hashTemplatePrototype r).toList ++ rest = r.name.rtxRTypeName.toList ++
      '(' :: ((String.intercalate "," (r.params.map Ident.rtxRTypeName)).toList ++ ')' :: rest) := by
    simp [hashTemplatePrototype, RType.rtxRTypeFullQualifiedName, RType.rtxRTypeName]
  have hparams : rtxParameterList
      ('(' :: ((String.intercalate "," (r.params.map Ident.rtxRTypeName)).toList ++ ')' :: rest)) =
        some (r.params.map fun p => (p, Word.blank), rest) := by
    have hclose : skipBlanks (')' :: rest) = ')' :: rest := skipBlanks_of_not_blank (by decide)
    rw [rtxParameterList, skipBlanks_of_not_blank (by decide)]
    simp only [readAllParams_append hr.params, Option.bind_eq_bind, Option.bind_some, hclose]
    rfl
  rw [htext, rtxTemplatePrototype, rtxScopedIdentifier_append hr.name hopen]
  show (rtxParameterList _ >>= _) = _
  rw [hparams]
  simp [Function.comp_def]

/-- **The prototypes that are accepted** are the well-formed ones. -/
theorem parsed_iff {r : RType} :
    (∃ s ids rest, rtxTemplatePrototype s = some ((r, ids), rest)) ↔ r.Parsed := by
  constructor
  · rintro ⟨s, ids, rest, h⟩
    exact parsed_of_rtxTemplatePrototype h
  · intro h
    exact ⟨_, _, _, rtxTemplatePrototype_hash h []⟩

/-- Prototypes with one hash are the same. -/
theorem eq_of_hash_eq {r u : RType} (hr : r.Parsed) (hu : u.Parsed)
    (h : hashTemplatePrototype r = hashTemplatePrototype u) : r = u := by
  have hread := rtxTemplatePrototype_hash hr []
  rw [h, rtxTemplatePrototype_hash hu []] at hread
  exact (Prod.mk.inj (Prod.mk.inj (Option.some.inj hread)).1).1.symm

/-- **Hashes tell prototypes apart.** Two prototypes that have been parsed have one hash exactly when they have the same
name and the same types of parameters, with scopes and marks; and likewise for the full names of pointcuts. -/
theorem hash_eq_iff_of_parsed {s t rest rest' : List Char} {r u : RType} {ids ids' : List Word}
    (hr : rtxTemplatePrototype s = some ((r, ids), rest)) (hu : rtxTemplatePrototype t = some ((u, ids'), rest')) :
    (hashTemplatePrototype r = hashTemplatePrototype u ↔ r.name = u.name ∧ r.params = u.params) ∧
      (r.rtxRTypeFullQualifiedName = u.rtxRTypeFullQualifiedName ↔ r.name = u.name ∧ r.params = u.params) := by
  have hsame : hashTemplatePrototype r = hashTemplatePrototype u ↔ r.name = u.name ∧ r.params = u.params := by
    constructor
    · intro h
      rw [eq_of_hash_eq (parsed_of_rtxTemplatePrototype hr) (parsed_of_rtxTemplatePrototype hu) h]
      exact ⟨rfl, rfl⟩
    · rintro ⟨hname, hparams⟩
      have heq : r = u := by
        obtain ⟨name, params⟩ := r
        cases hname
        cases hparams
        rfl
      rw [heq]
  exact ⟨hsame, hsame⟩

/-- A prototype as it may be written, and the hash of another one. -/
theorem hash_eq_iff_written :
    (rtxTemplatePrototype "LKM::f(a, ::b buf)".toList).map (fun r => hashTemplatePrototype r.1.1) =
        some "LKM::f(a,::b)" ∧
      (hashTemplatePrototype ⟨⟨⟨"LKM", rfl⟩, ⟨"f", rfl⟩, false⟩, [⟨Word.blank, ⟨"a", rfl⟩, false⟩]⟩ =
          hashTemplatePrototype ⟨⟨⟨"LKM", rfl⟩, ⟨"f", rfl⟩, false⟩, [⟨Word.blank, ⟨"a", rfl⟩, true⟩]⟩ ↔
        (⟨⟨"LKM", rfl⟩, ⟨"f", rfl⟩, false⟩ : Ident) = ⟨⟨"LKM", rfl⟩, ⟨"f", rfl⟩, false⟩ ∧
          [(⟨Word.blank, ⟨"a", rfl⟩, false⟩ : Ident)] = [⟨Word.blank, ⟨"a", rfl⟩, true⟩]) :=
  ⟨by decide, (hash_eq_iff_of_parsed (s := "LKM::f(a)".toList) (t := "LKM::f(::a x)".toList) (by rfl) (by rfl)).1⟩

end Parse

end Rathaxes
