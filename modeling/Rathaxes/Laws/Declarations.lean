import Rathaxes.CodeWorker.Text
import Rathaxes.Mid.Interface

/-!
# Finding a declaration by its key and by its parameters

An interface files its sequences and its pointcuts under their names and, below these, under their full
names. For a qualified prototype a lookup builds the full name and reads that key; for another one it
compares the declarations of the name parameter by parameter.

In an interface that has been checked the key of a declaration is its full name, and no parameter is
plain. Two full names are then equal when the parameters match and the same identifiers are marked as global
(`fullName_eq_iff`). The comparison by parameters does not look at the mark of a declared identifier, so
the two ways find the same declarations exactly for the prototypes whose matches have their marks
(`branches_agree_iff`).
-/

set_option autoImplicit false

namespace Rathaxes.Mid

open CodeWorker

/-! ## Names -/

section Names

variable {a b : Ident}

/-- A name begins with a colon when it is global. -/
theorem head?_rtxRTypeName (a : Ident) : a.rtxRTypeName.toList.head? = some ':' ↔ a.global = true := by
  have hscope := a.scope.not_mem_of_not_wordChar (c := ':') (by decide)
  have hname := a.name.not_mem_of_not_wordChar (c := ':') (by decide)
  unfold Ident.rtxRTypeName
  cases hglobal : a.global with
  | true => simp
  | false =>
    by_cases hblank : a.scope.text = ""
    · have hhead : a.name.text.toList.head? ≠ some ':' := fun h => hname (List.mem_of_mem_head? h)
      simpa [hblank] using hhead
    · have hne : a.scope.text.toList ≠ [] := by simpa using hblank
      have hhead : a.scope.text.toList.head? ≠ some ':' := fun h => hscope (List.mem_of_mem_head? h)
      rw [if_neg (by simp [hblank]), if_neg (by simp), String.toList_append, String.toList_append,
        List.append_assoc, List.head?_append_of_ne_nil _ hne]
      simpa using hhead

theorem global_eq_of_rtxRTypeName_eq (h : a.rtxRTypeName = b.rtxRTypeName) : a.global = b.global := by
  rw [Bool.eq_iff_iff, ← head?_rtxRTypeName a, ← head?_rtxRTypeName b, h]

theorem isPlain_eq_false_iff : isPlain a = false ↔ (a.global = false → a.scope ≠ Word.blank) := by
  simp [isPlain]

/-- A name that is not plain has a colon. -/
theorem colon_mem_rtxRTypeName : ':' ∈ a.rtxRTypeName.toList ↔ isPlain a = false := by
  have hname := a.name.not_mem_of_not_wordChar (c := ':') (by decide)
  rw [isPlain_eq_false_iff]
  cases hglobal : a.global with
  | true => simp [rtxRTypeName_of_global hglobal]
  | false =>
    by_cases hscope : a.scope = Word.blank
    · simpa [Ident.rtxRTypeName, hglobal, hscope, Word.blank] using hname
    · simp [rtxRTypeName_of_scoped hglobal hscope, hscope]

/-- Something is written for a name that is not plain. -/
theorem rtxRTypeName_ne_of_not_plain (h : isPlain a = false) : a.rtxRTypeName ≠ "" := by
  intro hempty
  have hcolon := colon_mem_rtxRTypeName.2 h
  rw [hempty] at hcolon
  simp at hcolon

theorem rtxRTypeName_of_plain (h : isPlain a = true) : a.rtxRTypeName = a.name.text := by
  simp only [isPlain, decide_eq_true_eq] at h
  exact rtxRTypeName_of_blank h.1 h.2

/-- Something is written for a word. -/
theorem rtxRTypeName_ne_of_named (h : a.name ≠ Word.blank) : a.rtxRTypeName ≠ "" := by
  cases hplain : isPlain a with
  | false => exact rtxRTypeName_ne_of_not_plain hplain
  | true =>
    rw [rtxRTypeName_of_plain hplain]
    intro hempty
    exact h (Word.ext hempty)

/-- **Identifiers that are not plain** are written alike when they match and both or none is global. -/
theorem rtxRTypeName_eq_iff (ha : isPlain a = false) (hb : isPlain b = false) :
    a.rtxRTypeName = b.rtxRTypeName ↔ paramMatches a b = true ∧ a.global = b.global := by
  rw [isPlain_eq_false_iff] at ha hb
  have hmarks : a.rtxRTypeName = b.rtxRTypeName → a.global = b.global := global_eq_of_rtxRTypeName_eq
  cases hga : a.global with
  | true =>
    cases hgb : b.global with
    | true =>
      rw [rtxRTypeName_of_global hga, rtxRTypeName_of_global hgb, String.append_right_inj]
      simp [paramMatches, hgb, Word.text_injective.eq_iff]
    | false =>
      simp only [hga, hgb] at hmarks
      simpa using hmarks
  | false =>
    cases hgb : b.global with
    | true =>
      simp only [hga, hgb] at hmarks
      simpa using hmarks
    | false =>
      have hsa := ha hga
      have hsb := hb hgb
      rw [rtxRTypeName_of_scoped hga hsa, rtxRTypeName_of_scoped hgb hsb]
      simp only [paramMatches, hgb, hsb, decide_eq_true_eq, ne_eq, not_false_eq_true, true_and,
        not_not, and_true]
      refine ⟨fun h => ?_, fun h => by rw [h.1, h.2]⟩
      have hlist := congrArg String.toList h
      simp only [String.toList_append, List.append_assoc] at hlist
      obtain ⟨hscope, hname⟩ := split_first_unique (a.scope.not_mem_of_not_wordChar (by decide))
        (b.scope.not_mem_of_not_wordChar (by decide)) hlist
      exact ⟨Word.ext (String.toList_injective (List.cons.inj hname).2),
        (Word.ext (String.toList_injective hscope)).symm⟩

/-- Names of different scopes are written differently. -/
theorem scope_eq_of_rtxRTypeName_eq (ha : a.scope ≠ Word.blank) (hb : b.scope ≠ Word.blank)
    (hglobal : b.global = false) (h : a.rtxRTypeName = b.rtxRTypeName) : a.scope = b.scope := by
  have hplain : ∀ {i : Ident}, i.scope ≠ Word.blank → isPlain i = false :=
    fun hscope => isPlain_eq_false_iff.2 fun _ => hscope
  have hmatch := ((rtxRTypeName_eq_iff (hplain ha) (hplain hb)).1 h).1
  simp only [paramMatches, hglobal, hb, decide_eq_true_eq, ne_eq, not_false_eq_true, true_and,
    not_not] at hmatch
  exact hmatch.2.symm

theorem isPlain_eq_of_rtxRTypeName_eq (h : a.rtxRTypeName = b.rtxRTypeName) : isPlain a = isPlain b := by
  rw [← Bool.not_inj_iff, Bool.eq_iff_iff, Bool.not_eq_true', Bool.not_eq_true', ← colon_mem_rtxRTypeName,
    ← colon_mem_rtxRTypeName, h]

/-- Identifiers that are written alike have one name. -/
theorem name_eq_of_rtxRTypeName_eq (h : a.rtxRTypeName = b.rtxRTypeName) : a.name = b.name := by
  have hplain := isPlain_eq_of_rtxRTypeName_eq h
  cases ha : isPlain a with
  | true =>
    rw [rtxRTypeName_of_plain ha, rtxRTypeName_of_plain (hplain ▸ ha)] at h
    exact Word.ext h
  | false =>
    have hmatch := ((rtxRTypeName_eq_iff ha (hplain ▸ ha)).1 h).1
    simp only [paramMatches, decide_eq_true_eq] at hmatch
    exact hmatch.1

/-- The names of parameters are written alike when the parameters match and have the same marks. -/
theorem map_rtxRTypeName_eq_iff : ∀ {as bs : List Ident},
    (∀ a ∈ as, isPlain a = false) → (∀ b ∈ bs, isPlain b = false) →
    (as.map Ident.rtxRTypeName = bs.map Ident.rtxRTypeName ↔
      (as.length = bs.length ∧ (as.zip bs).all (fun types => paramMatches types.1 types.2) = true) ∧
        as.map Ident.global = bs.map Ident.global)
  | [], [], _, _ => by simp
  | [], b :: bs, _, _ => by simp
  | a :: as, [], _, _ => by simp
  | a :: as, b :: bs, has, hbs => by
    obtain ⟨ha, has⟩ := List.forall_mem_cons.1 has
    obtain ⟨hb, hbs⟩ := List.forall_mem_cons.1 hbs
    have hhead := rtxRTypeName_eq_iff ha hb
    have htail := map_rtxRTypeName_eq_iff has hbs
    simp only [List.map_cons, List.cons.injEq, List.length_cons, Nat.add_right_cancel_iff,
      List.zip_cons_cons, List.all_cons, Bool.and_eq_true]
    rw [hhead, htail, and_and_and_comm]
    exact and_congr_left' and_left_comm

end Names

theorem isQualified_iff {rtype : RType} :
    isQualified rtype = true ↔ (∀ p ∈ rtype.params, isPlain p = false) ∧ isPlain rtype.name = false := by
  simp [isQualified]

theorem isPlain_withScope {rtype : RType} {scope : Word} (h : scope ≠ Word.blank) :
    isPlain (withScope rtype scope).name = false :=
  isPlain_eq_false_iff.2 fun _ => h

/-- A qualified prototype stays one with another scope. -/
theorem isQualified_withScope {prototype : RType} {scope : Word} (hscope : scope ≠ Word.blank)
    (h : isQualified prototype = true) : isQualified (withScope prototype scope) = true :=
  isQualified_iff.2 ⟨(isQualified_iff.1 h).1, isPlain_withScope hscope⟩

/-! ## Full names -/

/-- The same identifiers are marked as global. -/
def SameMarks (declared prototype : RType) : Prop :=
  declared.name.global = prototype.name.global ∧
    declared.params.map Ident.global = prototype.params.map Ident.global

instance (declared prototype : RType) : Decidable (SameMarks declared prototype) :=
  inferInstanceAs (Decidable (_ ∧ _))

section FullNames

variable {t u : RType}

/-- The first parenthesis ends the name, the last one the parameters. -/
theorem fullName_parts (h : t.rtxRTypeFullQualifiedName = u.rtxRTypeFullQualifiedName) :
    t.name.rtxRTypeName = u.name.rtxRTypeName ∧
      String.intercalate "," (t.params.map Ident.rtxRTypeName) =
        String.intercalate "," (u.params.map Ident.rtxRTypeName) := by
  unfold RType.rtxRTypeFullQualifiedName RType.rtxRTypeName at h
  have hlist := congrArg String.toList h
  simp only [String.toList_append, List.append_assoc] at hlist
  obtain ⟨hname, htail⟩ := split_first_unique (t.name.not_mem_rtxRTypeName (by decide) (by decide))
    (u.name.not_mem_rtxRTypeName (by decide) (by decide)) hlist
  change _ ++ ")".toList = _ ++ ")".toList at htail
  exact ⟨String.toList_injective hname, String.toList_injective (List.append_cancel_right htail)⟩

/-- What is written for the parameters can be read back from a full name. -/
theorem fullName_eq_iff_written (ht : ∀ p ∈ t.params, p.rtxRTypeName ≠ "")
    (hu : ∀ p ∈ u.params, p.rtxRTypeName ≠ "") :
    t.rtxRTypeFullQualifiedName = u.rtxRTypeFullQualifiedName ↔
      t.name.rtxRTypeName = u.name.rtxRTypeName ∧
        t.params.map Ident.rtxRTypeName = u.params.map Ident.rtxRTypeName := by
  have hparts : ∀ {ps : List Ident}, (∀ p ∈ ps, p.rtxRTypeName ≠ "") →
      ∀ s ∈ (ps.map Ident.rtxRTypeName).map String.toList, s ≠ [] ∧ ',' ∉ s := by
    intro ps hps s hs
    obtain ⟨text, htext, rfl⟩ := List.mem_map.1 hs
    obtain ⟨p, hp, rfl⟩ := List.mem_map.1 htext
    refine ⟨?_, p.not_mem_rtxRTypeName (by decide) (by decide)⟩
    intro hnil
    exact hps p hp (String.toList_eq_nil_iff.1 hnil)
  constructor
  · intro h
    obtain ⟨hname, hparams⟩ := fullName_parts h
    have hlist := congrArg String.toList hparams
    simp only [String.toList_intercalate] at hlist
    have hmap := intercalate_inj (hparts ht) (hparts hu) hlist
    exact ⟨hname, List.map_injective_iff.2 (fun _ _ => String.toList_injective) hmap⟩
  · rintro ⟨hname, hparams⟩
    unfold RType.rtxRTypeFullQualifiedName RType.rtxRTypeName
    rw [hname, hparams]

/-- The names of parameters can be read back from a full name. -/
theorem fullName_eq_iff_names (ht : ∀ p ∈ t.params, isPlain p = false)
    (hu : ∀ p ∈ u.params, isPlain p = false) :
    t.rtxRTypeFullQualifiedName = u.rtxRTypeFullQualifiedName ↔
      t.name.rtxRTypeName = u.name.rtxRTypeName ∧
        t.params.map Ident.rtxRTypeName = u.params.map Ident.rtxRTypeName :=
  fullName_eq_iff_written (fun p hp => rtxRTypeName_ne_of_not_plain (ht p hp))
    fun p hp => rtxRTypeName_ne_of_not_plain (hu p hp)

/-- **A declared full name is that of a qualified prototype** when the parameters match and the marks are
the same. -/
theorem fullName_eq_iff {scope : Word} (hname : t.name.name = u.name.name)
    (hscope : t.name.global = false → t.name.scope = scope)
    (ht : ∀ p ∈ t.params, isPlain p = false) (hu : ∀ p ∈ u.params, isPlain p = false) :
    t.rtxRTypeFullQualifiedName = (withScope u scope).rtxRTypeFullQualifiedName ↔
      paramsMatch t u = true ∧ SameMarks t u := by
  have hnames : t.name.rtxRTypeName = (withScope u scope).name.rtxRTypeName ↔
      t.name.global = u.name.global := by
    refine ⟨global_eq_of_rtxRTypeName_eq, fun hglobal => ?_⟩
    cases hg : t.name.global with
    | true =>
      have hg' : (withScope u scope).name.global = true := hglobal.symm.trans hg
      rw [rtxRTypeName_of_global hg, rtxRTypeName_of_global hg', hname]
      rfl
    | false => simp [Ident.rtxRTypeName, withScope, hname, hscope hg, ← hglobal]
  have hparams : (withScope u scope).params = u.params := rfl
  rw [fullName_eq_iff_names ht (by rwa [hparams]), hnames, hparams, map_rtxRTypeName_eq_iff ht hu]
  unfold paramsMatch SameMarks
  simp only [Bool.and_eq_true, decide_eq_true_eq]
  exact and_left_comm

end FullNames

/-! ## Interfaces that have been checked -/

/-- What the check makes of a declaration: it is filed under its name and its full name, its scope is its
interface, and its parameters are qualified. -/
structure DeclChecked (itfName : Word) (name key : String) (decl : ItfDecl) : Prop where
  name : name = decl.rtype.name.name.text
  key : key = decl.rtype.rtxRTypeFullQualifiedName
  scope : decl.rtype.name.global = false → decl.rtype.name.scope = itfName
  params : ∀ p ∈ decl.rtype.params, isPlain p = false

instance (itfName : Word) (name key : String) (decl : ItfDecl) :
    Decidable (DeclChecked itfName name key decl) :=
  decidable_of_iff (name = decl.rtype.name.name.text ∧ key = decl.rtype.rtxRTypeFullQualifiedName ∧
      (decl.rtype.name.global = false → decl.rtype.name.scope = itfName) ∧
      ∀ p ∈ decl.rtype.params, isPlain p = false)
    ⟨fun h => ⟨h.1, h.2.1, h.2.2.1, h.2.2.2⟩, fun h => ⟨h.name, h.key, h.scope, h.params⟩⟩

/-- All declarations of a table are of this kind. -/
def TableChecked (itfName : Word) (table : Table (Table ItfDecl)) : Prop :=
  ∀ byName ∈ table.entries, ∀ e ∈ byName.2.entries, DeclChecked itfName byName.1 e.1 e.2

instance (itfName : Word) (table : Table (Table ItfDecl)) : Decidable (TableChecked itfName table) :=
  inferInstanceAs (Decidable (∀ byName ∈ table.entries, ∀ e ∈ byName.2.entries, _))

/-- The declarations of an interface have been checked. A global pointcut is not filed. -/
structure Itf.Checked (itf : Itf) : Prop where
  sequences : TableChecked itf.name itf.sequences
  pointcuts : TableChecked itf.name itf.pointcuts
  notGlobal : ∀ byName ∈ itf.pointcuts.entries, ∀ e ∈ byName.2.entries, e.2.rtype.name.global = false

instance (itf : Itf) : Decidable itf.Checked :=
  decidable_of_iff (TableChecked itf.name itf.sequences ∧ TableChecked itf.name itf.pointcuts ∧
      ∀ byName ∈ itf.pointcuts.entries, ∀ e ∈ byName.2.entries, e.2.rtype.name.global = false)
    ⟨fun h => ⟨h.1, h.2.1, h.2.2⟩, fun h => ⟨h.sequences, h.pointcuts, h.notGlobal⟩⟩

theorem TableChecked.get? {itfName : Word} {table : Table (Table ItfDecl)}
    (h : TableChecked itfName table) {name key : String} {decls : Table ItfDecl} {decl : ItfDecl}
    (hname : table.get? name = some decls) (hkey : decls.get? key = some decl) :
    DeclChecked itfName name key decl :=
  h (name, decls) ((table.mem_entries_iff _ _).2 hname) (key, decl) ((decls.mem_entries_iff _ _).2 hkey)

theorem Itf.Checked.notGlobal_get? {itf : Itf} (h : itf.Checked) {name key : String}
    {decls : Table ItfDecl} {decl : ItfDecl} (hname : itf.pointcuts.get? name = some decls)
    (hkey : decls.get? key = some decl) : decl.rtype.name.global = false :=
  h.notGlobal (name, decls) ((itf.pointcuts.mem_entries_iff _ _).2 hname) (key, decl)
    ((decls.mem_entries_iff _ _).2 hkey)

/-! ## The two ways -/

/-- The declarations of a name whose parameters match, with their keys. -/
def matching (table : Table (Table ItfDecl)) (prototype : RType) : List (String × ItfDecl) :=
  match table.get? prototype.name.name.text with
  | none => []
  | some decls => decls.entries.filter fun e => paramsMatch e.2.rtype prototype

theorem mem_matching_iff {table : Table (Table ItfDecl)} {prototype : RType} {key : String}
    {decl : ItfDecl} : (key, decl) ∈ matching table prototype ↔
      ∃ decls, table.get? prototype.name.name.text = some decls ∧ decls.get? key = some decl ∧
        paramsMatch decl.rtype prototype = true := by
  unfold matching
  cases table.get? prototype.name.name.text with
  | none => simp
  | some decls => simp [Table.mem_entries_iff]

theorem nodup_keys_matching (table : Table (Table ItfDecl)) (prototype : RType) :
    ((matching table prototype).map Prod.fst).Nodup := by
  unfold matching
  cases table.get? prototype.name.name.text with
  | none => exact List.nodup_nil
  | some decls => exact decls.nodup.sublist (List.filter_sublist.map _)

theorem key_of_mem_matching {itfName : Word} {table : Table (Table ItfDecl)} {prototype : RType}
    (hchecked : TableChecked itfName table) {key : String} {decl : ItfDecl}
    (h : (key, decl) ∈ matching table prototype) : key = decl.rtype.rtxRTypeFullQualifiedName := by
  obtain ⟨decls, hdecls, hd, -⟩ := mem_matching_iff.1 h
  exact (hchecked.get? hdecls hd).key

/-- The key a qualified prototype is looked for under. -/
def exactKey (itfName : Word) (prototype : RType) : String :=
  (withScope prototype itfName).rtxRTypeFullQualifiedName

/-- The declaration under this key. -/
def exactMatch (itfName : Word) (table : Table (Table ItfDecl)) (prototype : RType) : Option ItfDecl :=
  (table.get? prototype.name.name.text).bind fun decls => decls.get? (exactKey itfName prototype)

/-- **The key finds the matches with the same marks**, each under its own key. -/
theorem exactMatch_eq_some_iff {itfName : Word} {table : Table (Table ItfDecl)} {prototype : RType}
    (hchecked : TableChecked itfName table) (hqualified : isQualified prototype = true) {key : String}
    {decl : ItfDecl} :
    exactKey itfName prototype = key ∧ exactMatch itfName table prototype = some decl ↔
      (key, decl) ∈ matching table prototype ∧ SameMarks decl.rtype prototype := by
  have hparams := (isQualified_iff.1 hqualified).1
  -- what stands under the name has the full name of the prototype when it matches with the same marks
  have hfull : ∀ {decls key d}, table.get? prototype.name.name.text = some decls →
      decls.get? key = some d → (key = exactKey itfName prototype ↔
        paramsMatch d.rtype prototype = true ∧ SameMarks d.rtype prototype) := by
    intro decls key d hdecls hd
    have hd := hchecked.get? hdecls hd
    rw [hd.key]
    exact fullName_eq_iff (Word.ext hd.name.symm) hd.scope hd.params hparams
  rw [mem_matching_iff]
  unfold exactMatch
  rw [Option.bind_eq_some_iff]
  constructor
  · rintro ⟨rfl, decls, hdecls, hd⟩
    obtain ⟨hmatch, hmarks⟩ := (hfull hdecls hd).1 rfl
    exact ⟨⟨decls, hdecls, hd, hmatch⟩, hmarks⟩
  · rintro ⟨⟨decls, hdecls, hd, hmatch⟩, hmarks⟩
    obtain rfl := (hfull hdecls hd).2 ⟨hmatch, hmarks⟩
    exact ⟨rfl, decls, hdecls, hd⟩

/-! ## Sequences -/

namespace SequenceSearch

variable (s : SequenceSearch) (itf : Itf)

/-- The search by parameters, for any prototype. -/
def byParameters : SequenceSearch :=
  { s with possibilities := s.possibilities ++ (matching itf.sequences s.prototype).map Prod.snd }

/-- A prototype that is not qualified is looked for by parameters. -/
theorem defines_of_not_qualified (h : isQualified s.prototype = false) :
    s.defines itf = (false, s.byParameters itf) := by
  unfold defines byParameters matching
  cases itf.sequences.get? s.prototype.name.name.text with
  | none => simp
  | some decls => simp [h]

/-- A qualified one is looked for by its key. -/
theorem defines_of_qualified (h : isQualified s.prototype = true) :
    s.defines itf = ((exactMatch itf.name itf.sequences s.prototype).isSome,
      { s with possibilities := s.possibilities ++
          (exactMatch itf.name itf.sequences s.prototype).toList }) := by
  unfold defines exactMatch exactKey
  split
  · rename_i hname
    simp [hname]
  · rename_i decls hname
    simp only [hname, h, if_true, Option.bind_some]
    cases decls.get? (withScope s.prototype itf.name).rtxRTypeFullQualifiedName <;> simp

end SequenceSearch

/-- For this prototype the lookup finds a sequence when the search by parameters would, and the same one. -/
structure SequencesAgree (itf : Itf) (prototype : RType) : Prop where
  found : ((SequenceSearch.mk prototype []).defines itf).1 = true ↔
    ((SequenceSearch.mk prototype []).byParameters itf).possibilities ≠ []
  same : ∀ decl, decl ∈ ((SequenceSearch.mk prototype []).defines itf).2.possibilities ↔
    decl ∈ ((SequenceSearch.mk prototype []).byParameters itf).possibilities

/-! ## Pointcuts -/

namespace PointcutSearch

variable (s : PointcutSearch) (itf : Itf)

/-- The search by parameters, for any prototype. -/
def byParameters : PointcutSearch :=
  { s with possibilities :=
      (matching itf.pointcuts s.rtype).foldl (fun t e => t.set e.1 e.2) s.possibilities }

/-- A prototype that is not qualified is looked for by parameters. -/
theorem defines_of_not_qualified (h : isQualified s.rtype = false) :
    s.defines itf = (false, s.byParameters itf) := by
  unfold defines byParameters matching
  cases itf.pointcuts.get? s.rtype.name.name.text with
  | none => simp
  | some decls => simp [h]

/-- What an interface that is asked can do: without the name nothing, a qualified pointcut is looked for by its key and
takes the interface for its scope, another one collects what matches. -/
inductive Asked : Bool × PointcutSearch → Prop
  | absent (hname : itf.pointcuts.get? s.rtype.name.name.text = none) : Asked (false, s)
  | found {decls : Table ItfDecl} {decl : ItfDecl} (hname : itf.pointcuts.get? s.rtype.name.name.text = some decls)
      (hqualified : isQualified s.rtype = true) (hkey : decls.get? (exactKey itf.name s.rtype) = some decl) :
      Asked (true, { s with
        rtype := withScope s.rtype itf.name
        possibilities := s.possibilities.set (exactKey itf.name s.rtype) decl })
  | missed (hqualified : isQualified s.rtype = true) : Asked (false, { s with rtype := withScope s.rtype itf.name })
  | collected (hqualified : isQualified s.rtype = false) : Asked (false, s.byParameters itf)

theorem asked : s.Asked itf (s.defines itf) := by
  cases hqualified : isQualified s.rtype with
  | false =>
    rw [s.defines_of_not_qualified itf hqualified]
    exact .collected hqualified
  | true =>
    unfold defines
    cases hname : itf.pointcuts.get? s.rtype.name.name.text with
    | none => exact .absent hname
    | some decls =>
      simp only [hqualified, if_true]
      cases hkey : decls.get? (exactKey itf.name s.rtype) with
      | none =>
        unfold exactKey at hkey
        rw [hkey]
        exact .missed hqualified
      | some decl =>
        have hfound := Asked.found hname hqualified hkey
        unfold exactKey at hkey hfound
        rw [hkey]
        exact hfound

/-- What a lookup of a qualified one finds. -/
theorem defines_of_qualified (h : isQualified s.rtype = true) :
    (s.defines itf).1 = (exactMatch itf.name itf.pointcuts s.rtype).isSome ∧
      (s.defines itf).2.possibilities =
        match exactMatch itf.name itf.pointcuts s.rtype with
        | some decl => s.possibilities.set (exactKey itf.name s.rtype) decl
        | none => s.possibilities := by
  unfold defines exactMatch exactKey
  split
  · rename_i hname
    simp [hname]
  · rename_i decls hname
    simp only [hname, h, if_true, Option.bind_some]
    cases decls.get? (withScope s.rtype itf.name).rtxRTypeFullQualifiedName <;> simp

end PointcutSearch

/-- For this prototype the lookup finds a pointcut when the search by parameters would, and the same one. -/
structure PointcutsAgree (itf : Itf) (prototype : RType) : Prop where
  found : ((PointcutSearch.mk prototype Table.empty []).defines itf).1 = true ↔
    ∃ key, (((PointcutSearch.mk prototype Table.empty []).byParameters itf).possibilities.get? key).isSome
  same : ∀ key, ((PointcutSearch.mk prototype Table.empty []).defines itf).2.possibilities.get? key =
    ((PointcutSearch.mk prototype Table.empty []).byParameters itf).possibilities.get? key

/-! ## When they agree -/

/-- All matches have the marks of the prototype. -/
def MarksAgree (table : Table (Table ItfDecl)) (prototype : RType) : Prop :=
  ∀ e ∈ matching table prototype, SameMarks e.2.rtype prototype

section Agreement

variable {itf : Itf} {prototype : RType}

theorem sequencesAgree_iff (hchecked : TableChecked itf.name itf.sequences)
    (hqualified : isQualified prototype = true) :
    SequencesAgree itf prototype ↔ MarksAgree itf.sequences prototype := by
  have hdefines := SequenceSearch.defines_of_qualified ⟨prototype, []⟩ itf hqualified
  constructor
  · intro h e he
    have hfound := (h.same e.2).2 (List.mem_map_of_mem he)
    rw [hdefines] at hfound
    have hexact : exactMatch itf.name itf.sequences prototype = some e.2 := by simpa using hfound
    exact ((exactMatch_eq_some_iff hchecked hqualified).1 ⟨rfl, hexact⟩).2
  · intro h
    have hmem : ∀ decl, exactMatch itf.name itf.sequences prototype = some decl ↔
        ∃ key, (key, decl) ∈ matching itf.sequences prototype := by
      refine fun decl => ⟨fun hd => ?_, fun hmatch => ?_⟩
      · exact ⟨_, ((exactMatch_eq_some_iff hchecked hqualified).1 ⟨rfl, hd⟩).1⟩
      · obtain ⟨key, hkey⟩ := hmatch
        exact ((exactMatch_eq_some_iff hchecked hqualified).2 ⟨hkey, h _ hkey⟩).2
    constructor
    · rw [hdefines, Option.isSome_iff_exists]
      simp only [hmem]
      simp [SequenceSearch.byParameters, -List.map_eq_nil_iff, List.eq_nil_iff_forall_not_mem]
    · intro decl
      rw [hdefines]
      simpa [SequenceSearch.byParameters] using hmem decl

theorem pointcutsAgree_iff (hchecked : TableChecked itf.name itf.pointcuts)
    (hqualified : isQualified prototype = true) :
    PointcutsAgree itf prototype ↔ MarksAgree itf.pointcuts prototype := by
  obtain ⟨hfound, hpossible⟩ :=
    PointcutSearch.defines_of_qualified ⟨prototype, Table.empty, []⟩ itf hqualified
  have hget : ∀ key decl,
      ((PointcutSearch.mk prototype Table.empty []).defines itf).2.possibilities.get? key = some decl ↔
        exactKey itf.name prototype = key ∧ exactMatch itf.name itf.pointcuts prototype = some decl := by
    intro key decl
    rw [hpossible]
    cases exactMatch itf.name itf.pointcuts prototype with
    | none => simp
    | some d => simp [Table.get?_set, eq_comm]
  have hparameters : ∀ key decl,
      ((PointcutSearch.mk prototype Table.empty []).byParameters itf).possibilities.get? key =
        some decl ↔ (key, decl) ∈ matching itf.pointcuts prototype :=
    fun key decl => Table.get?_foldl_set_empty (nodup_keys_matching itf.pointcuts prototype)
  constructor
  · intro h e he
    have hsame := (hparameters e.1 e.2).2 he
    rw [← h.same, hget] at hsame
    exact ((exactMatch_eq_some_iff hchecked hqualified).1 hsame).2
  · intro h
    have hsame : ∀ key decl, _ ↔ _ := fun key decl => (hget key decl).trans
      ((exactMatch_eq_some_iff hchecked hqualified).trans (and_iff_left_of_imp (h (key, decl))))
    constructor
    · rw [hfound, Option.isSome_iff_exists]
      simp only [Option.isSome_iff_exists, hparameters, ← hsame, hget]
      simp
    · intro key
      exact Option.ext fun decl => (hsame key decl).trans (hparameters key decl).symm

/-- **The two ways of finding a declaration** agree on the qualified prototypes whose matches have their
marks. -/
theorem branches_agree_iff (itf : Itf) (hchecked : itf.Checked) (prototype : RType)
    (hqualified : isQualified prototype = true) :
    (SequencesAgree itf prototype ↔ MarksAgree itf.sequences prototype) ∧
      (PointcutsAgree itf prototype ↔ MarksAgree itf.pointcuts prototype) :=
  ⟨sequencesAgree_iff hchecked.sequences hqualified, pointcutsAgree_iff hchecked.pointcuts hqualified⟩

end Agreement

/-! ## A parameter written as global -/

/-- An interface with a sequence `init(LKM::dev)` and a pointcut with the same parameter. -/
def markedItf : Itf :=
  let LKM : Word := ⟨"LKM", .refl true⟩
  let dev : Ident := rtxNodeIdentifier ⟨"dev", .refl true⟩ LKM
  let decl (name : Word) : Table (Table ItfDecl) :=
    let d : ItfDecl := ⟨⟨rtxNodeIdentifier name LKM, [dev]⟩, some .provided⟩
    Table.empty.set name.text (Table.empty.set d.rtype.rtxRTypeFullQualifiedName d)
  ⟨LKM, [⟨"dev", .refl true⟩], decl ⟨"hook", .refl true⟩, decl ⟨"init", .refl true⟩, []⟩

/-- A prototype `LKM::init(LKM::dev)`, or with `::dev`. -/
def markedPrototype (name : Word) (global : Bool) : RType :=
  ⟨rtxNodeIdentifier name ⟨"LKM", .refl true⟩,
    [⟨if global then Word.blank else ⟨"LKM", .refl true⟩, ⟨"dev", .refl true⟩, global⟩]⟩

theorem branches_agree_init :
    (SequencesAgree markedItf (markedPrototype ⟨"init", rfl⟩ false) ↔
      MarksAgree markedItf.sequences (markedPrototype ⟨"init", rfl⟩ false)) ∧
    (PointcutsAgree markedItf (markedPrototype ⟨"init", rfl⟩ false) ↔
      MarksAgree markedItf.pointcuts (markedPrototype ⟨"init", rfl⟩ false)) :=
  branches_agree_iff markedItf (by decide) (markedPrototype ⟨"init", rfl⟩ false)
    (by decide)

/-- For `LKM::init(::dev)` the key finds nothing, and the parameters find `init(LKM::dev)`; so for the
pointcut. -/
theorem global_parameter_missed : markedItf.Checked ∧
    (let s : SequenceSearch := ⟨markedPrototype ⟨"init", rfl⟩ true, []⟩
     isQualified s.prototype = true ∧ (s.defines markedItf).1 = false ∧
      (s.byParameters markedItf).possibilities =
        [⟨markedPrototype ⟨"init", rfl⟩ false, some .provided⟩]) ∧
    (let s : PointcutSearch := ⟨markedPrototype ⟨"hook", rfl⟩ true, Table.empty, []⟩
     isQualified s.rtype = true ∧ (s.defines markedItf).1 = false ∧
      (s.byParameters markedItf).possibilities.entries =
        [("LKM::hook(LKM::dev)", ⟨markedPrototype ⟨"hook", rfl⟩ false, some .provided⟩)]) := by
  decide

end Rathaxes.Mid
