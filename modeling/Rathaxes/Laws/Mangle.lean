import Rathaxes.CodeWorker.Text
import Rathaxes.Resolve.Mangle

/-!
# When C names of types are distinct

The name of a type is its interface and its own name with an underscore between them, that of a reference
has `_ptr` behind. Identifiers may hold underscores themselves, so the place of the separator cannot be
told from the text: `A_b::c` and `A::b_c` have one name, and so have a reference to `A::c` and the type
`A::c_ptr`. These are the only ways in which two names meet (`mangled_eq_iff`).
-/

set_option autoImplicit false

namespace Rathaxes.Resolve

open CodeWorker

/-! ## References to types -/

/-- A type, or a reference to it, as the mangling sees it. -/
structure TypeRef where
  scope : Word
  name : Word
  isPointer : Bool
deriving DecidableEq

/-- A type with the kind of access. -/
def typeRef (theRtype : RType) (isPointer : Bool) : TypeRef :=
  ⟨theRtype.name.scope, theRtype.name.name, isPointer⟩

namespace TypeRef

/-- The name with the suffix of a reference. -/
def stem (a : TypeRef) : List Char := a.name.text.toList ++ if a.isPointer then "_ptr".toList else []

/-- The C name. -/
def mangled (a : TypeRef) : String := mangleTypeName ⟨⟨a.scope, a.name, false⟩, []⟩ a.isPointer

theorem mangled_toList (a : TypeRef) :
    a.mangled.toList = "rtxType_".toList ++ (a.scope.text.toList ++ '_' :: a.stem) := by
  unfold mangled mangleTypeName stem
  cases a.isPointer <;> simp [String.toList_append]

/-- The second name stands at the end of the first, behind a longer interface: what the second has more in
its interface, the first has in its name. Or it is a reference, and the first has the suffix in its
name. -/
inductive Overlaps (a b : TypeRef) : Prop where
  | scope (t : List Char) (hscope : b.scope.text.toList = a.scope.text.toList ++ '_' :: t)
      (hstem : a.stem = t ++ '_' :: b.stem)
  | suffix (hscope : a.scope = b.scope) (htype : a.isPointer = false) (href : b.isPointer = true)
      (hname : a.name.text = b.name.text ++ "_ptr")

/-- References in one interface with one stem are the same, or one has the suffix in its name. -/
theorem stem_eq_iff {a b : TypeRef} (hscope : a.scope = b.scope) :
    a.stem = b.stem ↔ a = b ∨
      (a.isPointer = false ∧ b.isPointer = true ∧ a.name.text = b.name.text ++ "_ptr") ∨
      (b.isPointer = false ∧ a.isPointer = true ∧ b.name.text = a.name.text ++ "_ptr") := by
  obtain ⟨scope, name, isPointer⟩ := a
  obtain ⟨scope', name', isPointer'⟩ := b
  cases hscope
  have htext : ∀ u v : Word, u.text.toList = v.text.toList ↔ u = v :=
    fun u v => String.toList_inj.trans Word.text_injective.eq_iff
  have hptr : ∀ u v : Word, u.text.toList = v.text.toList ++ "_ptr".toList ↔
      u.text = v.text ++ "_ptr" := by
    intro u v
    rw [← String.toList_append, String.toList_inj]
  unfold stem
  cases isPointer with
  | false =>
    cases isPointer' with
    | false => simp [htext]
    | true =>
      rw [if_neg Bool.false_ne_true, if_pos rfl, List.append_nil, hptr]
      simp
  | true =>
    cases isPointer' with
    | false =>
      rw [if_pos rfl, if_neg Bool.false_ne_true, List.append_nil, eq_comm, hptr]
      simp
    | true => simp [htext]

end TypeRef

open TypeRef

/-- **Two C names are equal** only for one type and one kind of access, or when one overlaps the other. -/
theorem mangled_eq_iff {a b : TypeRef} :
    a.mangled = b.mangled ↔ a = b ∨ Overlaps a b ∨ Overlaps b a := by
  rw [← String.toList_inj, mangled_toList, mangled_toList, List.append_cancel_left_eq,
    split_eq_split_iff]
  constructor
  · rintro (⟨hscope, hstem⟩ | ⟨t, hscope, hstem⟩ | ⟨t, hscope, hstem⟩)
    · have hscope' := Word.text_injective (String.toList_inj.1 hscope)
      rcases (stem_eq_iff hscope').1 hstem with rfl | ⟨htype, href, hname⟩ | ⟨htype, href, hname⟩
      · exact Or.inl rfl
      · exact Or.inr (Or.inl (.suffix hscope' htype href hname))
      · exact Or.inr (Or.inr (.suffix hscope'.symm htype href hname))
    · exact Or.inr (Or.inl (.scope t hscope hstem))
    · exact Or.inr (Or.inr (.scope t hscope hstem))
  · rintro (rfl | (⟨t, hscope, hstem⟩ | ⟨hscope, htype, href, hname⟩) |
      (⟨t, hscope, hstem⟩ | ⟨hscope, htype, href, hname⟩))
    · exact Or.inl ⟨rfl, rfl⟩
    · exact Or.inr (Or.inl ⟨t, hscope, hstem⟩)
    · refine Or.inl ⟨by rw [hscope], (stem_eq_iff hscope).2 ?_⟩
      exact Or.inr (Or.inl ⟨htype, href, hname⟩)
    · exact Or.inr (Or.inr ⟨t, hscope, hstem⟩)
    · refine Or.inl ⟨by rw [hscope], (stem_eq_iff hscope.symm).2 ?_⟩
      exact Or.inr (Or.inr ⟨htype, href, hname⟩)

/-! ## The types of a program -/

/-- The types of a program and the references to them. -/
def refsOf (types : List RType) : List TypeRef :=
  types.flatMap fun theRtype => [typeRef theRtype false, typeRef theRtype true]

theorem mem_refsOf {types : List RType} {a : TypeRef} :
    a ∈ refsOf types ↔ ∃ theRtype ∈ types, ∃ isPointer, a = typeRef theRtype isPointer := by
  unfold refsOf
  rw [List.mem_flatMap]
  refine exists_congr fun theRtype => and_congr_right fun _ => ?_
  rw [List.mem_pair]
  constructor
  · rintro (h | h)
    · exact ⟨false, h⟩
    · exact ⟨true, h⟩
  · rintro ⟨isPointer, h⟩
    cases isPointer
    · exact Or.inl h
    · exact Or.inr h

/-- The typedef of a type and that of the references to it. -/
inductive EmitsFor (theRtype : RType) (declType : DeclType) (isPointer : Bool) (d : Typedef) : Prop where
  | intro (ds : List Typedef) (hwrap : wrapChunkIntoType theRtype declType = .ok ds)
      (hat : ds[if isPointer then 1 else 0]? = some d)

/-- A typedef has the name of what it is for. -/
theorem EmitsFor.name_eq {theRtype : RType} {declType : DeclType} {isPointer : Bool} {d : Typedef}
    (h : EmitsFor theRtype declType isPointer d) : d.name = (typeRef theRtype isPointer).mangled := by
  obtain ⟨ds, hwrap, hat⟩ := h
  cases declType with
  | other text => cases hwrap
  | block =>
    cases hwrap
    cases isPointer <;> cases hat <;> rfl
  | enum =>
    cases hwrap
    cases isPointer <;> cases hat <;> rfl

/-- The names of the types of a program do their work: no two things have one name, a typedef clashes with
no other, and the name in a declaration is that of the typedef for the type and the access meant. -/
structure NamesWork (types : List RType) : Prop where
  injective : ∀ a ∈ refsOf types, ∀ b ∈ refsOf types, a.mangled = b.mangled → a = b
  typedefs : ∀ t ∈ types, ∀ t' ∈ types, ∀ kind kind' p p' d d', EmitsFor t kind p d →
    EmitsFor t' kind' p' d' → d.name = d'.name → typeRef t p = typeRef t' p'
  injected : ∀ t ∈ types, ∀ qualifier, ∀ t' ∈ types, ∀ kind p d, EmitsFor t' kind p d →
    d.name = injectRtype t qualifier → typeRef t' p = typeRef t (qualifier != "scalar")

/-- **The names of the types of a program work** exactly when no two of them overlap. -/
theorem namesWork_iff (types : List RType) :
    NamesWork types ↔ ∀ a ∈ refsOf types, ∀ b ∈ refsOf types, ¬ Overlaps a b := by
  constructor
  · intro h a ha b hb hoverlap
    have heq := h.injective a ha b hb (mangled_eq_iff.2 (Or.inr (Or.inl hoverlap)))
    subst heq
    cases hoverlap with
    | scope t hscope hstem =>
      have hlength := congrArg List.length hscope
      rw [List.length_append, List.length_cons] at hlength
      omega
    | suffix hscope htype href hname =>
      rw [htype] at href
      cases href
  · intro h
    have hinj : ∀ a ∈ refsOf types, ∀ b ∈ refsOf types, a.mangled = b.mangled → a = b := by
      intro a ha b hb heq
      rcases mangled_eq_iff.1 heq with hab | hab | hba
      · exact hab
      · exact absurd hab (h a ha b hb)
      · exact absurd hba (h b hb a ha)
    have hmem : ∀ t ∈ types, ∀ p, typeRef t p ∈ refsOf types :=
      fun t ht p => mem_refsOf.2 ⟨t, ht, p, rfl⟩
    constructor
    case injective => exact hinj
    case typedefs =>
      intro t ht t' ht' kind kind' p p' d d' hd hd' heq
      rw [hd.name_eq, hd'.name_eq] at heq
      exact hinj _ (hmem t ht p) _ (hmem t' ht' p') heq
    case injected =>
      intro t ht qualifier t' ht' kind p d hd heq
      rw [hd.name_eq] at heq
      exact hinj _ (hmem t' ht' p) _ (hmem t ht _) heq

/-- The types `A_b::c` and `A::b_c`, and a type and a reference to another one, have one name in C. -/
theorem mangled_names_clash :
    mangleTypeName ⟨⟨⟨"A_b", rfl⟩, ⟨"c", rfl⟩, false⟩, []⟩ false =
        mangleTypeName ⟨⟨⟨"A", rfl⟩, ⟨"b_c", rfl⟩, false⟩, []⟩ false ∧
      mangleTypeName ⟨⟨⟨"A", rfl⟩, ⟨"c_ptr", rfl⟩, false⟩, []⟩ false =
        mangleTypeName ⟨⟨⟨"A", rfl⟩, ⟨"c", rfl⟩, false⟩, []⟩ true := by
  constructor
  · decide
  · decide

end Rathaxes.Resolve
