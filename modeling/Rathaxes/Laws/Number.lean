import Rathaxes.Laws.ConfigMatcher

/-!
# The comparisons of numbers

A number is compared by its integer part and then by what follows the dot. Lesser and greater are two
functions, written separately; they are mirror images of each other except where one number has a
fraction and the other has none. There greater answers false on both sides.
-/

set_option autoImplicit false

namespace Rathaxes.Link

open CodeWorker

/-! ## Numbers as they are written -/

/-- The text of one part of a number: not empty, and without a dot. -/
structure NumberPart (text : String) : Prop where
  nonempty : text ≠ ""
  plain : '.' ∉ text.toList

/-- An integer part with an optional fraction. -/
structure WrittenNumber where
  integer : String
  fraction : Option String
  integer_part : NumberPart integer
  fraction_part : ∀ f ∈ fraction, NumberPart f

namespace WrittenNumber

/-- The parts around the dot. -/
def parts (n : WrittenNumber) : List String := n.integer :: n.fraction.toList

/-- The text of the number. -/
def text (n : WrittenNumber) : String :=
  match n.fraction with
  | none => n.integer
  | some f => n.integer ++ "." ++ f

/-- The value node that holds it. -/
def node (n : WrittenNumber) : ValueNode := numberNode n.text

theorem toList_text (n : WrittenNumber) :
    n.text.toList = ['.'].intercalate (n.parts.map String.toList) := by
  unfold text parts
  cases n.fraction with
  | none => simp
  | some f => simp

theorem cutAtDots_text (n : WrittenNumber) : cutAtDots n.text = n.parts := by
  have hplain : ∀ l ∈ n.parts.map String.toList, '.' ∉ l := by
    intro l hl
    obtain ⟨p, hp, rfl⟩ := List.mem_map.1 hl
    rcases List.mem_cons.1 hp with rfl | hp
    · exact n.integer_part.plain
    · exact (n.fraction_part p (Option.mem_toList.1 hp)).plain
  rw [cutAtDots, toList_text, List.splitOn_intercalate _ hplain (by simp [parts]), List.map_map]
  simp [Function.comp_def]

theorem text_eq_iff {m n : WrittenNumber} :
    m.text = n.text ↔ m.integer = n.integer ∧ m.fraction = n.fraction := by
  constructor
  · intro h
    have hparts : m.parts = n.parts := by rw [← m.cutAtDots_text, h, n.cutAtDots_text]
    obtain ⟨hinteger, hfraction⟩ := List.cons.inj hparts
    have hhead := congrArg List.head? hfraction
    rw [Option.head?_toList, Option.head?_toList] at hhead
    exact ⟨hinteger, hhead⟩
  · rintro ⟨hinteger, hfraction⟩
    unfold text
    rw [hinteger, hfraction]

end WrittenNumber

/-! ## What the two orderings answer -/

/-- Lesser on the fractions of two numbers with the same integer part: none is below any. -/
def fractionLesser : (ref val : Option String) → Bool
  | none, _ => false
  | some _, none => true
  | some r, some v => decide (v < r)

/-- Greater on the fractions: where one is missing it is false. -/
def fractionGreater : (ref val : Option String) → Bool
  | some r, some v => decide (r < v)
  | _, _ => false

theorem numberLesser_text (ref val : WrittenNumber) :
    numberLesser ref.text val.text =
      if val.integer < ref.integer then true
      else if val.integer = ref.integer then fractionLesser ref.fraction val.fraction
      else false := by
  simp only [numberLesser, WrittenNumber.cutAtDots_text, WrittenNumber.parts]
  cases ref.fraction with
  | none => rfl
  | some r => cases val.fraction <;> rfl

theorem numberGreater_text (ref val : WrittenNumber) :
    numberGreater ref.text val.text =
      if ref.integer < val.integer then true
      else if val.integer = ref.integer then fractionGreater ref.fraction val.fraction
      else false := by
  simp only [numberGreater, WrittenNumber.cutAtDots_text, WrittenNumber.parts]
  cases val.fraction with
  | none => cases ref.fraction <;> rfl
  | some v => cases ref.fraction <;> rfl

/-! ## Trichotomy -/

/-- Exactly one of three answers is true. -/
def ExactlyOne (a b c : Bool) : Prop :=
  (a = true ∧ b = false ∧ c = false) ∨ (a = false ∧ b = true ∧ c = false) ∨
    (a = false ∧ b = false ∧ c = true)

theorem text_trichotomy (s t : String) : s < t ∨ s = t ∨ t < s := by
  by_cases hlt : s < t
  · exact .inl hlt
  · by_cases hgt : t < s
    · exact .inr (.inr hgt)
    · exact .inr (.inl (String.le_antisymm (String.not_lt.1 hgt) (String.not_lt.1 hlt)))

theorem text_ne_of_lt {s t : String} (h : s < t) : s ≠ t := by
  rintro rfl
  exact String.lt_irrefl s h

/-- With a fraction on both sides or on neither, the fractions are ordered. -/
theorem fraction_trichotomy_iff (ref val : Option String) :
    (ExactlyOne (fractionLesser ref val) (decide (ref = val)) (fractionGreater ref val) ∧
        fractionLesser ref val = fractionGreater val ref) ↔
      ref.isSome = val.isSome := by
  cases ref with
  | none => cases val <;> simp [ExactlyOne, fractionLesser, fractionGreater]
  | some r =>
    cases val with
    | none => simp [fractionLesser, fractionGreater]
    | some v =>
      refine iff_of_true ⟨?_, rfl⟩ rfl
      simp only [ExactlyOne, fractionLesser, fractionGreater, decide_eq_true_iff,
        decide_eq_false_iff_not, Option.some.injEq]
      rcases text_trichotomy v r with hlt | rfl | hgt
      · exact .inl ⟨hlt, (text_ne_of_lt hlt).symm, String.lt_asymm hlt⟩
      · exact .inr (.inl ⟨String.lt_irrefl v, rfl, String.lt_irrefl v⟩)
      · exact .inr (.inr ⟨String.lt_asymm hgt, text_ne_of_lt hgt, hgt⟩)

/-- **The comparisons of two numbers** are a trichotomy, lesser one way being greater the other way,
exactly when their integer parts differ or both have a fraction or neither has one. -/
theorem number_trichotomy_iff (ref val : WrittenNumber) :
    ∃ lesser equal greater mirrored : Bool,
      compareValues .lesser ref.node val.node = .ok lesser ∧
      compareValues .equal ref.node val.node = .ok equal ∧
      compareValues .greater ref.node val.node = .ok greater ∧
      compareValues .greater val.node ref.node = .ok mirrored ∧
      ((ExactlyOne lesser equal greater ∧ lesser = mirrored) ↔
        ref.integer ≠ val.integer ∨ ref.fraction.isSome = val.fraction.isSome) := by
  refine ⟨numberLesser ref.text val.text, decide (ref.text = val.text),
    numberGreater ref.text val.text, numberGreater val.text ref.text, rfl, rfl, rfl, rfl, ?_⟩
  simp only [numberLesser_text, numberGreater_text, WrittenNumber.text_eq_iff]
  rcases text_trichotomy val.integer ref.integer with hlt | heq | hgt
  · have hne := text_ne_of_lt hlt
    simp only [if_pos hlt, if_neg (String.lt_asymm hlt), if_neg hne, hne.symm, false_and]
    exact iff_of_true ⟨.inl ⟨rfl, rfl, rfl⟩, trivial⟩ (.inl hne.symm)
  · simp only [heq, if_neg (String.lt_irrefl ref.integer), if_true, true_and]
    rw [fraction_trichotomy_iff]
    exact ⟨.inr, fun h => h.resolve_left (not_not_intro rfl)⟩
  · have hne := text_ne_of_lt hgt
    simp only [if_pos hgt, if_neg (String.lt_asymm hgt), if_neg hne.symm, hne, false_and]
    exact iff_of_true ⟨.inr (.inr ⟨rfl, rfl, rfl⟩), rfl⟩ (.inl hne)

/-- Of 2 and 2.5 neither is lesser, greater or equal; and while 2 is lesser than 2.5, 2.5 is not greater
than 2. -/
theorem no_order_between_2_and_2_5 :
    compareValues .lesser (numberNode "2") (numberNode "2.5") = .ok false ∧
      compareValues .equal (numberNode "2") (numberNode "2.5") = .ok false ∧
      compareValues .greater (numberNode "2") (numberNode "2.5") = .ok false ∧
      compareValues .lesser (numberNode "2.5") (numberNode "2") = .ok true := by
  decide

end Rathaxes.Link
