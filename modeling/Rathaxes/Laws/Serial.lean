import Rathaxes.Link.ConfigMatcher

/-!
# The orderings of serial numbers

The five comparisons of serials are four loops and an equality of trees. The loops look at one thing
only: how the two lists of parts differ at the first place where they do. `serialCompare` is that outcome,
with no answer where separators differ, and each comparison is read off it (`serialOrder_eq`).
-/

set_option autoImplicit false

namespace Rathaxes.Link

open CodeWorker

/-! ## One outcome for the four loops -/

/-- The value against the reference, at the first place where they differ. -/
def serialCompare : (ref val : List SerialItem) → Option Ordering
  | [], [] => some .eq
  | [], _ :: _ => some .gt
  | _ :: _, [] => some .lt
  | .unit r :: ref, .unit v :: val =>
    if v < r then some .lt else if r < v then some .gt else serialCompare ref val
  | .sep r :: ref, .sep v :: val => if v ≠ r then none else serialCompare ref val
  | .unit _ :: _, .sep _ :: _ => none
  | .sep _ :: _, .unit _ :: _ => none

/-- What an ordering makes of an outcome. -/
def orderingAnswer (onLesser onEqual onGreater : Bool) : Option Ordering → Bool
  | some .lt => onLesser
  | some .eq => onEqual
  | some .gt => onGreater
  | none => false

theorem serialOrder_eq (onLesser onEqual onGreater : Bool) (ref val : List SerialItem) :
    serialOrder onLesser onEqual onGreater ref val =
      orderingAnswer onLesser onEqual onGreater (serialCompare ref val) := by
  fun_induction serialCompare ref val with
  | case1 => rfl
  | case2 => rfl
  | case3 => rfl
  | case4 r ref v val hlt =>
    rw [serialOrder, if_pos hlt]
    rfl
  | case5 r ref v val hlt hgt =>
    rw [serialOrder, if_neg hlt, if_pos hgt]
    rfl
  | case6 r ref v val hlt hgt ih => rw [serialOrder, if_neg hlt, if_neg hgt, ih]
  | case7 r ref v val hne =>
    rw [serialOrder, if_pos hne]
    rfl
  | case8 r ref v val heq ih => rw [serialOrder, if_neg heq, ih]
  | case9 => rfl
  | case10 => rfl

theorem serialCompare_self (items : List SerialItem) : serialCompare items items = some .eq := by
  induction items with
  | nil => rfl
  | cons item items ih =>
    cases item with
    | unit u => rw [serialCompare, if_neg (String.lt_irrefl u), if_neg (String.lt_irrefl u), ih]
    | sep s => rw [serialCompare, if_neg (not_not_intro rfl), ih]

theorem serialCompare_eq_iff {ref val : List SerialItem} :
    serialCompare ref val = some .eq ↔ ref = val := by
  constructor
  · fun_induction serialCompare ref val with
    | case1 => exact fun _ => rfl
    | case6 r ref v val hlt hgt ih =>
      intro h
      rw [String.le_antisymm (String.not_lt.1 hlt) (String.not_lt.1 hgt), ih h]
    | case8 r ref v val heq ih =>
      intro h
      rw [not_not.1 heq, ih h]
    | _ => exact fun h => by cases h
  · rintro rfl
    exact serialCompare_self ref

theorem serialCompare_swap (ref val : List SerialItem) :
    serialCompare val ref = (serialCompare ref val).map Ordering.swap := by
  fun_induction serialCompare ref val with
  | case1 => rfl
  | case2 => rfl
  | case3 => rfl
  | case4 r ref v val hlt =>
    rw [serialCompare, if_neg (String.lt_asymm hlt), if_pos hlt]
    rfl
  | case5 r ref v val hlt hgt =>
    rw [serialCompare, if_pos hgt]
    rfl
  | case6 r ref v val hlt hgt ih => rw [serialCompare, if_neg hgt, if_neg hlt, ih]
  | case7 r ref v val hne =>
    rw [serialCompare, if_pos (Ne.symm hne)]
    rfl
  | case8 r ref v val heq ih =>
    rw [serialCompare, if_neg (not_not_intro (not_not.1 heq).symm), ih]
  | case9 => rfl
  | case10 => rfl

/-! ## Separators -/

/-- The separators met before the first units that differ are the same. -/
def SeparatorsAgree (ref val : List SerialItem) : Prop :=
  ∀ (i : Nat) (r v : String), ref[i]? = some (.sep r) → val[i]? = some (.sep v) →
    (∀ j < i, ∀ u u', ref[j]? = some (.unit u) → val[j]? = some (.unit u') → u = u') → r = v

/-- The rest of two lists that begin alike. -/
theorem SeparatorsAgree.tail {item item' : SerialItem} {ref val : List SerialItem}
    (h : SeparatorsAgree (item :: ref) (item' :: val))
    (hhead : ∀ u u', item = .unit u → item' = .unit u' → u = u') : SeparatorsAgree ref val := by
  intro i r v hr hv hbefore
  refine h (i + 1) r v hr hv ?_
  intro j hj u u' hu hu'
  cases j with
  | zero => exact hhead u u' (Option.some.inj hu) (Option.some.inj hu')
  | succ j => exact hbefore j (Nat.lt_of_succ_lt_succ hj) u u' hu hu'

/-- Serials alternate, so a unit never meets a separator, and only separators can be in the way. -/
theorem isSome_serialCompare {a b : String} {as bs : List (String × String)}
    (h : SeparatorsAgree (.unit a :: serialPairs as) (.unit b :: serialPairs bs)) :
    (serialCompare (.unit a :: serialPairs as) (.unit b :: serialPairs bs)).isSome := by
  induction as generalizing a b bs with
  | nil =>
    rw [serialCompare]
    split
    · rfl
    · split
      · rfl
      · cases bs <;> rfl
  | cons pair as ih =>
    rw [serialCompare]
    split
    · rfl
    · rename_i hlt
      split
      · rfl
      · rename_i hgt
        have hunit : a = b := String.le_antisymm (String.not_lt.1 hlt) (String.not_lt.1 hgt)
        cases bs with
        | nil => rfl
        | cons pair' bs =>
          have hseps := h.tail fun u u' hu hu' => by
            cases hu
            cases hu'
            exact hunit
          have hsep : pair.1 = pair'.1 := hseps 0 _ _ rfl rfl fun j hj => (nomatch hj)
          have hrest := hseps.tail fun u u' hu => by cases hu
          rw [serialPairs, serialPairs, serialCompare, if_neg (not_not_intro hsep.symm)]
          exact ih hrest

/-! ## The five comparisons -/

/-- What the answers of the five comparisons have to do with each other. -/
structure Coherent (lesser lesserEqual equal greaterEqual greater : Bool) : Prop where
  lesserEqual_iff : lesserEqual = true ↔ lesser = true ∨ equal = true
  greaterEqual_iff : greaterEqual = true ↔ greater = true ∨ equal = true
  not_lesser_equal : ¬ (lesser = true ∧ equal = true)
  not_lesser_greater : ¬ (lesser = true ∧ greater = true)
  not_equal_greater : ¬ (equal = true ∧ greater = true)

/-- The answers read off one outcome are coherent. -/
theorem coherent_answers (outcome : Option Ordering) :
    Coherent (orderingAnswer true false false outcome) (orderingAnswer true true false outcome)
      (orderingAnswer false true false outcome) (orderingAnswer false true true outcome)
      (orderingAnswer false false true outcome) := by
  rcases outcome with _ | _ | _ | _ <;>
    constructor <;> decide

/-- The trees of two serials are equal when the lists of their parts are. -/
theorem compareEqual_serial (ref val : List SerialItem) :
    compareValues .equal (rtxNodeSerial ref) (rtxNodeSerial val) =
      .ok (orderingAnswer false true false (serialCompare ref val)) := by
  have hnodes : rtxNodeSerial ref = rtxNodeSerial val ↔ serialCompare ref val = some .eq := by
    rw [serialCompare_eq_iff]
    exact ⟨fun h => congrArg ValueNode.list h, fun h => congrArg rtxNodeSerial h⟩
  show Except.ok (decide (rtxNodeSerial ref = rtxNodeSerial val)) = _
  congr 1
  rw [Bool.eq_iff_iff, decide_eq_true_iff, hnodes]
  rcases serialCompare ref val with _ | _ | _ | _ <;> simp [orderingAnswer]

/-- **The comparisons of serials** are coherent: at most one of lesser, equal and greater holds, and one
does when the separators agree; the others follow from these three, and lesser one way is greater the
other way. -/
theorem serial_comparisons_coherent (ref val : Serial) :
    ∃ lesser lesserEqual equal greaterEqual greater : Bool,
      compareValues .lesser (rtxNodeSerial ref.items) (rtxNodeSerial val.items) = .ok lesser ∧
      compareValues .lesserEqual (rtxNodeSerial ref.items) (rtxNodeSerial val.items) =
        .ok lesserEqual ∧
      compareValues .equal (rtxNodeSerial ref.items) (rtxNodeSerial val.items) = .ok equal ∧
      compareValues .greaterEqual (rtxNodeSerial ref.items) (rtxNodeSerial val.items) =
        .ok greaterEqual ∧
      compareValues .greater (rtxNodeSerial ref.items) (rtxNodeSerial val.items) = .ok greater ∧
      Coherent lesser lesserEqual equal greaterEqual greater ∧
      (SeparatorsAgree ref.items val.items → lesser = true ∨ equal = true ∨ greater = true) ∧
      compareValues .greater (rtxNodeSerial val.items) (rtxNodeSerial ref.items) = .ok lesser := by
  have hloop : ∀ onLesser onEqual onGreater,
      (Except.ok (serialOrder onLesser onEqual onGreater ref.items val.items) : Except String Bool) =
        .ok (orderingAnswer onLesser onEqual onGreater (serialCompare ref.items val.items)) :=
    fun _ _ _ => congrArg Except.ok (serialOrder_eq _ _ _ _ _)
  refine ⟨_, _, _, _, _, hloop true false false, hloop true true false,
    compareEqual_serial ref.items val.items, hloop false true true, hloop false false true,
    coherent_answers _, ?_, ?_⟩
  · intro hseps
    obtain ⟨outcome, houtcome⟩ := Option.isSome_iff_exists.1 (isSome_serialCompare hseps)
    have hitems : serialCompare ref.items val.items = some outcome := houtcome
    rw [hitems]
    cases outcome <;> simp [orderingAnswer]
  · show Except.ok (serialOrder false false true val.items ref.items) = _
    rw [serialOrder_eq, serialCompare_swap]
    rcases serialCompare ref.items val.items with _ | _ | _ | _ <;> rfl

end Rathaxes.Link
