import Mathlib.Data.List.Induction
import Mathlib.Data.Nat.Bitwise

/-!
# Numbers written in bits

A bit string is written with its most significant bit first, positions are counted from the least
significant one. `testBit_value` settles the order once: a bit of the number is an entry of the
reversed string. A window of a list is what stands at the positions from a first to a last one.
-/

set_option autoImplicit false

namespace CodeWorker

/-! ## The number of a bit string -/

/-- The number a bit string spells. -/
def bitsValue (bits : List Bool) : Nat := bits.foldl (fun n b => Nat.bit b n) 0

theorem bitsValue_concat (bits : List Bool) (b : Bool) :
    bitsValue (bits ++ [b]) = Nat.bit b (bitsValue bits) := by
  rw [bitsValue, List.foldl_append]
  rfl

theorem testBit_bitsValue (bits : List Bool) (i : Nat) :
    (bitsValue bits).testBit i = bits.reverse.getD i false := by
  induction bits using List.reverseRecOn generalizing i with
  | nil => simp [bitsValue]
  | append_singleton bits b ih =>
    rw [bitsValue_concat, List.reverse_concat]
    cases i with
    | zero => rw [Nat.testBit_bit_zero, List.getD_cons_zero]
    | succ i => rw [Nat.testBit_bit_succ, List.getD_cons_succ, ih]

theorem bitsValue_lt (bits : List Bool) : bitsValue bits < 2 ^ bits.length := by
  refine Nat.lt_pow_two_of_testBit _ fun i hi => ?_
  rw [testBit_bitsValue, List.getD_eq_default]
  rwa [List.length_reverse]

/-! ## Windows -/

section Window

variable {α : Type}

/-- The entries at the positions `first` to `last`, counting the head as position `idx`. -/
def window (first last : Int) : Nat → List α → List α
  | _, [] => []
  | idx, x :: xs =>
    if first ≤ idx ∧ idx ≤ last then x :: window first last (idx + 1) xs
    else window first last (idx + 1) xs

theorem window_eq_take_drop (first last : Nat) (idx : Nat) (xs : List α) :
    window first last idx xs = (xs.drop (first - idx)).take (last + 1 - max first idx) := by
  induction xs generalizing idx with
  | nil => simp [window]
  | cons x xs ih =>
    rw [window, ih]
    by_cases hfirst : first ≤ idx
    · have hskip : first - idx = 0 := by omega
      have hskip' : first - (idx + 1) = 0 := by omega
      rw [hskip, hskip', List.drop_zero, List.drop_zero, max_eq_right hfirst,
        max_eq_right (Nat.le_succ_of_le hfirst)]
      by_cases hlast : idx ≤ last
      · rw [if_pos ⟨by omega, by omega⟩, Nat.succ_sub_succ, Nat.succ_sub hlast, List.take_succ_cons]
      · rw [if_neg (by omega), show last + 1 - idx = 0 by omega,
          show last + 1 - (idx + 1) = 0 by omega, List.take_zero, List.take_zero]
    · rw [if_neg (by omega), show first - idx = first - (idx + 1) + 1 by omega,
        List.drop_succ_cons, max_eq_left (by omega), max_eq_left (by omega)]

/-- What a window shows is what the list has. -/
theorem getElem?_window (first last : Nat) (xs : List α) (i : Nat) :
    (window first last 0 xs)[i]? = if first + i ≤ last then xs[first + i]? else none := by
  rw [window_eq_take_drop, Nat.sub_zero, Nat.max_zero]
  by_cases hi : first + i ≤ last
  · rw [if_pos hi, List.getElem?_take_of_lt (by omega), List.getElem?_drop]
  · rw [if_neg hi, List.getElem?_eq_none]
    rw [List.length_take]
    omega

theorem mem_window_iff {first last : Nat} {xs : List α} {x : α} :
    x ∈ window first last 0 xs ↔ ∃ p, first ≤ p ∧ p ≤ last ∧ xs[p]? = some x := by
  rw [List.mem_iff_getElem?]
  simp only [getElem?_window]
  constructor
  · rintro ⟨i, hi⟩
    by_cases hlast : first + i ≤ last
    · rw [if_pos hlast] at hi
      exact ⟨first + i, Nat.le_add_right _ _, hlast, hi⟩
    · rw [if_neg hlast] at hi
      cases hi
  · rintro ⟨p, hfirst, hlast, hget⟩
    refine ⟨p - first, ?_⟩
    rw [Nat.add_sub_cancel' hfirst, if_pos hlast, hget]

theorem length_window_le (first last : Nat) (xs : List α) :
    (window first last 0 xs).length ≤ last + 1 - first := by
  rw [window_eq_take_drop, List.length_take, Nat.max_zero]
  exact Nat.min_le_left _ _

end Window

end CodeWorker
