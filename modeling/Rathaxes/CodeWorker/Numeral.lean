import Mathlib.Data.List.GetD
import Mathlib.Data.Nat.Digits.Lemmas

/-!
# Numerals

A numeral is a text over an alphabet, and the value of a character is its position there; the first character of the
text is the most significant one. A number has many numerals and one that is canonical: it has no leading zero, except
that zero itself is written with one (`isNumeral_iff`).
-/

set_option autoImplicit false

namespace CodeWorker

section Numeral

variable (alphabet : List Char)

/-- The number a text denotes. -/
def denotes (text : List Char) : Nat :=
  Nat.ofDigits alphabet.length (text.map fun c => alphabet.idxOf c).reverse

/-- The text is the canonical numeral of the number. -/
structure IsNumeral (text : List Char) (n : Nat) : Prop where
  nonempty : text ≠ []
  digits : ∀ c ∈ text, c ∈ alphabet
  leading : text.head? = alphabet.head? → text.length = 1
  value : denotes alphabet text = n

/-- The digits of a number, written. Nothing is written for zero. -/
def digitsText (n : Nat) : List Char :=
  (Nat.digits alphabet.length n).reverse.map fun d => alphabet.getD d ' '

variable {alphabet}

theorem digitsText_of_pos (h : 1 < alphabet.length) {n : Nat} (hn : 0 < n) :
    digitsText alphabet n =
      digitsText alphabet (n / alphabet.length) ++ [alphabet.getD (n % alphabet.length) ' '] := by
  unfold digitsText
  rw [Nat.digits_def' h hn, List.reverse_cons, List.map_append, List.map_singleton]

theorem idxOf_getD (hnodup : alphabet.Nodup) {d : Nat} (hd : d < alphabet.length) :
    alphabet.idxOf (alphabet.getD d ' ') = d := by
  rw [List.getD_eq_getElem _ _ hd]
  exact hnodup.idxOf_getElem d hd

theorem getD_idxOf {c : Char} (hc : c ∈ alphabet) : alphabet.getD (alphabet.idxOf c) ' ' = c := by
  rw [List.getD_eq_getElem _ _ (List.idxOf_lt_length_iff.2 hc)]
  exact List.getElem_idxOf _

theorem denotes_zero (h : 1 < alphabet.length) (hnodup : alphabet.Nodup) :
    denotes alphabet [alphabet.getD 0 ' '] = 0 := by
  unfold denotes
  rw [List.map_singleton, idxOf_getD hnodup (Nat.zero_lt_of_lt h)]
  rfl

/-- What is written for a number denotes it. -/
theorem denotes_digitsText (h : 1 < alphabet.length) (hnodup : alphabet.Nodup) (n : Nat) :
    denotes alphabet (digitsText alphabet n) = n := by
  have hvalues : (digitsText alphabet n).map (fun c => alphabet.idxOf c) =
      (Nat.digits alphabet.length n).reverse := by
    unfold digitsText
    rw [List.map_map]
    refine (List.map_congr_left fun d hd => ?_).trans (List.map_id _)
    exact idxOf_getD hnodup (Nat.digits_lt_base h (List.mem_reverse.1 hd))
  unfold denotes
  rw [hvalues, List.reverse_reverse, Nat.ofDigits_digits]

/-- A numeral that does not begin with zero is what is written for its number, which is not zero. -/
theorem IsNumeral.eq_digitsText (h : 1 < alphabet.length) {text : List Char} {n : Nat}
    (hnum : IsNumeral alphabet text n) (hhead : text.head? ≠ alphabet.head?) :
    n ≠ 0 ∧ text = digitsText alphabet n := by
  have hdigits : Nat.digits alphabet.length n = (text.map fun c => alphabet.idxOf c).reverse := by
    rw [← hnum.value]
    refine Nat.digits_ofDigits _ h _ (fun d hd => ?_) fun hne => ?_
    · obtain ⟨c, hc, rfl⟩ := List.mem_map.1 (List.mem_reverse.1 hd)
      exact List.idxOf_lt_length_iff.2 (hnum.digits c hc)
    · rw [List.getLast_reverse, List.head_map]
      intro hzero
      have hfirst := getD_idxOf (hnum.digits _ (List.head_mem hnum.nonempty))
      rw [hzero, List.getD_eq_getElem _ _ (Nat.zero_lt_of_lt h)] at hfirst
      refine hhead ?_
      rw [List.head?_eq_some_head hnum.nonempty, ← hfirst, List.head?_eq_getElem?, List.getElem?_eq_getElem]
  constructor
  · rw [← Nat.digits_ne_nil_iff_ne_zero (b := alphabet.length), hdigits]
    simpa using hnum.nonempty
  · unfold digitsText
    rw [hdigits, List.reverse_reverse, List.map_map]
    refine (List.map_id _).symm.trans (List.map_congr_left fun c hc => ?_)
    exact (getD_idxOf (hnum.digits c hc)).symm

/-- **There is one canonical numeral** for a number. -/
theorem isNumeral_iff (h : 1 < alphabet.length) (hnodup : alphabet.Nodup) {text : List Char} {n : Nat} :
    IsNumeral alphabet text n ↔
      text = if n = 0 then [alphabet.getD 0 ' '] else digitsText alphabet n := by
  have hzero : alphabet.head? = some (alphabet.getD 0 ' ') := by
    rw [List.head?_eq_getElem?, List.getElem?_eq_getElem (Nat.zero_lt_of_lt h),
      List.getD_eq_getElem _ _ (Nat.zero_lt_of_lt h)]
  constructor
  · intro hnum
    by_cases hhead : text.head? = alphabet.head?
    · obtain ⟨c, rfl⟩ := List.length_eq_one_iff.1 (hnum.leading hhead)
      rw [hzero, List.head?_cons, Option.some.injEq] at hhead
      have hn : n = 0 := by
        rw [← hnum.value, hhead, denotes_zero h hnodup]
      rw [if_pos hn, hhead]
    · obtain ⟨hn, heq⟩ := hnum.eq_digitsText h hhead
      rw [if_neg hn, ← heq]
  · intro heq
    by_cases hn : n = 0
    · rw [if_pos hn] at heq
      subst heq hn
      refine ⟨List.cons_ne_nil _ _, ?_, fun _ => rfl, denotes_zero h hnodup⟩
      rw [List.forall_mem_singleton]
      exact List.mem_of_mem_head? (Option.mem_def.2 hzero)
    · rw [if_neg hn] at heq
      subst heq
      have hne : Nat.digits alphabet.length n ≠ [] := Nat.digits_ne_nil_iff_ne_zero.2 hn
      refine ⟨by simpa [digitsText] using hne, fun c hc => ?_, fun hhead => ?_, denotes_digitsText h hnodup n⟩
      · obtain ⟨d, hd, rfl⟩ := List.mem_map.1 hc
        have hlt := Nat.digits_lt_base h (List.mem_reverse.1 hd)
        rw [List.getD_eq_getElem _ _ hlt]
        exact List.getElem_mem _
      · -- the first digit is not zero
        refine absurd ?_ (Nat.getLast_digit_ne_zero alphabet.length hn)
        rw [digitsText, List.head?_map, List.head?_reverse, List.getLast?_eq_some_getLast hne, Option.map_some,
          hzero, Option.some.injEq] at hhead
        have hlt := Nat.digits_lt_base h (List.getLast_mem hne)
        rw [← idxOf_getD hnodup hlt, hhead, idxOf_getD hnodup (Nat.zero_lt_of_lt h)]

end Numeral

end CodeWorker
