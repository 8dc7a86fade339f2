import Rathaxes.CodeWorker.Numeral
import Rathaxes.Laws.Register

/-!
# The hexadecimal numerals of masks

`bitToValue` reads a bit string and `valueToHex` writes a number in hexadecimal. Together they turn the binary
numeral of a number into its canonical hexadecimal one (`valueToHex_textToValue`), so the constants in the generated
C are the masks of the register.
-/

set_option autoImplicit false

namespace Rathaxes.Front

open CodeWorker

/-! ## Reading -/

/-- The digits of a bit string. -/
def binaryDigits : List Char := ['0', '1']

/-- The loop of `stringToArray` comes to an end and leaves the characters. -/
theorem stringToArray_eq (str : String) : stringToArray str = str.toList := by
  have hrun : While (fun s : Nat × List Char => s.1 < str.toList.length)
      (fun s => (s.1 + 1, s.2 ++ [str.toList.getD s.1 ' '])) (0, []) (runWhile _ _ str.toList.length (0, [])) :=
    while_runWhile (fun s => str.toList.length - s.1) (fun s hs => by dsimp only; omega) (Nat.sub_le _ _)
  have hread := hrun.keeps (I := fun s => s.1 ≤ str.toList.length ∧ s.2 = str.toList.take s.1)
    (fun s hs h => by
      refine ⟨hs, ?_⟩
      rw [h.2, List.getD_eq_getElem _ _ hs, List.take_append_getElem]) ⟨Nat.zero_le _, rfl⟩
  have hall := Nat.le_antisymm hread.1 (Nat.le_of_not_lt hrun.exit)
  unfold stringToArray
  rw [hread.2, hall, List.take_length]

/-- The number bits spell is the one their digits denote. -/
theorem bitsValue_eq_ofDigits (bits : List Bool) : bitsValue bits = Nat.ofDigits 2 (bits.map Bool.toNat).reverse := by
  induction bits using List.reverseRecOn with
  | nil => rfl
  | append_singleton bits b ih =>
    rw [bitsValue_concat, ih, List.map_append, List.map_singleton, List.reverse_concat, Nat.ofDigits_cons,
      Nat.bit_val]
    simp [Nat.add_comm]

/-- **`bitToValue` reads the binary numeral** of a number. -/
theorem textToValue_eq {str : String} (hbits : ∀ c ∈ str.toList, c = '0' ∨ c = '1') :
    textToValue str = denotes binaryDigits str.toList := by
  unfold textToValue bitToValue denotes charBits
  rw [stringToArray_eq, bitArrayValue_eq, bitsValue_eq_ofDigits, List.map_map]
  have hdigits : str.toList.map (Bool.toNat ∘ fun c => decide (c = '1')) =
      str.toList.map fun c => binaryDigits.idxOf c := by
    refine List.map_congr_left fun c hc => ?_
    rcases hbits c hc with rfl | rfl
    · rfl
    · rfl
  rw [hdigits]
  rfl

/-! ## Writing -/

/-- The body of the loop of `valueToHex`, on the number and what has been written. -/
def hexTurn (s : Nat × List Char) : Nat × List Char := (s.1 >>> 4, hexDigits.getD (s.1 % 16) '0' :: s.2)

/-- The loop of `valueToHex` comes to an end. -/
theorem while_hexLoop : ∀ {fuel num : Nat} {res : List Char}, num ≤ fuel →
    While (fun s : Nat × List Char => 0 < s.1) hexTurn (num, res) (0, hexLoop fuel num res) := by
  intro fuel
  induction fuel with
  | zero =>
    intro num res h
    cases Nat.le_zero.1 h
    exact .stop (Nat.lt_irrefl 0)
  | succ fuel ih =>
    intro num res h
    unfold hexLoop
    by_cases hnum : 0 < num
    · have hless : num >>> 4 < num := by
        rw [Nat.shiftRight_eq_div_pow]
        exact Nat.div_lt_self hnum (by decide)
      rw [if_pos hnum]
      exact .turn hnum (ih (by omega))
    · rw [if_neg hnum, Nat.eq_zero_of_not_pos hnum]
      exact .stop (Nat.lt_irrefl 0)

/-- The loop puts the digits of the number in front of what has been written. -/
theorem hexLoop_eq : ∀ {fuel num : Nat} {res : List Char}, num ≤ fuel →
    hexLoop fuel num res = digitsText hexDigits num ++ res := by
  intro fuel
  induction fuel with
  | zero =>
    intro num res h
    cases Nat.le_zero.1 h
    rfl
  | succ fuel ih =>
    intro num res h
    unfold hexLoop
    by_cases hnum : 0 < num
    · have hshift : num >>> 4 = num / 16 := Nat.shiftRight_eq_div_pow num 4
      have hless : num / 16 < num := Nat.div_lt_self hnum (by decide)
      have hdigit : hexDigits.getD (num % 16) '0' = hexDigits.getD (num % 16) ' ' := by
        have hlt : num % 16 < hexDigits.length := Nat.mod_lt num (by decide)
        rw [List.getD_eq_getElem _ _ hlt, List.getD_eq_getElem _ _ hlt]
      rw [if_pos hnum, ih (by omega), digitsText_of_pos (by decide) hnum, hshift, hdigit, List.append_assoc]
      rfl
    · rw [if_neg hnum, Nat.eq_zero_of_not_pos hnum]
      rfl

/-- `valueToHex` writes the canonical numeral. -/
theorem valueToHex_eq (num : Nat) :
    (valueToHex num).toList = if num = 0 then [hexDigits.getD 0 ' '] else digitsText hexDigits num := by
  unfold valueToHex
  split
  · rfl
  · rw [String.toList_ofList, hexLoop_eq (Nat.le_refl num), List.append_nil]

/-- The digits of a hexadecimal numeral. -/
def uppercaseHex : List Char := "0123456789ABCDEF".toList

theorem hexDigits_eq : hexDigits = uppercaseHex := rfl

theorem isNumeral_valueToHex_iff {text : List Char} {num : Nat} :
    IsNumeral uppercaseHex text num ↔ text = (valueToHex num).toList := by
  rw [valueToHex_eq, hexDigits_eq]
  exact isNumeral_iff (by decide) (by decide)

/-- **A bit string in hexadecimal.** What `valueToHex` writes for it is the one canonical numeral of the number the
bits denote, so it is read back as this number; and the loop that writes it comes to an end. -/
theorem valueToHex_textToValue {str : String} (hbits : ∀ c ∈ str.toList, c = '0' ∨ c = '1') :
    (∀ text, IsNumeral uppercaseHex text (denotes binaryDigits str.toList) ↔
        text = (valueToHex (textToValue str)).toList) ∧
      denotes uppercaseHex (valueToHex (textToValue str)).toList = denotes binaryDigits str.toList ∧
      ∃ res, While (fun s : Nat × List Char => 0 < s.1) hexTurn (textToValue str, []) (0, res) ∧
        valueToHex (textToValue str) = if textToValue str = 0 then "0" else String.ofList res := by
  rw [← textToValue_eq hbits]
  refine ⟨fun text => isNumeral_valueToHex_iff, ?_, ?_⟩
  · exact (isNumeral_valueToHex_iff.2 rfl).value
  · exact ⟨_, while_hexLoop (Nat.le_refl _), rfl⟩

/-- Eleven bits, with a leading zero. -/
theorem valueToHex_textToValue_mask :
    (∀ c ∈ "01110101011".toList, c = '0' ∨ c = '1') ∧ valueToHex (textToValue "01110101011") = "3AB" ∧
      denotes uppercaseHex (valueToHex (textToValue "01110101011")).toList = denotes binaryDigits "01110101011".toList := by
  have hbits : ∀ c ∈ "01110101011".toList, c = '0' ∨ c = '1' := by simp
  exact ⟨hbits, by decide, (valueToHex_textToValue hbits).2.1⟩

/-- **What is emitted** for a field of an accepted register and one of its values. The masks are written with the digits
of their hexadecimal numerals alone, without the `0x` a constant of C has in front of them, and the value in decimal. -/
theorem emitted_of_accepted {r : RegisterNode} (h : (rtxTypeCheckRegister r).2 = true) {field : RegField}
    (hfield : field ∈ (rtxTypeCheckRegister r).1.fields) {v : FieldValue} (hv : v ∈ field.listmask) :
    ∃ mask n andText orText, field.maskPattern = some mask ∧ v.value = some n ∧
      rtxTypeRegMap .andMask r field v = .ok andText ∧ IsNumeral uppercaseHex andText.toList mask.andInt ∧
      rtxTypeRegMap .orMask r field v = .ok orText ∧ IsNumeral uppercaseHex orText.toList mask.orInt ∧
      rtxTypeRegMap .value r field v = .ok (toString n) := by
  obtain ⟨b, e, -, -, -, -, hmask, hvalues⟩ := annotated_range h hfield
  refine ⟨_, _, _, _, hmask, (hvalues v hv).2, ?_, isNumeral_valueToHex_iff.2 rfl, ?_, isNumeral_valueToHex_iff.2 rfl, ?_⟩
  · rw [rtxTypeRegMap, hmask]
    rfl
  · rw [rtxTypeRegMap, hmask]
    rfl
  · rw [rtxTypeRegMap, (hvalues v hv).2]
    rfl

end Rathaxes.Front
