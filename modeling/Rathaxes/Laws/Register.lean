import Rathaxes.CodeWorker.Bits
import Rathaxes.Front.Register
import Mathlib.Data.Nat.Bitwise

/-!
# Which registers are accepted, and what their masks do

A register is accepted when every field lies within the pattern, uses no bit marked `*` and has values of its
own width, whichever bound is written first (`rtxTypeCheckRegister_iff`). The masks of a field then do to
the bits of a number what the pattern says of them (`masks_apply`), counted from the first bit of the field.
The values are counted from the first bit of the register, so the two agree on the position of a field only
where the field begins the register (`inPlace_iff`).
-/

set_option autoImplicit false

namespace Rathaxes.Front

open CodeWorker

/-! ## Bit strings -/

theorem bitArrayLoop_eq (done : List Bool) {bits : List Bool} (h : bits ≠ []) :
    bitArrayLoop (2 * bitsValue done) bits = bitsValue (done ++ bits) := by
  induction bits generalizing done with
  | nil => exact absurd rfl h
  | cons b bits ih =>
    have hbit : 2 * bitsValue done + b.toNat = bitsValue (done ++ [b]) := by
      rw [bitsValue_concat, Nat.bit_val]
    cases bits with
    | nil => rw [bitArrayLoop, hbit]
    | cons b' bits =>
      rw [bitArrayLoop, hbit, Nat.shiftLeft_eq, Nat.pow_one, Nat.mul_comm,
        ih (done ++ [b]) (List.cons_ne_nil _ _), List.append_assoc, List.singleton_append]
      exact fun h => nomatch h

/-- Shifting and adding gives the number the bits spell. -/
theorem bitArrayValue_eq (bits : List Bool) : bitArrayValue bits = bitsValue bits := by
  cases bits with
  | nil => rfl
  | cons b bits => exact bitArrayLoop_eq [] (List.cons_ne_nil b bits)

/-- The bit string with a 1 for each bit of the pattern that is `bit`, the pattern being read from its least
significant bit on. -/
def stringOf (bit : PatternBit) (bits : List PatternBit) : List Bool :=
  (bits.map fun b => decide (b = bit)).reverse

/-- The masks of the bits of a range. -/
def maskOf (bits : List PatternBit) : MaskPattern :=
  MaskPattern.numbered { and := stringOf .free bits, or := stringOf .one bits }

theorem stringOf_cons (bit b : PatternBit) (bits : List PatternBit) :
    stringOf bit (b :: bits) = stringOf bit bits ++ [decide (b = bit)] := by
  simp [stringOf]

theorem extractLoop_eq_true_iff {begin endBit : Int} {idx : Nat} {list : List PatternBit}
    {mask : MaskPattern} :
    (extractLoop begin endBit idx list mask).2 = true ↔ .star ∉ window begin endBit idx list := by
  induction list generalizing idx mask with
  | nil => simp [extractLoop, window]
  | cons bit list ih =>
    by_cases hin : begin ≤ idx ∧ idx ≤ endBit
    · cases bit <;> simp [extractLoop, window, hin, ih]
    · simp only [extractLoop, window, if_neg hin, ih]

/-- The scan prepends what the window shows. -/
theorem extractLoop_eq {begin endBit : Int} {idx : Nat} {list : List PatternBit} {mask : MaskPattern}
    (h : .star ∉ window begin endBit idx list) :
    extractLoop begin endBit idx list mask =
      (MaskPattern.numbered
        { mask with
          and := stringOf .free (window begin endBit idx list) ++ mask.and
          or := stringOf .one (window begin endBit idx list) ++ mask.or }, true) := by
  induction list generalizing idx mask with
  | nil => rfl
  | cons bit list ih =>
    by_cases hin : begin ≤ idx ∧ idx ≤ endBit
    · rw [window, if_pos hin] at h ⊢
      have hrest := fun hstar => h (List.mem_cons_of_mem bit hstar)
      rw [stringOf_cons, stringOf_cons, List.append_assoc, List.append_assoc]
      cases bit with
      | star => exact absurd List.mem_cons_self h
      | free | one | zero =>
        rw [extractLoop, if_pos hin]
        exact ih hrest
    · rw [window, if_neg hin] at h ⊢
      conv_lhs => unfold extractLoop
      rw [if_neg hin]
      exact ih h

theorem bitArrayExtractMask_eq_true_iff {list : List PatternBit} {begin endBit : Int} :
    (bitArrayExtractMask list begin endBit).2 = true ↔
      .star ∉ window begin endBit 0 list.reverse :=
  extractLoop_eq_true_iff

theorem bitArrayExtractMask_eq {list : List PatternBit} {begin endBit : Int}
    (h : .star ∉ window begin endBit 0 list.reverse) :
    bitArrayExtractMask list begin endBit = (maskOf (window begin endBit 0 list.reverse), true) := by
  rw [bitArrayExtractMask, extractLoop_eq h, List.append_nil, List.append_nil]
  rfl

/-! ## Bounds -/

namespace BitRange

/-- The other bound; one bound is both. -/
def other (map : BitRange) : Int := map.endBit.getD map.begin

/-- The smaller bound. -/
def low (map : BitRange) : Int := min map.begin map.other

/-- The larger bound. -/
def high (map : BitRange) : Int := max map.begin map.other

/-- The same range with its bounds in the other order. -/
def swapped (map : BitRange) : BitRange :=
  match map.endBit with
  | none => map
  | some e => ⟨e, some map.begin⟩

theorem low_le_high (map : BitRange) : map.low ≤ map.high := by
  unfold low high
  omega

theorem ordered_begin (map : BitRange) : map.ordered.begin = map.low := by
  obtain ⟨b, _ | e⟩ := map
  · simp [ordered, low, other]
  · simp only [ordered, low, other, Option.getD_some]
    split <;> dsimp only <;> omega

theorem ordered_other (map : BitRange) : map.ordered.other = map.high := by
  obtain ⟨b, _ | e⟩ := map
  · simp [ordered, high, other]
  · simp only [ordered, high, other, Option.getD_some]
    split <;> simp only [Option.getD_some] <;> omega

theorem size_eq (map : BitRange) : map.size = map.other - map.begin + 1 := by
  obtain ⟨b, _ | e⟩ := map
  · simp [size, other]
  · simp only [size, other, Option.getD_some]
    omega

theorem outside_eq_false_iff {map : BitRange} {bitsize : Int} (h : map.begin ≤ map.other) :
    map.outside bitsize = false ↔ 0 ≤ map.begin ∧ map.other < bitsize := by
  obtain ⟨b, _ | e⟩ := map
  · simp only [outside, other, Option.getD_none, Option.any_none, Bool.or_false,
      decide_eq_false_iff_not]
    omega
  · simp only [other, Option.getD_some] at h
    simp only [outside, other, Option.getD_some, Option.any_some, Bool.or_eq_false_iff,
      decide_eq_false_iff_not]
    omega

theorem ordered_some (b e : Int) :
    (BitRange.mk b (some e)).ordered = if e ≤ b then ⟨e, some b⟩ else ⟨b, some e⟩ := rfl

theorem ordered_ordered (map : BitRange) : map.ordered.ordered = map.ordered := by
  obtain ⟨b, _ | e⟩ := map
  · rfl
  · by_cases h : e ≤ b
    · rw [ordered_some, if_pos h, ordered_some]
      by_cases h' : b ≤ e
      · rw [if_pos h', show b = e by omega]
      · rw [if_neg h']
    · rw [ordered_some, if_neg h, ordered_some, if_neg h]

theorem ordered_swapped (map : BitRange) : map.swapped.ordered = map.ordered := by
  obtain ⟨b, _ | e⟩ := map
  · rfl
  · show (BitRange.mk e (some b)).ordered = _
    rw [ordered_some, ordered_some]
    by_cases hbe : b ≤ e
    · by_cases heb : e ≤ b
      · rw [if_pos hbe, if_pos heb, show b = e by omega]
      · rw [if_pos hbe, if_neg heb]
    · rw [if_neg hbe, if_pos (by omega)]

end BitRange

/-! ## What is accepted -/

/-- What the check asks of a field. Position `p` of the pattern is counted from its least significant bit. -/
structure FieldAccepted (pattern : List PatternBit) (field : RegField) : Prop where
  low_nonneg : 0 ≤ field.map.low
  high_lt : field.map.high < pattern.length
  no_star : ∀ p : Nat, field.map.low ≤ p → p ≤ field.map.high → pattern.reverse[p]? ≠ some .star
  width : ∀ value ∈ field.listmask, (value.mask.length : Int) = field.map.high - field.map.low + 1

/-- What the check leaves of a value of an accepted field. -/
def annotateValue (begin : Int) (value : FieldValue) : FieldValue :=
  { value with
    bitsize := some value.mask.length
    value := some (bitsValue value.mask <<< begin.toNat) }

/-- What the check leaves of an accepted field. -/
def annotate (pattern : List PatternBit) (field : RegField) : RegField :=
  { field with
    map := field.map.ordered
    bitsize := some field.map.ordered.size
    maskPattern := some (maskOf (window field.map.low field.map.high 0 pattern.reverse))
    listmask := field.listmask.map (annotateValue field.map.low) }

theorem checkValues_eq_true_iff {size begin : Int} {values : List FieldValue} :
    (checkValues size begin values).2 = true ↔ ∀ v ∈ values, (v.mask.length : Int) = size := by
  induction values with
  | nil => simp [checkValues]
  | cons v values ih =>
    by_cases h : (v.mask.length : Int) = size
    · simp [checkValues, h, ih]
    · simp [checkValues, h]

theorem checkValues_eq {size begin : Int} {values : List FieldValue}
    (h : ∀ v ∈ values, (v.mask.length : Int) = size) :
    checkValues size begin values = (values.map (annotateValue begin), true) := by
  induction values with
  | nil => rfl
  | cons v values ih =>
    rw [checkValues, if_neg (not_not_intro (h v List.mem_cons_self)),
      ih fun w hw => h w (List.mem_cons_of_mem v hw), bitArrayValue_eq]
    rfl

theorem star_not_mem_window_iff {pattern : List PatternBit} {low high : Int} (hlow : 0 ≤ low)
    (hhigh : low ≤ high) :
    .star ∉ window low high 0 pattern.reverse ↔
      ∀ p : Nat, low ≤ p → p ≤ high → pattern.reverse[p]? ≠ some .star := by
  obtain ⟨l, rfl⟩ := Int.eq_ofNat_of_zero_le hlow
  obtain ⟨h, rfl⟩ := Int.eq_ofNat_of_zero_le (Int.le_trans hlow hhigh)
  rw [mem_window_iff]
  constructor
  · intro hnot p hl hh hp
    exact hnot ⟨p, by omega, by omega, hp⟩
  · rintro hall ⟨p, hl, hh, hp⟩
    exact hall p (by omega) (by omega) hp

/-- The turn of a field in terms of its bounds. -/
theorem checkField_eq (pattern : List PatternBit) (field : RegField) :
    checkField pattern field =
      if field.map.ordered.outside pattern.length then
        ({ field with map := field.map.ordered }, false)
      else
        let extracted := bitArrayExtractMask pattern field.map.low field.map.high
        let annotated :=
          { field with
            map := field.map.ordered
            bitsize := some field.map.ordered.size
            maskPattern := some extracted.1 }
        if extracted.2 then
          let values := checkValues field.map.ordered.size field.map.low field.listmask
          ({ annotated with listmask := values.1 }, values.2)
        else (annotated, false) := by
  rw [← field.map.ordered_begin, ← field.map.ordered_other]
  rfl

theorem ordered_outside_eq_false_iff {map : BitRange} {bitsize : Int} :
    map.ordered.outside bitsize = false ↔ 0 ≤ map.low ∧ map.high < bitsize := by
  have hle := map.low_le_high
  rw [← map.ordered_begin, ← map.ordered_other] at hle ⊢
  exact BitRange.outside_eq_false_iff hle

theorem ordered_size (map : BitRange) : map.ordered.size = map.high - map.low + 1 := by
  rw [BitRange.size_eq, map.ordered_begin, map.ordered_other]

theorem checkField_of_accepted {pattern : List PatternBit} {field : RegField}
    (h : FieldAccepted pattern field) : checkField pattern field = (annotate pattern field, true) := by
  have hstar := (star_not_mem_window_iff h.low_nonneg field.map.low_le_high).2 h.no_star
  rw [checkField_eq, ordered_outside_eq_false_iff.2 ⟨h.low_nonneg, h.high_lt⟩,
    bitArrayExtractMask_eq hstar, checkValues_eq (by rw [ordered_size]; exact h.width)]
  rfl

theorem accepted_of_checkField {pattern : List PatternBit} {field : RegField}
    (h : (checkField pattern field).2 = true) : FieldAccepted pattern field := by
  rw [checkField_eq] at h
  cases houtside : field.map.ordered.outside pattern.length with
  | true =>
    rw [houtside] at h
    cases h
  | false =>
    obtain ⟨hlow, hhigh⟩ := ordered_outside_eq_false_iff.1 houtside
    rw [houtside, if_neg Bool.false_ne_true] at h
    dsimp only at h
    cases hextract : (bitArrayExtractMask pattern field.map.low field.map.high).2 with
    | false =>
      rw [hextract] at h
      cases h
    | true =>
      rw [hextract, if_pos rfl] at h
      have hwidth := checkValues_eq_true_iff.1 h
      rw [ordered_size] at hwidth
      have hstar := bitArrayExtractMask_eq_true_iff.1 hextract
      exact ⟨hlow, hhigh, (star_not_mem_window_iff hlow field.map.low_le_high).1 hstar, hwidth⟩

theorem checkFields_of_accepted {pattern : List PatternBit} {fields : List RegField}
    (h : ∀ f ∈ fields, FieldAccepted pattern f) :
    checkFields pattern fields = (fields.map (annotate pattern), true) := by
  induction fields with
  | nil => rfl
  | cons f fields ih =>
    rw [checkFields, checkField_of_accepted (h f List.mem_cons_self),
      ih fun g hg => h g (List.mem_cons_of_mem f hg)]
    rfl

theorem accepted_of_checkFields {pattern : List PatternBit} {fields : List RegField}
    (h : (checkFields pattern fields).2 = true) : ∀ f ∈ fields, FieldAccepted pattern f := by
  induction fields with
  | nil => exact fun f hf => nomatch hf
  | cons f fields ih =>
    rw [checkFields] at h
    cases hfield : (checkField pattern f).2 with
    | false =>
      rw [hfield] at h
      cases h
    | true =>
      rw [hfield] at h
      intro g hg
      rcases List.mem_cons.1 hg with rfl | hg
      · exact accepted_of_checkField hfield
      · exact ih h g hg

/-- An accepted register is annotated throughout. -/
theorem rtxTypeCheckRegister_of_accepted {r : RegisterNode} (h : (rtxTypeCheckRegister r).2 = true) :
    (rtxTypeCheckRegister r).1.fields = r.fields.map (annotate r.pattern) :=
  congrArg Prod.fst (checkFields_of_accepted (accepted_of_checkFields h))

/-! ## The order of the bounds -/

/-- The field with its bounds in order. -/
def RegField.ordered (field : RegField) : RegField := { field with map := field.map.ordered }

/-- The register with the bounds of every field in order. -/
def RegisterNode.ordered (r : RegisterNode) : RegisterNode := { r with fields := r.fields.map RegField.ordered }

/-- The register with the bounds of the fields that `swaps` selects written in the other order. -/
def RegisterNode.rewritten (r : RegisterNode) (swaps : Nat → Bool) : RegisterNode :=
  { r with
    fields := r.fields.mapIdx fun i f => if swaps i then { f with map := f.map.swapped } else f }

theorem checkField_ordered (pattern : List PatternBit) (field : RegField) :
    checkField pattern field.ordered = checkField pattern field := by
  unfold checkField
  rw [RegField.ordered, BitRange.ordered_ordered]

theorem ordered_checkField (pattern : List PatternBit) (field : RegField) :
    (checkField pattern field).1.ordered = (checkField pattern field).1 := by
  have hmap : (checkField pattern field).1.map = field.map.ordered := by
    unfold checkField
    dsimp only
    split
    · rfl
    · split <;> rfl
  rw [RegField.ordered, hmap, BitRange.ordered_ordered, ← hmap]

/-- The check of ordered fields, beside that of the fields as they are written. -/
theorem checkFields_ordered (pattern : List PatternBit) (fields : List RegField) :
    checkFields pattern (fields.map RegField.ordered) =
      ((checkFields pattern fields).1.map RegField.ordered, (checkFields pattern fields).2) := by
  induction fields with
  | nil => rfl
  | cons f fields ih =>
    rw [List.map_cons, checkFields, checkFields, checkField_ordered]
    dsimp only
    cases (checkField pattern f).2 with
    | true => rw [if_pos rfl, if_pos rfl, ih, List.map_cons, ordered_checkField]
    | false =>
      rw [if_neg Bool.false_ne_true, if_neg Bool.false_ne_true, List.map_cons, ordered_checkField]

theorem rtxTypeCheckRegister_ordered (r : RegisterNode) :
    rtxTypeCheckRegister r.ordered =
      ((rtxTypeCheckRegister r).1.ordered, (rtxTypeCheckRegister r).2) := by
  unfold rtxTypeCheckRegister
  simp only [RegisterNode.ordered, checkFields_ordered]

theorem RegisterNode.ordered_rewritten (r : RegisterNode) (swaps : Nat → Bool) :
    (r.rewritten swaps).ordered = r.ordered := by
  unfold RegisterNode.ordered RegisterNode.rewritten
  congr 1
  refine List.ext_getElem (by simp) fun i h h' => ?_
  simp only [List.getElem_map, List.getElem_mapIdx]
  split
  · rw [RegField.ordered, BitRange.ordered_swapped]
    rfl
  · rfl

/-- What an accepted register is left with has its bounds in order. -/
theorem ordered_of_accepted {r : RegisterNode} (h : (rtxTypeCheckRegister r).2 = true) :
    (rtxTypeCheckRegister r).1.ordered = (rtxTypeCheckRegister r).1 := by
  have hfields := rtxTypeCheckRegister_of_accepted h
  have hordered : ∀ f, (annotate r.pattern f).ordered = annotate r.pattern f := fun f => by
    rw [RegField.ordered, annotate, BitRange.ordered_ordered]
  rw [RegisterNode.ordered, hfields, List.map_map, funext (f := RegField.ordered ∘ annotate r.pattern) hordered,
    ← hfields]

/-- **A register is accepted** exactly when each of its fields lies within the pattern, uses no bit marked `*`
and has values of its own width; and writing the bounds of fields in the other order changes neither the
verdict nor anything that is computed. -/
theorem rtxTypeCheckRegister_iff (r : RegisterNode) :
    ((rtxTypeCheckRegister r).2 = true ↔ ∀ f ∈ r.fields, FieldAccepted r.pattern f) ∧
      ∀ swaps : Nat → Bool,
        (rtxTypeCheckRegister (r.rewritten swaps)).2 = (rtxTypeCheckRegister r).2 ∧
        (rtxTypeCheckRegister (r.rewritten swaps)).1.ordered = (rtxTypeCheckRegister r).1.ordered ∧
        ((rtxTypeCheckRegister r).2 = true →
          (rtxTypeCheckRegister (r.rewritten swaps)).1 = (rtxTypeCheckRegister r).1) := by
  refine ⟨⟨accepted_of_checkFields, fun h => ?_⟩, fun swaps => ?_⟩
  · exact congrArg Prod.snd (checkFields_of_accepted h)
  · have hsame := (rtxTypeCheckRegister_ordered (r.rewritten swaps)).symm.trans
      ((congrArg rtxTypeCheckRegister (r.ordered_rewritten swaps)).trans
        (rtxTypeCheckRegister_ordered r))
    obtain ⟨hregister, hverdict⟩ := Prod.mk.inj hsame
    refine ⟨hverdict, hregister, fun h => ?_⟩
    rw [← ordered_of_accepted (hverdict.trans h), hregister, ordered_of_accepted h]

/-! ## What the masks do -/

theorem testBit_stringOf (bit : PatternBit) (bits : List PatternBit) (i : Nat) :
    (bitsValue (stringOf bit bits)).testBit i = decide (bits[i]? = some bit) := by
  rw [testBit_bitsValue, stringOf, List.reverse_reverse, List.getD_eq_getElem?_getD,
    List.getElem?_map]
  cases bits[i]? <;> simp

/-- A bit of a mask is a bit of the pattern, counted from the beginning of the range. -/
theorem testBit_window (pattern : List PatternBit) (bit : PatternBit) (b e i : Nat) :
    (bitsValue (stringOf bit (window b e 0 pattern.reverse))).testBit i =
      decide (b + i ≤ e ∧ pattern.reverse[b + i]? = some bit) := by
  rw [testBit_stringOf, getElem?_window]
  by_cases hi : b + i ≤ e
  · simp only [hi, if_true, true_and]
  · simp [hi]

theorem bitsValue_window_lt {pattern : List PatternBit} {bit : PatternBit} {b e : Nat} (h : b ≤ e) :
    bitsValue (stringOf bit (window b e 0 pattern.reverse)) < 2 ^ (e - b + 1) := by
  refine Nat.lt_of_lt_of_le (bitsValue_lt _) (Nat.pow_le_pow_right Nat.two_pos ?_)
  have hlen := length_window_le b e pattern.reverse
  rw [stringOf, List.length_reverse, List.length_map]
  omega

theorem maskOf_andInt (bits : List PatternBit) :
    (maskOf bits).andInt = bitsValue (stringOf .free bits) :=
  bitArrayValue_eq _

theorem maskOf_orInt (bits : List PatternBit) :
    (maskOf bits).orInt = bitsValue (stringOf .one bits) :=
  bitArrayValue_eq _

/-- What the pattern makes of a bit. -/
def PatternBit.apply : Option PatternBit → Bool → Bool
  | some .zero, _ => false
  | some .one, _ => true
  | _, x => x

/-- The range of a field of an accepted register, in natural numbers. -/
theorem annotated_range {r : RegisterNode} (h : (rtxTypeCheckRegister r).2 = true) {field : RegField}
    (hfield : field ∈ (rtxTypeCheckRegister r).1.fields) :
    ∃ b e : Nat, field.map.begin = b ∧ field.map.other = e ∧ b ≤ e ∧
      (∀ p, b ≤ p → p ≤ e → ∃ bit, r.pattern.reverse[p]? = some bit ∧ bit ≠ .star) ∧
      field.maskPattern = some (maskOf (window b e 0 r.pattern.reverse)) ∧
      ∀ v ∈ field.listmask, v.mask.length = e - b + 1 ∧ v.value = some (bitsValue v.mask <<< b) := by
  rw [rtxTypeCheckRegister_of_accepted h] at hfield
  obtain ⟨f, hf, rfl⟩ := List.mem_map.1 hfield
  have haccepted := accepted_of_checkFields h f hf
  have hle := f.map.low_le_high
  obtain ⟨b, hb⟩ := Int.eq_ofNat_of_zero_le haccepted.low_nonneg
  obtain ⟨e, he⟩ := Int.eq_ofNat_of_zero_le (Int.le_trans haccepted.low_nonneg hle)
  have hhigh := haccepted.high_lt
  have hstar := haccepted.no_star
  have hwidth := haccepted.width
  rw [hb, he] at hstar hwidth hle
  rw [he] at hhigh
  refine ⟨b, e, ?_, ?_, by omega, fun p hbp hpe => ?_, ?_, fun v hv => ?_⟩
  · exact (f.map.ordered_begin).trans hb
  · exact (f.map.ordered_other).trans he
  · have hp : p < r.pattern.reverse.length := by
      rw [List.length_reverse]
      omega
    refine ⟨_, List.getElem?_eq_getElem hp, fun hbit => ?_⟩
    refine hstar p (by omega) (by omega) ?_
    rw [List.getElem?_eq_getElem hp, hbit]
  · rw [annotate, hb, he]
  · obtain ⟨w, hw, rfl⟩ := List.mem_map.1 hv
    have hlen := hwidth w hw
    refine ⟨?_, ?_⟩
    · show w.mask.length = e - b + 1
      omega
    · rw [annotateValue, hb, Int.toNat_natCast]

/-- A register of one byte with a field for each half, the upper one written `[7..4]`. -/
def nibbles : RegisterNode where
  name := "ctrl"
  pattern := List.replicate 8 .free
  offset := 0
  fields := [
    { name := "low", map := ⟨0, some 3⟩, listmask := [{ name := "on", mask := List.replicate 4 true }] },
    { name := "high", map := ⟨7, some 4⟩, listmask := [{ name := "on", mask := List.replicate 4 true }] }]

/-- The upper field as the check leaves it. -/
def highNibble : RegField where
  name := "high"
  map := ⟨4, some 7⟩
  listmask := [{ name := "on", mask := List.replicate 4 true, bitsize := some 4, value := some 240 }]
  bitsize := some 4
  maskPattern := some
    { and := List.replicate 4 true, or := List.replicate 4 false
      andInt := 15, orInt := 0, andHex := "F", orHex := "0" }

/-- **The masks of a field** give each bit of a number the value the pattern fixes for it, and leave it where the
pattern leaves it open. -/
theorem masks_apply (r : RegisterNode) (h : (rtxTypeCheckRegister r).2 = true) (field : RegField)
    (hfield : field ∈ (rtxTypeCheckRegister r).1.fields) :
    ∃ (b e : Nat) (mask : MaskPattern), field.map.begin = b ∧ field.map.other = e ∧ b ≤ e ∧
      field.maskPattern = some mask ∧
      (∀ x < 2 ^ (e - b + 1), ∀ i ≤ e - b,
        ((x &&& mask.andInt) ||| mask.orInt).testBit i =
          PatternBit.apply r.pattern.reverse[b + i]? (x.testBit i)) ∧
      mask.andInt &&& mask.orInt = 0 ∧
      mask.andInt < 2 ^ (e - b + 1) ∧ mask.orInt < 2 ^ (e - b + 1) := by
  obtain ⟨b, e, hb, he, hle, hbits, hmask, -⟩ := annotated_range h hfield
  refine ⟨b, e, _, hb, he, hle, hmask, fun x _ i hi => ?_, ?_, ?_, ?_⟩
  · obtain ⟨bit, hbit, hstar⟩ := hbits (b + i) (by omega) (by omega)
    have hin : b + i ≤ e := by omega
    rw [Nat.testBit_or, Nat.testBit_and, maskOf_andInt, maskOf_orInt, testBit_window, testBit_window,
      hbit]
    cases bit with
    | star => exact absurd rfl hstar
    | free | zero | one => simp [PatternBit.apply, hin]
  · refine Nat.eq_of_testBit_eq fun i => ?_
    rw [Nat.testBit_and, maskOf_andInt, maskOf_orInt, testBit_window, testBit_window, Nat.zero_testBit]
    -- no bit of the pattern is both open and fixed
    cases r.pattern.reverse[b + i]? with
    | none => simp
    | some bit => cases bit <;> simp
  · rw [maskOf_andInt]
    exact bitsValue_window_lt hle
  · rw [maskOf_orInt]
    exact bitsValue_window_lt hle

/-- A register whose upper half has open bits and one fixed to each value, and a lower half no field may use. -/
def fixedBits : RegisterNode where
  name := "status"
  pattern := [.one, .free, .zero, .free, .star, .star, .star, .star]
  offset := 0
  fields := [{ name := "mode", map := ⟨7, some 4⟩, listmask := [{ name := "on", mask := [true, true, false, true] }] }]

/-- The field as the check leaves it. -/
def fixedField : RegField where
  name := "mode"
  map := ⟨4, some 7⟩
  listmask := [{ name := "on", mask := [true, true, false, true], bitsize := some 4, value := some 208 }]
  bitsize := some 4
  maskPattern := some
    { and := [false, true, false, true], or := [true, false, false, false]
      andInt := 5, orInt := 8, andHex := "5", orHex := "8" }

theorem masks_apply_fixedField :
    fixedField ∈ (rtxTypeCheckRegister fixedBits).1.fields ∧
      ∃ (b e : Nat) (mask : MaskPattern), fixedField.map.begin = b ∧ fixedField.map.other = e ∧ b ≤ e ∧
        fixedField.maskPattern = some mask ∧
        (∀ x < 2 ^ (e - b + 1), ∀ i ≤ e - b,
          ((x &&& mask.andInt) ||| mask.orInt).testBit i =
            PatternBit.apply fixedBits.pattern.reverse[b + i]? (x.testBit i)) ∧
        mask.andInt &&& mask.orInt = 0 ∧
        mask.andInt < 2 ^ (e - b + 1) ∧ mask.orInt < 2 ^ (e - b + 1) :=
  ⟨by decide, masks_apply fixedBits (by decide) fixedField (by decide)⟩

/-! ## Where the masks are -/

/-- A bit of the register that belongs to the field. -/
def RegField.Covers (field : RegField) (p : Nat) : Prop :=
  field.map.begin ≤ p ∧ p ≤ field.map.other

/-- Mask and values of a field speak of the same bits of the register. -/
structure InPlace (r : RegisterNode) (field : RegField) : Prop where
  value_bits : ∀ v ∈ field.listmask, ∀ n ∈ v.value, ∀ p, n.testBit p = true → field.Covers p
  and_bits : ∀ mask ∈ field.maskPattern, ∀ p,
    mask.andInt.testBit p = true ↔ field.Covers p ∧ r.pattern.reverse[p]? = some .free
  or_bits : ∀ mask ∈ field.maskPattern, ∀ p,
    mask.orInt.testBit p = true ↔ field.Covers p ∧ r.pattern.reverse[p]? = some .one
  /-- Values of fields that have no bit in common share no bit. -/
  values_apart : ∀ other ∈ r.fields, (∀ p, ¬ (field.Covers p ∧ other.Covers p)) →
    ∀ v ∈ field.listmask, ∀ w ∈ other.listmask, ∀ m ∈ v.value, ∀ n ∈ w.value, m &&& n = 0
  /-- The masks do not touch the bits of such a field. -/
  masks_apart : ∀ other ∈ r.fields, (∀ p, ¬ (field.Covers p ∧ other.Covers p)) →
    ∀ mask ∈ field.maskPattern, ∀ p, other.Covers p →
      mask.andInt.testBit p = false ∧ mask.orInt.testBit p = false

/-- The values are in place whatever the field. -/
theorem covers_of_value {r : RegisterNode} (h : (rtxTypeCheckRegister r).2 = true) {field : RegField}
    (hfield : field ∈ (rtxTypeCheckRegister r).1.fields) {v : FieldValue} (hv : v ∈ field.listmask)
    {n p : Nat} (hn : n ∈ v.value) (hp : n.testBit p = true) : field.Covers p := by
  obtain ⟨b, e, hb, he, hle, -, -, hvalues⟩ := annotated_range h hfield
  obtain ⟨hlen, hvalue⟩ := hvalues v hv
  obtain rfl : n = bitsValue v.mask <<< b := Option.some.inj (hn.symm.trans hvalue)
  rw [Nat.testBit_shiftLeft, Bool.and_eq_true, decide_eq_true_iff] at hp
  have hlt : p - b < e - b + 1 := by
    rw [← hlen]
    refine Nat.lt_of_not_le fun hge => ?_
    rw [Nat.testBit_lt_two_pow (Nat.lt_of_lt_of_le (bitsValue_lt v.mask)
      (Nat.pow_le_pow_right Nat.two_pos hge))] at hp
    exact Bool.false_ne_true hp.2
  exact ⟨by omega, by omega⟩

/-- A mask is in place when its range begins the register or it is empty: else each of its bits has another one
below it. -/
theorem testBit_in_place_iff (pattern : List PatternBit) (bit : PatternBit) (b e : Nat) :
    (∀ p, (bitsValue (stringOf bit (window b e 0 pattern.reverse))).testBit p = true ↔
        (b ≤ p ∧ p ≤ e) ∧ pattern.reverse[p]? = some bit) ↔
      b = 0 ∨ ∀ p, b ≤ p → p ≤ e → pattern.reverse[p]? ≠ some bit := by
  simp only [testBit_window, decide_eq_true_iff]
  constructor
  · intro hplaced
    refine or_iff_not_imp_left.2 fun hb p => ?_
    induction p using Nat.strong_induction_on with
    | _ p ih =>
      intro hbp hpe hp
      have hlower := (hplaced (p - b)).1
      rw [Nat.add_sub_cancel' hbp] at hlower
      obtain ⟨⟨hle, hle'⟩, hbit⟩ := hlower ⟨hpe, hp⟩
      exact ih (p - b) (by omega) hle hle' hbit
  · rintro (rfl | hnone) p
    · simp
    · exact iff_of_false (fun h => hnone (b + p) (Nat.le_add_right b p) h.1 h.2)
        fun h => hnone p h.1.1 h.1.2 h.2

theorem not_star_iff_zero {pattern : List PatternBit} {b e : Nat}
    (hbits : ∀ p, b ≤ p → p ≤ e → ∃ bit, pattern.reverse[p]? = some bit ∧ bit ≠ .star) :
    ((∀ p, b ≤ p → p ≤ e → pattern.reverse[p]? ≠ some .free) ∧
        ∀ p, b ≤ p → p ≤ e → pattern.reverse[p]? ≠ some .one) ↔
      ∀ p, b ≤ p → p ≤ e → pattern.reverse[p]? = some .zero := by
  constructor
  · rintro ⟨hfree, hone⟩ p hbp hpe
    obtain ⟨bit, hbit, hstar⟩ := hbits p hbp hpe
    cases bit with
    | free => exact absurd hbit (hfree p hbp hpe)
    | zero => exact hbit
    | one => exact absurd hbit (hone p hbp hpe)
    | star => exact absurd rfl hstar
  · intro hzero
    constructor <;> intro p hbp hpe hbit <;> cases (hzero p hbp hpe).symm.trans hbit

/-- The rest follows once the masks are in place. -/
theorem inPlace_of_masks {r : RegisterNode} (h : (rtxTypeCheckRegister r).2 = true) {field : RegField}
    (hfield : field ∈ (rtxTypeCheckRegister r).1.fields)
    (hand : ∀ mask ∈ field.maskPattern, ∀ p,
      mask.andInt.testBit p = true ↔ field.Covers p ∧ r.pattern.reverse[p]? = some .free)
    (hor : ∀ mask ∈ field.maskPattern, ∀ p,
      mask.orInt.testBit p = true ↔ field.Covers p ∧ r.pattern.reverse[p]? = some .one) :
    InPlace (rtxTypeCheckRegister r).1 field where
  value_bits v hv n hn p hp := covers_of_value h hfield hv hn hp
  and_bits := hand
  or_bits := hor
  values_apart other hother hdisjoint v hv w hw m hm n hn := by
    refine Nat.eq_of_testBit_eq fun p => ?_
    rw [Nat.testBit_and, Nat.zero_testBit, Bool.and_eq_false_iff]
    by_contra hboth
    rw [not_or, Bool.not_eq_false, Bool.not_eq_false] at hboth
    exact hdisjoint p ⟨covers_of_value h hfield hv hm hboth.1, covers_of_value h hother hw hn hboth.2⟩
  masks_apart other hother hdisjoint mask hmask p hp := by
    constructor
    · exact Bool.eq_false_iff.2 fun hset => hdisjoint p ⟨((hand mask hmask p).1 hset).1, hp⟩
    · exact Bool.eq_false_iff.2 fun hset => hdisjoint p ⟨((hor mask hmask p).1 hset).1, hp⟩

/-- One field of an accepted register: the masks and the values speak of the same bits exactly when it begins the register
or has only bits the pattern fixes to 0. -/
theorem inPlace_checked_iff {r : RegisterNode} (h : (rtxTypeCheckRegister r).2 = true)
    {field : RegField} (hfield : field ∈ (rtxTypeCheckRegister r).1.fields) :
    InPlace (rtxTypeCheckRegister r).1 field ↔
      field.map.begin = 0 ∨ ∀ p, field.Covers p → r.pattern.reverse[p]? = some .zero := by
  obtain ⟨b, e, hb, he, hle, hbits, hmask, -⟩ := annotated_range h hfield
  have hcovers : ∀ p, field.Covers p ↔ b ≤ p ∧ p ≤ e := fun p => by
    rw [RegField.Covers, hb, he]
    omega
  have hfree := testBit_in_place_iff r.pattern .free b e
  have hone := testBit_in_place_iff r.pattern .one b e
  rw [← maskOf_andInt] at hfree
  rw [← maskOf_orInt] at hone
  have hzero : (b = 0 ∨ ∀ p, b ≤ p → p ≤ e → r.pattern.reverse[p]? = some .zero) ↔
      field.map.begin = 0 ∨ ∀ p, field.Covers p → r.pattern.reverse[p]? = some .zero := by
    simp only [hcovers, hb, Int.natCast_eq_zero, and_imp]
  rw [← hzero, ← not_star_iff_zero hbits, or_and_left, ← hfree, ← hone]
  constructor
  · intro hplaced
    have hand := hplaced.and_bits _ hmask
    have hor := hplaced.or_bits _ hmask
    simp only [hcovers] at hand hor
    exact ⟨hand, hor⟩
  · rintro ⟨hand, hor⟩
    simp only [← hcovers] at hand hor
    refine inPlace_of_masks h hfield (fun mask hm => ?_) fun mask hm => ?_
    · cases Option.some.inj (hmask.symm.trans hm)
      exact hand
    · cases Option.some.inj (hmask.symm.trans hm)
      exact hor

/-- **The masks and the values of an accepted register** speak of the same bits exactly when every field, its bounds put
in order, begins the register or has only bits the pattern fixes to 0. -/
theorem inPlace_iff (r : RegisterNode) (h : (rtxTypeCheckRegister r).2 = true) :
    (∀ field ∈ (rtxTypeCheckRegister r).1.fields, InPlace (rtxTypeCheckRegister r).1 field) ↔
      ∀ field ∈ r.fields, field.map.ordered.begin = 0 ∨
        ∀ p : Nat, field.map.ordered.begin ≤ p → p ≤ field.map.ordered.other →
          r.pattern.reverse[p]? = some .zero := by
  calc (∀ field ∈ (rtxTypeCheckRegister r).1.fields, InPlace (rtxTypeCheckRegister r).1 field)
    _ ↔ ∀ field ∈ (rtxTypeCheckRegister r).1.fields,
          field.map.begin = 0 ∨ ∀ p, field.Covers p → r.pattern.reverse[p]? = some .zero :=
        forall₂_congr fun _ hfield => inPlace_checked_iff h hfield
    _ ↔ ∀ field ∈ r.fields, field.map.ordered.begin = 0 ∨
          ∀ p, field.ordered.Covers p → r.pattern.reverse[p]? = some .zero := by
        rw [rtxTypeCheckRegister_of_accepted h, List.forall_mem_map]
        exact Iff.rfl
    _ ↔ _ := by simp only [RegField.Covers, and_imp, RegField.ordered]

theorem inPlace_iff_nibbles :
    (∀ field ∈ (rtxTypeCheckRegister nibbles).1.fields,
        InPlace (rtxTypeCheckRegister nibbles).1 field) ↔
      ∀ field ∈ nibbles.fields, field.map.ordered.begin = 0 ∨
        ∀ p : Nat, field.map.ordered.begin ≤ p → p ≤ field.map.ordered.other →
          nibbles.pattern.reverse[p]? = some .zero :=
  inPlace_iff nibbles (by decide)

/-- The value of the upper field is 240 and its mask is 15, which is the lower field. -/
theorem highNibble_not_inPlace :
    (rtxTypeCheckRegister nibbles).2 = true ∧
      highNibble ∈ (rtxTypeCheckRegister nibbles).1.fields ∧
      ¬ InPlace (rtxTypeCheckRegister nibbles).1 highNibble := by
  refine ⟨by decide, by decide, fun hplaced => ?_⟩
  have hcovers : highNibble.Covers 0 := ((hplaced.and_bits _ rfl 0).1 (by decide)).1
  exact absurd hcovers.1 (by decide)

end Rathaxes.Front
