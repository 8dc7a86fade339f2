import Rathaxes.Laws.Serial
import Mathlib.Order.Nat
import Mathlib.Data.Nat.Find

/-!
# Version serials and the order of their numbers

A version is a serial whose units are decimal numerals. The comparison reads the numerals as texts,
and it tells the end of the shorter serial by comparing two texts again, the position it has come to
and the number of parts. `reach` is the position at which that test ends the walk, which may be long before
the last part; up to there the first units that differ decide.
-/

set_option autoImplicit false

namespace Rathaxes.Link

open CodeWorker

/-! ## The loop by position -/

section Loop

variable {lesser : Nat → Nat → Bool} {onLesser onEqual onGreater : Bool} {refSize idx : Nat}
variable {val ref : List SerialItem}

/-- The position passes for one past the end of the value. -/
theorem serialLoop_stop {item : SerialItem} (hstop : lesser idx val.length = false) :
    serialLoop lesser onLesser onEqual onGreater refSize val idx (item :: ref) = onLesser := by
  unfold serialLoop
  exact if_pos hstop

/-- Two units at one position. -/
theorem serialLoop_unit {r v : String} (hgo : lesser idx val.length = true)
    (hval : val[idx]? = some (.unit v)) :
    serialLoop lesser onLesser onEqual onGreater refSize val idx (.unit r :: ref) =
      if v < r then onLesser
      else if r < v then onGreater
      else serialLoop lesser onLesser onEqual onGreater refSize val (idx + 1) ref := by
  conv_lhs => unfold serialLoop
  rw [if_neg (ne_false_of_eq_true hgo), hval]

/-- Two separators at one position. -/
theorem serialLoop_sep {r v : String} (hgo : lesser idx val.length = true)
    (hval : val[idx]? = some (.sep v)) :
    serialLoop lesser onLesser onEqual onGreater refSize val idx (.sep r :: ref) =
      if v ≠ r then false
      else serialLoop lesser onLesser onEqual onGreater refSize val (idx + 1) ref := by
  conv_lhs => unfold serialLoop
  rw [if_neg (ne_false_of_eq_true hgo), hval]

/-- The same part at one position. -/
theorem serialLoop_same {item : SerialItem} (hgo : lesser idx val.length = true)
    (hval : val[idx]? = some item) :
    serialLoop lesser onLesser onEqual onGreater refSize val idx (item :: ref) =
      serialLoop lesser onLesser onEqual onGreater refSize val (idx + 1) ref := by
  cases item with
  | unit u =>
    rw [serialLoop_unit hgo hval, if_neg (String.lt_irrefl u), if_neg (String.lt_irrefl u)]
  | sep s => rw [serialLoop_sep hgo hval, if_neg (not_not_intro rfl)]

end Loop

/-- With positions compared as numbers, the loop is the walk along both lists at once. -/
theorem serialLoop_numeric (onLesser onEqual onGreater : Bool) (ref val : List SerialItem)
    (idx refSize : Nat) (hidx : idx ≤ val.length) (hsize : idx + ref.length = refSize) :
    serialLoop (fun i j => decide (i < j)) onLesser onEqual onGreater refSize val idx ref =
      serialOrder onLesser onEqual onGreater ref (val.drop idx) := by
  induction ref generalizing idx with
  | nil =>
    rw [List.length_nil, Nat.add_zero] at hsize
    rw [serialLoop, ← hsize]
    rcases Nat.lt_or_eq_of_le hidx with hlt | heq
    · rw [List.drop_eq_getElem_cons hlt, serialOrder, if_pos (decide_eq_true hlt)]
    · rw [heq, List.drop_length, serialOrder, if_neg (by simp)]
  | cons item ref ih =>
    rcases Nat.lt_or_eq_of_le hidx with hlt | heq
    · have hnext := ih (idx + 1) hlt (by rw [← hsize, List.length_cons]; omega)
      have hgo : decide (idx < val.length) = true := decide_eq_true hlt
      rw [List.drop_eq_getElem_cons hlt]
      cases hval : val[idx] with
      | unit v =>
        have hval? : val[idx]? = some (.unit v) := List.getElem?_eq_some_iff.2 ⟨hlt, hval⟩
        cases item with
        | unit r => rw [serialLoop_unit hgo hval?, serialOrder, hnext]
        | sep r =>
          unfold serialLoop
          rw [if_neg (ne_false_of_eq_true hgo), hval?, serialOrder]
      | sep v =>
        have hval? : val[idx]? = some (.sep v) := List.getElem?_eq_some_iff.2 ⟨hlt, hval⟩
        cases item with
        | unit r =>
          unfold serialLoop
          rw [if_neg (ne_false_of_eq_true hgo), hval?, serialOrder]
        | sep r => rw [serialLoop_sep hgo hval?, serialOrder, hnext]
    · rw [heq, List.drop_length, serialLoop_stop (by simp), serialOrder]

/-- **With the comparison of numbers** the loop is the recursion over the two lists, whatever it answers at its three ends. -/
theorem serialOrderBy_numeric (onLesser onEqual onGreater : Bool) (ref val : List SerialItem) :
    serialOrderBy (fun i j => decide (i < j)) onLesser onEqual onGreater ref val =
      serialOrder onLesser onEqual onGreater ref val := by
  rw [serialOrderBy, serialLoop_numeric _ _ _ _ _ _ _ (Nat.zero_le _) (Nat.zero_add _),
    List.drop_zero]

/-! ## Versions -/

/-- One part of a version. -/
inductive VersionPart where
  | number (n : Nat)
  | sep (text : String)
deriving DecidableEq

namespace VersionPart

/-- The part of the serial it is read into. -/
def item : VersionPart → SerialItem
  | number n => .unit (toString n)
  | sep text => .sep text

/-- The number of a unit. -/
def number? : VersionPart → Option Nat
  | number n => some n
  | sep _ => none

end VersionPart

/-- A serial whose units are decimal numerals without leading zeros, as their numbers. -/
structure Version where
  first : Nat
  rest : List (String × Nat)
  several : rest ≠ []

/-- Numbers with their separators. -/
def versionPairs : List (String × Nat) → List VersionPart
  | [] => []
  | (sep, n) :: rest => .sep sep :: .number n :: versionPairs rest

namespace Version

/-- The serial it is written as. -/
def serial (v : Version) : Serial where
  first := toString v.first
  rest := v.rest.map fun e => (e.1, toString e.2)
  several := fun h => v.several (List.map_eq_nil_iff.1 h)

/-- Numbers and separators in order. -/
def parts (v : Version) : List VersionPart := .number v.first :: versionPairs v.rest

/-- The sequence of its numbers. -/
def numbers (v : Version) : List Nat := v.first :: v.rest.map Prod.snd

/-- Where both versions have a separator it is the same one. -/
def SameSeparators (v w : Version) : Prop :=
  ∀ (i : Nat) (a b : String × Nat), v.rest[i]? = some a → w.rest[i]? = some b → a.1 = b.1

end Version

theorem map_item_versionPairs (rest : List (String × Nat)) :
    (versionPairs rest).map VersionPart.item = serialPairs (rest.map fun e => (e.1, toString e.2)) := by
  induction rest with
  | nil => rfl
  | cons e rest ih =>
    rw [versionPairs, List.map_cons, List.map_cons, ih]
    rfl

theorem filterMap_number_versionPairs (rest : List (String × Nat)) :
    (versionPairs rest).filterMap VersionPart.number? = rest.map Prod.snd := by
  induction rest with
  | nil => rfl
  | cons e rest ih =>
    rw [List.map_cons, ← ih]
    rfl

theorem Version.map_item_parts (v : Version) : v.parts.map VersionPart.item = v.serial.items :=
  congrArg (SerialItem.unit (toString v.first) :: ·) (map_item_versionPairs v.rest)

theorem Version.filterMap_number_parts (v : Version) :
    v.parts.filterMap VersionPart.number? = v.numbers :=
  congrArg (v.first :: ·) (filterMap_number_versionPairs v.rest)

/-! ## How far the walk goes -/

theorem exists_not_textLesser (size : Nat) : ∃ i, textLesser i size = false :=
  ⟨size, decide_eq_false (String.lt_irrefl _)⟩

/-- The first position that passes for one past the end of a list of `size` parts. -/
def reach (size : Nat) : Nat := Nat.find (exists_not_textLesser size)

theorem reach_le (size : Nat) : reach size ≤ size :=
  Nat.find_min' _ (decide_eq_false (String.lt_irrefl _))

theorem textLesser_reach (size : Nat) : textLesser (reach size) size = false :=
  Nat.find_spec (exists_not_textLesser size)

theorem textLesser_of_lt_reach {i size : Nat} (h : i < reach size) : textLesser i size = true :=
  eq_true_of_ne_false (Nat.find_min (exists_not_textLesser size) h)

/-- The walk passes over what the two lists begin with. -/
theorem serialLoop_skip {ref val : List SerialItem} (refSize : Nat) {d : Nat}
    (hreach : d ≤ reach val.length) (hsame : ref.take d = val.take d) :
    serialLoop textLesser true false false refSize val 0 ref =
      serialLoop textLesser true false false refSize val d (ref.drop d) := by
  induction d with
  | zero => rw [List.drop_zero]
  | succ d ih =>
    have hbound : d < val.length := Nat.lt_of_lt_of_le hreach (reach_le _)
    have hlen : (ref.take (d + 1)).length = d + 1 := by
      rw [hsame, List.length_take]
      omega
    have hd : d < ref.length := by
      rw [List.length_take] at hlen
      omega
    have hitem : val[d]? = some ref[d] := by
      have hget := congrArg (·[d]?) hsame
      simp only [List.getElem?_take_of_lt (Nat.lt_succ_self d)] at hget
      rw [← hget, List.getElem?_eq_getElem hd]
    have hbefore : ref.take d = val.take d := by
      have htake := congrArg (List.take d) hsame
      rwa [List.take_take, List.take_take, Nat.min_eq_left (Nat.le_succ d)] at htake
    rw [ih (Nat.le_of_succ_le hreach) hbefore, List.drop_eq_getElem_cons hd,
      serialLoop_same (textLesser_of_lt_reach hreach) hitem]

/-! ## The first difference -/

theorem getElem?_eq_of_take_eq {ref val : List VersionPart} {d i : Nat}
    (hsame : ref.take d = val.take d) (hi : i < d) : ref[i]? = val[i]? := by
  have hget := congrArg (·[i]?) hsame
  simpa only [List.getElem?_take_of_lt hi] using hget

/-- Separators stand where separators stand, so two parts that differ are numbers. -/
theorem numbers_of_versionPairs_ne {as bs : List (String × Nat)}
    (hseps : ∀ (i : Nat) (a b : String × Nat), as[i]? = some a → bs[i]? = some b → a.1 = b.1)
    {i : Nat} {p q : VersionPart} (hp : (versionPairs as)[i]? = some p)
    (hq : (versionPairs bs)[i]? = some q) (hne : p ≠ q) :
    ∃ r v, p = .number r ∧ q = .number v := by
  induction as generalizing bs i with
  | nil => cases hp
  | cons a as ih =>
    cases bs with
    | nil => cases hq
    | cons b bs =>
      match i with
      | 0 =>
        cases hp
        cases hq
        exact absurd (congrArg VersionPart.sep (hseps 0 a b rfl rfl)) hne
      | 1 => exact ⟨_, _, (Option.some.inj hp).symm, (Option.some.inj hq).symm⟩
      | i + 2 => exact ih (fun j => hseps (j + 1)) hp hq

namespace Version

variable {ref val : Version}

theorem numbers_of_parts_ne (hseps : SameSeparators ref val) {i : Nat} {p q : VersionPart}
    (hp : ref.parts[i]? = some p) (hq : val.parts[i]? = some q) (hne : p ≠ q) :
    ∃ r v, p = .number r ∧ q = .number v := by
  cases i with
  | zero => exact ⟨_, _, (Option.some.inj hp).symm, (Option.some.inj hq).symm⟩
  | succ i => exact numbers_of_versionPairs_ne hseps hp hq hne

/-- Walking up to position `k`: the versions agree so far, the reference ends, or two numbers
differ. -/
theorem exists_decision (hseps : SameSeparators ref val) {k : Nat} (hk : k ≤ val.parts.length) :
    ∃ d ≤ k, ref.parts.take d = val.parts.take d ∧ d ≤ ref.parts.length ∧
      (d = k ∨ d = ref.parts.length ∨ (d < k ∧ ∃ r v, r ≠ v ∧
        ref.parts[d]? = some (.number r) ∧ val.parts[d]? = some (.number v))) := by
  induction k with
  | zero => exact ⟨0, Nat.le_refl 0, rfl, Nat.zero_le _, .inl rfl⟩
  | succ k ih =>
    obtain ⟨d, hd, hsame, hlen, hstop⟩ := ih (Nat.le_of_succ_le hk)
    rcases hstop with rfl | hend | ⟨hlt, hdiffer⟩
    · rcases Nat.lt_or_eq_of_le hlen with href | hend
      · have hr := List.getElem?_eq_getElem href
        have hv := List.getElem?_eq_getElem (show d < val.parts.length from hk)
        by_cases hpart : ref.parts[d] = val.parts[d]
        · refine ⟨d + 1, Nat.le_refl _, ?_, href, .inl rfl⟩
          rw [List.take_add_one, List.take_add_one, hsame, hr, hv, hpart]
        · obtain ⟨r, v, hrn, hvn⟩ := numbers_of_parts_ne hseps hr hv hpart
          refine ⟨d, Nat.le_succ d, hsame, hlen, .inr (.inr ⟨Nat.lt_succ_self d, r, v, ?_, ?_, ?_⟩)⟩
          · rintro rfl
            exact hpart (hrn.trans hvn.symm)
          · rw [hr, hrn]
          · rw [hv, hvn]
      · exact ⟨d, Nat.le_succ d, hsame, hlen, .inr (.inl hend)⟩
    · exact ⟨d, Nat.le_succ_of_le hd, hsame, hlen, .inr (.inl hend)⟩
    · exact ⟨d, Nat.le_succ_of_le hd, hsame, hlen, .inr (.inr ⟨Nat.lt_succ_of_lt hlt, hdiffer⟩)⟩

/-! ## The numeric order -/

theorem append_lt_append_iff {l m n : List Nat} : l ++ m < l ++ n ↔ m < n := by
  constructor
  · intro h
    induction l with
    | nil => exact h
    | cons x l ih =>
      rw [List.cons_append, List.cons_append, List.cons_lt_cons_iff] at h
      exact ih (h.resolve_left (Nat.lt_irrefl x)).2
  · exact List.append_left_lt

/-- The numbers before a position and those from it on. -/
theorem numbers_eq_of_getElem? {v : Version} {d n : Nat} (h : v.parts[d]? = some (.number n)) :
    v.numbers = (v.parts.take d).filterMap VersionPart.number? ++
      n :: (v.parts.drop (d + 1)).filterMap VersionPart.number? := by
  obtain ⟨hd, hn⟩ := List.getElem?_eq_some_iff.1 h
  have hsplit : v.parts = v.parts.take d ++ .number n :: v.parts.drop (d + 1) := by
    rw [← hn, ← List.drop_eq_getElem_cons hd, List.take_append_drop]
  rw [← filterMap_number_parts]
  conv_lhs => rw [hsplit]
  rw [List.filterMap_append]
  rfl

/-- The first numbers that differ decide. -/
theorem numbers_lt_iff_of_differ {d r v : Nat} (hsame : ref.parts.take d = val.parts.take d)
    (hr : ref.parts[d]? = some (.number r)) (hv : val.parts[d]? = some (.number v)) (hne : r ≠ v) :
    val.numbers < ref.numbers ↔ v < r := by
  rw [numbers_eq_of_getElem? hr, numbers_eq_of_getElem? hv, hsame, append_lt_append_iff,
    List.cons_lt_cons_iff]
  exact ⟨fun h => h.resolve_right fun heq => hne heq.1.symm, .inl⟩

/-- What a version begins with does not come after it. -/
theorem not_numbers_lt_of_begins
    (hsame : ref.parts.take ref.parts.length = val.parts.take ref.parts.length) :
    ¬ val.numbers < ref.numbers := by
  rw [List.take_length] at hsame
  rw [← ref.filterMap_number_parts, ← val.filterMap_number_parts,
    ← List.take_append_drop ref.parts.length val.parts, ← hsame, List.filterMap_append]
  exact List.not_lt.2 List.le_append_left

end Version

/-! ## The text comparison on versions -/

/-- What makes comparing texts order two versions as their numbers do. -/
structure OrderedAsNumbers (ref val : Version) : Prop where
  /-- Where the walk is ended by the test of the position, the value does come first. -/
  atReach : ref.parts.take (reach val.parts.length) = val.parts.take (reach val.parts.length) →
    reach val.parts.length < ref.parts.length → val.numbers < ref.numbers
  /-- The first numbers that differ before that are ordered as their numerals are. -/
  atDifference : ∀ d r v, d < reach val.parts.length → ref.parts.take d = val.parts.take d →
    ref.parts[d]? = some (.number r) → val.parts[d]? = some (.number v) →
    (toString v < toString r ↔ v < r)

section Walk

variable {ref val : Version} {d : Nat}

theorem Version.length_items (v : Version) : v.serial.items.length = v.parts.length := by
  rw [← Version.map_item_parts, List.length_map]

/-- The comparison as the walk from a position up to which the versions agree. -/
theorem serialLesserText_skip (hreach : d ≤ reach val.parts.length)
    (hsame : ref.parts.take d = val.parts.take d) :
    serialLesserText ref.serial.items val.serial.items =
      serialLoop textLesser true false false ref.serial.items.length val.serial.items d
        ((ref.parts.drop d).map VersionPart.item) := by
  have hitems : ref.serial.items.take d = val.serial.items.take d := by
    rw [← Version.map_item_parts, ← Version.map_item_parts, ← List.map_take, ← List.map_take, hsame]
  rw [List.map_drop, Version.map_item_parts]
  exact serialLoop_skip _ (val.length_items.symm ▸ hreach) hitems

theorem serialLesserText_of_reach
    (hsame : ref.parts.take (reach val.parts.length) = val.parts.take (reach val.parts.length))
    (hlen : reach val.parts.length < ref.parts.length) :
    serialLesserText ref.serial.items val.serial.items = true := by
  rw [serialLesserText_skip (Nat.le_refl _) hsame, List.drop_eq_getElem_cons hlen, List.map_cons]
  refine serialLoop_stop ?_
  rw [val.length_items]
  exact textLesser_reach _

theorem serialLesserText_of_begins (hlen : ref.parts.length ≤ reach val.parts.length)
    (hsame : ref.parts.take ref.parts.length = val.parts.take ref.parts.length) :
    serialLesserText ref.serial.items val.serial.items = false := by
  rw [serialLesserText_skip hlen hsame, List.drop_length, List.map_nil, serialLoop, ite_self]

theorem serialLesserText_of_differ {r v : Nat} (hd : d < reach val.parts.length)
    (hsame : ref.parts.take d = val.parts.take d) (hr : ref.parts[d]? = some (.number r))
    (hv : val.parts[d]? = some (.number v)) (hne : r ≠ v) :
    serialLesserText ref.serial.items val.serial.items = decide (toString v < toString r) := by
  obtain ⟨hlen, hget⟩ := List.getElem?_eq_some_iff.1 hr
  have hgo : textLesser d val.serial.items.length = true := by
    rw [val.length_items]
    exact textLesser_of_lt_reach hd
  have hval : val.serial.items[d]? = some (.unit (toString v)) := by
    rw [← Version.map_item_parts, List.getElem?_map, hv]
    rfl
  rw [serialLesserText_skip (Nat.le_of_lt hd) hsame, List.drop_eq_getElem_cons hlen, hget,
    List.map_cons, VersionPart.item, serialLoop_unit hgo hval]
  by_cases hlt : toString v < toString r
  · rw [if_pos hlt, decide_eq_true hlt]
  · -- two different numbers have different numerals, so the other order holds
    have hgt : toString r < toString v := by
      refine String.not_le.1 fun hle => hne ?_
      exact Table.positionKey_injective (String.le_antisymm (String.not_lt.1 hlt) hle)
    rw [if_neg hlt, if_pos hgt, decide_eq_false hlt]

/-- Numbers up to which the versions agree are the same, so their order is no condition. -/
theorem text_iff_of_agree {i r v : Nat} (hsame : ref.parts.take d = val.parts.take d) (hi : i < d)
    (hr : ref.parts[i]? = some (.number r)) (hv : val.parts[i]? = some (.number v)) :
    toString v < toString r ↔ v < r := by
  have hpart := getElem?_eq_of_take_eq hsame hi
  rw [hr, hv] at hpart
  obtain rfl : r = v := VersionPart.number.inj (Option.some.inj hpart)
  exact iff_of_false (String.lt_irrefl _) (Nat.lt_irrefl r)

end Walk

/-- **The text comparison of versions** follows the numeric order exactly when the test of the position
does not end the walk on a value that comes later, and the first numbers that differ are ordered as
their numerals are. -/
theorem serialLesserText_iff_numbers_lt (ref val : Version) (hseps : ref.SameSeparators val) :
    (serialLesserText ref.serial.items val.serial.items = true ↔ val.numbers < ref.numbers) ↔
      OrderedAsNumbers ref val := by
  obtain ⟨d, hd, hsame, hlen, hstop⟩ := Version.exists_decision hseps (reach_le val.parts.length)
  have hend : d = ref.parts.length →
      ((serialLesserText ref.serial.items val.serial.items = true ↔ val.numbers < ref.numbers) ↔
        OrderedAsNumbers ref val) := by
    rintro rfl
    have hnot := Version.not_numbers_lt_of_begins hsame
    rw [serialLesserText_of_begins hd hsame]
    refine iff_of_true (iff_of_false Bool.false_ne_true hnot) ⟨fun _ hlt => ?_, ?_⟩
    · exact absurd hd (Nat.not_le.2 hlt)
    · intro i r v _ _ hr hv
      exact text_iff_of_agree hsame (List.getElem?_eq_some_iff.1 hr).1 hr hv
  rcases hstop with rfl | hwhole | ⟨hlt, r, v, hne, hr, hv⟩
  · rcases Nat.lt_or_eq_of_le hlen with hmore | hwhole
    · rw [serialLesserText_of_reach hsame hmore]
      constructor
      · intro h
        exact ⟨fun _ _ => h.1 rfl, fun i r v hi _ hr hv => text_iff_of_agree hsame hi hr hv⟩
      · intro h
        exact iff_of_true rfl (h.atReach hsame hmore)
    · exact hend hwhole
  · exact hend hwhole
  · rw [serialLesserText_of_differ hlt hsame hr hv hne, decide_eq_true_iff,
      Version.numbers_lt_iff_of_differ hsame hr hv hne]
    have hbeyond : ∀ {i}, d < i → ref.parts.take i ≠ val.parts.take i := by
      intro i hi heq
      have hpart := getElem?_eq_of_take_eq heq hi
      rw [hr, hv] at hpart
      exact hne (VersionPart.number.inj (Option.some.inj hpart))
    constructor
    · intro h
      refine ⟨fun heq => absurd heq (hbeyond hlt), ?_⟩
      intro i r' v' _ hsame' hr' hv'
      rcases Nat.lt_trichotomy i d with hi | rfl | hi
      · exact text_iff_of_agree hsame hi hr' hv'
      · cases hr.symm.trans hr'
        cases hv.symm.trans hv'
        exact h
      · exact absurd hsame' (hbeyond hi)
    · intro h
      exact h.atDifference d r v hlt hsame hr hv

/-- Two versions that differ in numbers of one digit. -/
theorem serialLesserText_iff_numbers_lt_2_6_and_2_7 :
    (serialLesserText (Version.mk 2 [(".", 7)] (by decide)).serial.items
        (Version.mk 2 [(".", 6)] (by decide)).serial.items = true ↔
      (Version.mk 2 [(".", 6)] (by decide)).numbers <
        (Version.mk 2 [(".", 7)] (by decide)).numbers) ↔
      OrderedAsNumbers (Version.mk 2 [(".", 7)] (by decide))
        (Version.mk 2 [(".", 6)] (by decide)) := by
  refine serialLesserText_iff_numbers_lt _ _ ?_
  intro i a b ha hb
  cases i with
  | zero =>
    cases ha
    cases hb
    rfl
  | succ i => cases ha

/-- 2.6.9 comes before 2.6.10 and is not below it. -/
theorem not_serialLesserText_2_6_9_below_2_6_10 :
    serialLesserText (Version.mk 2 [(".", 6), (".", 10)] (by decide)).serial.items
        (Version.mk 2 [(".", 6), (".", 9)] (by decide)).serial.items = false ∧
      (Version.mk 2 [(".", 6), (".", 9)] (by decide)).numbers <
        (Version.mk 2 [(".", 6), (".", 10)] (by decide)).numbers := by
  decide

-- eleven parts: the position 2 passes for one past the end, so 1.2.1.1.1.1 is below 1.1
example :
    serialLesserText (Version.mk 1 [(".", 1)] (by decide)).serial.items
        (Version.mk 1 [(".", 2), (".", 1), (".", 1), (".", 1), (".", 1)] (by decide)).serial.items =
      true := by
  decide

end Rathaxes.Link
