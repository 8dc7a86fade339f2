import Rathaxes.CodeWorker.While

/-!
# Registers of a device

`rtxTypeCheck_Register` of `typing/routines/rtxTypingRoutines_Front.inc.cws` with the bit functions of
`misc/rtxTools.inc.cws`, and what `rtxType_regMap` of `typing/rules_types/symbol.inc.cws` makes of the result.
A register is described by a pattern of bits, written with the most significant bit first, and by fields that
name ranges of it; the values of a field are named bit strings. The check orders the bounds of each field,
tests them against the pattern and leaves the masks of the field and the numbers of its values in the tree.

The check annotates as it goes and stops at the first field it refuses, so what it returns is the register
as far as it was annotated beside the verdict. Arithmetic is over unbounded integers.
-/

set_option autoImplicit false

namespace Rathaxes.Front

/-! ## Nodes -/

/-- A character of a pattern: `.` for a bit that is left open, `0` and `1` for a fixed one, `*` for one that
no field may use. -/
inductive PatternBit where
  | free
  | zero
  | one
  | star
deriving DecidableEq

/-- `rtx_bit_range`: one bound or two, in either order. -/
structure BitRange where
  begin : Int
  endBit : Option Int
deriving DecidableEq

/-- `rtx_bit_mask`: a named value of a field. The check inserts `bitsize` and `value`. -/
structure FieldValue where
  name : String
  mask : List Bool
  bitsize : Option Nat := none
  value : Option Nat := none
deriving DecidableEq

/-- The masks of a field: bit strings, and their numbers once the whole range was read. An absent number
counts as zero, an absent text is empty. -/
structure MaskPattern where
  and : List Bool := []
  or : List Bool := []
  andInt : Nat := 0
  orInt : Nat := 0
  andHex : String := ""
  orHex : String := ""
deriving DecidableEq

/-- `rtxNodeRegMap`. The check inserts `bitsize` and `maskPattern`. -/
structure RegField where
  name : String
  map : BitRange
  listmask : List FieldValue
  bitsize : Option Int := none
  maskPattern : Option MaskPattern := none
deriving DecidableEq

/-- `rtxNodeRegister` with the pattern and the offset of its `rtxNodeLike`. -/
structure RegisterNode where
  name : String
  pattern : List PatternBit
  offset : Int
  fields : List RegField
  bitsize : Option Nat := none
deriving DecidableEq

/-! ## Bit strings -/

/-- The loop of `bitArrayValue`: the last bit is added without a shift. -/
def bitArrayLoop : (res : Nat) → List Bool → Nat
  | res, [] => res
  | res, [bit] => res + bit.toNat
  | res, bit :: list => bitArrayLoop ((res + bit.toNat) <<< 1) list

/-- `bitArrayValue`. -/
def bitArrayValue (list : List Bool) : Nat := bitArrayLoop 0 list

/-- `bitToValue`; `stringToArray` is the list of the characters. -/
def bitToValue (str : List Bool) : Nat := bitArrayValue str

/-- `stringToArray`: the characters of a text, from the first one on. -/
def stringToArray (str : String) : List Char :=
  (CodeWorker.runWhile (fun s => s.1 < str.toList.length)
    (fun s => (s.1 + 1, s.2 ++ [str.toList.getD s.1 ' '])) str.toList.length (0, [])).2

/-- The numbers the arithmetic of `bitArrayValue` reads in the characters of a bit string. -/
def charBits (list : List Char) : List Bool := list.map fun c => decide (c = '1')

/-- `bitToValue` on a text. -/
def textToValue (str : String) : Nat := bitToValue (charBits (stringToArray str))

/-- `repr` of `valueToHex`. -/
def hexDigits : List Char :=
  ['0', '1', '2', '3', '4', '5', '6', '7', '8', '9', 'A', 'B', 'C', 'D', 'E', 'F']

/-- The loop of `valueToHex`. Each turn divides the number by sixteen, so the number itself is fuel enough. -/
def hexLoop : (fuel num : Nat) → List Char → List Char
  | 0, _, res => res
  | fuel + 1, num, res =>
    if 0 < num then hexLoop fuel (num >>> 4) (hexDigits.getD (num % 16) '0' :: res) else res

/-- `valueToHex`. -/
def valueToHex (num : Nat) : String :=
  if num = 0 then "0" else String.ofList (hexLoop num num [])

/-- The numbers of the two strings of a mask. -/
def MaskPattern.numbered (mask : MaskPattern) : MaskPattern :=
  let andInt := bitToValue mask.and
  let orInt := bitToValue mask.or
  { mask with
    andInt := andInt, orInt := orInt, andHex := valueToHex andInt, orHex := valueToHex orInt }

/-- The loop of `bitArrayExtractMask`, over the pattern from its least significant bit on. -/
def extractLoop (begin endBit : Int) : (idx : Nat) → List PatternBit → MaskPattern → MaskPattern × Bool
  | _, [], mask => (mask.numbered, true)
  | idx, thebit :: list, mask =>
    if begin ≤ idx ∧ idx ≤ endBit then
      match thebit with
      | .free => extractLoop begin endBit (idx + 1) list
          { mask with and := true :: mask.and, or := false :: mask.or }
      | .one => extractLoop begin endBit (idx + 1) list
          { mask with and := false :: mask.and, or := true :: mask.or }
      | .zero => extractLoop begin endBit (idx + 1) list
          { mask with and := false :: mask.and, or := false :: mask.or }
      | .star => (mask, false)
    else extractLoop begin endBit (idx + 1) list mask

/-- `bitArrayExtractMask`. -/
def bitArrayExtractMask (list : List PatternBit) (begin endBit : Int) : MaskPattern × Bool :=
  extractLoop begin endBit 0 list.reverse {}

/-! ## The check -/

/-- "check that begin and end are ordered". -/
def BitRange.ordered (map : BitRange) : BitRange :=
  match map.endBit with
  | none => map
  | some e => if e ≤ map.begin then ⟨e, some map.begin⟩ else map

/-- "check that the field is in the pattern": the test that refuses it. -/
def BitRange.outside (map : BitRange) (bitsize : Int) : Bool :=
  decide (map.begin < 0 ∨ bitsize - 1 < map.begin) ||
    map.endBit.any fun e => decide (bitsize - 1 < e)

/-- "calc the size of the field in bitsize". -/
def BitRange.size (map : BitRange) : Int :=
  match map.endBit with
  | none => 1
  | some e => 1 + e - map.begin

/-- "foreach value in field". -/
def checkValues (fieldBitsize begin : Int) : List FieldValue → List FieldValue × Bool
  | [] => ([], true)
  | value :: rest =>
    if (value.mask.length : Int) ≠ fieldBitsize then (value :: rest, false)
    else
      let checked := checkValues fieldBitsize begin rest
      ({ value with
          bitsize := some value.mask.length
          value := some (bitArrayValue value.mask <<< begin.toNat) } :: checked.1, checked.2)

/-- One turn of "foreach fields". -/
def checkField (likePattern : List PatternBit) (field : RegField) : RegField × Bool :=
  let map := field.map.ordered
  if map.outside likePattern.length then ({ field with map := map }, false)
  else
    let extracted := bitArrayExtractMask likePattern map.begin (map.endBit.getD map.begin)
    let annotated :=
      { field with map := map, bitsize := some map.size, maskPattern := some extracted.1 }
    if extracted.2 then
      let values := checkValues map.size map.begin field.listmask
      ({ annotated with listmask := values.1 }, values.2)
    else (annotated, false)

/-- "foreach fields". -/
def checkFields (likePattern : List PatternBit) : List RegField → List RegField × Bool
  | [] => ([], true)
  | field :: rest =>
    let checked := checkField likePattern field
    if checked.2 then
      let others := checkFields likePattern rest
      (checked.1 :: others.1, others.2)
    else (checked.1 :: rest, false)

/-- `rtxTypeCheck_Register`. -/
def rtxTypeCheckRegister (theRegister : RegisterNode) : RegisterNode × Bool :=
  let checked := checkFields theRegister.pattern theRegister.fields
  ({ theRegister with bitsize := some theRegister.pattern.length, fields := checked.1 }, checked.2)

/-! ## What is emitted -/

/-- The properties of a register, a field and a value that a template may ask for. -/
inductive RegProperty where
  | value
  | andMask
  | orMask
  | valuename
  | regname
  | fieldname
  | offset
  | other (T : String)
deriving DecidableEq

/-- `rtxType_regMap<T>`, on the nodes that `map.registers` refers to: the text of the C terminal it
builds. -/
def rtxTypeRegMap (T : RegProperty) (reg : RegisterNode) (regfield : RegField) (regval : FieldValue) :
    Except String String :=
  match T with
  | .value => .ok (regval.value.elim "" toString)
  | .andMask => .ok (regfield.maskPattern.elim "" MaskPattern.andHex)
  | .orMask => .ok (regfield.maskPattern.elim "" MaskPattern.orHex)
  | .valuename => .ok regval.name
  | .regname => .ok reg.name
  | .fieldname => .ok regfield.name
  | .offset => .ok (toString reg.offset)
  | .other T => .error ("Unknown property:" ++ T)

end Rathaxes.Front
