import Mathlib.Data.List.DropRight
import Rathaxes.CodeWorker.Reader
import Rathaxes.Node.With

/-!
# Values

`rtx_value` of `parse/rtxCommon.cwp`. The text up to the end of the value is handed to `rtxType_Search` of
`typing/rtxType.inc.cws`, which tries the rules of `typing/rules_types` in the order of their names: number,
string, symbol. Each has its own parser, run on the whole text; a rule matches when its parser matches the
front of the text, unless it asks for the end. If none matches the value is read as a serial.

Blanks before a value are skipped. Comments count as blanks and are left out.
-/

set_option autoImplicit false

namespace Rathaxes.Parse

open CodeWorker

/-! ## Numbers -/

/-- `hexa` of `number.inc.cws`. -/
def readHexa : Reader
  | '0' :: x :: s =>
    if x = 'x' ∨ x = 'X' then
      withFront ['0', x] (readRun (fun c => c.isDigit || ('a' ≤ c.toLower && c.toLower ≤ 'f')) s)
    else none
  | _ => none

/-- `data` of `number.inc.cws`. -/
def numberRule : Reader := fun s => (readHexa s).or (readInteger s)

/-! ## Strings -/

/-- The jump to a quote that no backslash stands before. -/
def stringTail : Reader
  | c :: d :: s =>
    if c ≠ backslash ∧ d = doubleQuote then some ([c, d], s) else withFront [c] (stringTail (d :: s))
  | _ => none

/-- `string` of `string.inc.cws`. -/
def stringRule : Reader
  | [] => none
  | c :: s => if c = doubleQuote then withFront [c] (stringTail s) else none

/-! ## Symbols -/

/-- What may follow the name of a symbol. -/
inductive Suffix where
  | plain
  | register (rfield : List Char) (value : Option (List Char))
  | field (field : List Char)
  | bits (bitBegin : List Char) (bitEnd : Option (List Char))
deriving DecidableEq

/-- The value of a field of a register. -/
def readRegisterValue : List Char → Option (List Char) × List Char
  | '.' :: s =>
    match readIdentifier s with
    | some (value, rest) => (some value, rest)
    | none => (none, '.' :: s)
  | s => (none, s)

/-- A field of a register, and a value of it. -/
def readRegister : List Char → Option (Suffix × List Char)
  | '-' :: '>' :: s => do
    let (rfield, s) ← readIdentifier s
    let (value, rest) := readRegisterValue s
    return (.register rfield value, rest)
  | _ => none

/-- A field of a variable. -/
def readField : List Char → Option (Suffix × List Char)
  | '.' :: s => do
    let (field, rest) ← readIdentifier s
    return (.field field, rest)
  | _ => none

/-- The end of a range. -/
def readBitEnd : List Char → Option (List Char) × List Char
  | '.' :: '.' :: s =>
    match readInteger s with
    | some (bitEnd, rest) => (some bitEnd, rest)
    | none => (none, '.' :: '.' :: s)
  | s => (none, s)

/-- An index or a range. -/
def readBits : List Char → Option (Suffix × List Char)
  | '[' :: s => do
    let (bitBegin, s) ← readInteger s
    let (bitEnd, s) := readBitEnd s
    match s with
    | ']' :: rest => return (.bits bitBegin bitEnd, rest)
    | _ => none
  | _ => none

/-- One of these, or nothing. -/
def readSuffix (s : List Char) : Suffix × List Char :=
  ((readRegister s).or ((readField s).or (readBits s))).getD (.plain, s)

/-- What `symbol.inc.cws` reads. The scope is read with its colons. -/
structure Symbol where
  scope : List Char
  sym : List Char
  suffix : Suffix

/-- The scope, if there is one. -/
def readScope (s : List Char) : List Char × List Char :=
  match readIdentifier s with
  | some (scope, ':' :: ':' :: rest) => (scope ++ [':', ':'], rest)
  | _ => ([], s)

/-- `string` of `symbol.inc.cws`. It asks for the end of the text. -/
def symbolRule (s : List Char) : Option Symbol := do
  let (scope, s) := readScope s
  let (sym, s) ← readIdentifier s
  let (suffix, s) := readSuffix s
  if s = [] then some ⟨scope, sym, suffix⟩ else none

/-! ## Serials -/

/-- The characters of `rtx_serial_unit`. -/
def isUnitChar (c : Char) : Bool := c.isAlphanum

/-- `rtx_serial_separator`. -/
def isSeparator (c : Char) : Bool := c = '.' || c = '_' || c = '-'

/-- The loop of `rtx_serial`; each turn reads two characters or more. -/
def readPairs : Nat → List Char → List (String × String) × List Char
  | fuel + 1, c :: s =>
    if isSeparator c then
      match readRun isUnitChar s with
      | some (unit, rest) =>
        let pairs := readPairs fuel rest
        ((String.singleton c, String.ofList unit) :: pairs.1, pairs.2)
      | none => ([], c :: s)
    else ([], c :: s)
  | _, s => ([], s)

/-- `rtx_serial`. -/
def readSerial (s : List Char) : Option (Serial × List Char) := do
  let (first, s) ← readRun isUnitChar s
  let pairs := readPairs s.length s
  if h : pairs.1 ≠ [] then some (⟨String.ofList first, pairs.1, h⟩, pairs.2) else none

/-! ## Values -/

/-- The value of a node. A symbol keeps its parts, and not its scope. -/
inductive Value where
  | number (val : List Char)
  | string (val : List Char)
  | symbol (sym : List Char) (suffix : Suffix)
  | serial (theSerial : Serial)

/-- `rtxType_Search`. -/
def rtxTypeSearch (src : List Char) : Option Value :=
  match numberRule src with
  | some (str, _) => some (.number str)
  | none =>
    match stringRule src with
    | some (str, _) => some (.string str)
    | none => (symbolRule src).map fun s => .symbol s.sym s.suffix

/-- The characters that end a value. -/
def isDelimiter (c : Char) : Bool := c = ',' || c = ')' || c = '\x7b' || c = ';'

/-- Everything up to the end of the value, without the blanks before it. -/
def readPlain : Reader := fun s =>
  let data := (s.takeWhile fun c => !isDelimiter c).rdropWhile Char.isWhitespace
  if data = [] then none else some (data, s.drop data.length)

/-- `data` of `rtx_value`. -/
def readData : Reader := fun s => (readCString s).or ((readCChar s).or (readPlain s))

/-- `rtx_value`: the node, and the text after the value. -/
def rtxValue (input : List Char) : Option (Value × List Char) :=
  let s := input.dropWhile Char.isWhitespace
  let serial := (readSerial s).map fun r => (Value.serial r.1, r.2)
  match readData s with
  | none => serial
  | some (data, rest) =>
    match rtxTypeSearch data with
    | some value => some (value, rest)
    | none => serial

end Rathaxes.Parse
