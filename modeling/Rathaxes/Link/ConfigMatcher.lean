import Rathaxes.Node.With

/-!
# Matching a with-block against a configuration

`linker/rtxLink_ConfigMatcher.inc.cws` and the comparisons the value types of
`typing/rules_types` contribute to it. A with-block is compatible with a configuration unless one
of its constraints speaks of an interface the configuration defines and then finds its variable
missing or its comparison false. A comparison a type does not implement raises an error, which
ends the generation: such a match has no verdict at all, hence the `Except`.

Comparisons of two values are comparisons of their texts; positions in a serial's list are
counted as numbers. Read to the letter the source compares the positions as texts too, since no `$…$`
stands around that test: `serialOrderBy` is the same loop for any comparison of positions.
-/

set_option autoImplicit false

namespace Rathaxes.Link

open CodeWorker

/-! ## Serial numbers -/

/-- The loop the four orderings of serials share, on the two lists of parts. It stops at the
first pair of parts that differ; `onLesser` answers when the value is the smaller one there or runs
out of parts, `onGreater` when it is the greater one or has parts left, `onEqual` when both end
together. Parts of different kinds and different separators make every ordering false. -/
def serialOrder (onLesser onEqual onGreater : Bool) : (ref val : List SerialItem) → Bool
  | [], [] => onEqual
  | [], _ :: _ => onGreater
  | _ :: _, [] => onLesser
  | .unit r :: ref, .unit v :: val =>
    if v < r then onLesser
    else if r < v then onGreater
    else serialOrder onLesser onEqual onGreater ref val
  | .sep r :: ref, .sep v :: val =>
    if v ≠ r then false else serialOrder onLesser onEqual onGreater ref val
  | .unit _ :: _, .sep _ :: _ => false
  | .sep _ :: _, .unit _ :: _ => false

/-- The same loop as it is written, with the position it counts: the remaining parts of the
reference against the part of the value at `idx`. `lesser` compares two positions. -/
def serialLoop (lesser : Nat → Nat → Bool) (onLesser onEqual onGreater : Bool) (refSize : Nat)
    (val : List SerialItem) : Nat → List SerialItem → Bool
  | _, [] => if lesser refSize val.length then onGreater else onEqual
  | idx, refUnit :: ref =>
    -- "Check we arent out of bounds in val.list."
    if lesser idx val.length = false then onLesser
    else
      match refUnit, val[idx]? with
      | .unit r, some (.unit v) =>
        if v < r then onLesser
        else if r < v then onGreater
        else serialLoop lesser onLesser onEqual onGreater refSize val (idx + 1) ref
      | .sep r, some (.sep v) =>
        if v ≠ r then false
        else serialLoop lesser onLesser onEqual onGreater refSize val (idx + 1) ref
      | _, _ => false

/-- The ordering that compares positions with `lesser`. -/
def serialOrderBy (lesser : Nat → Nat → Bool) (onLesser onEqual onGreater : Bool)
    (ref val : List SerialItem) : Bool :=
  serialLoop lesser onLesser onEqual onGreater ref.length val 0 ref

/-- Two numbers compared as the texts they are written as. -/
def textLesser (i j : Nat) : Bool := decide (toString i < toString j)

/-- `rtxLink_CompareLesser<"Builtin::serial">`, positions compared as texts. -/
def serialLesserText : (ref val : List SerialItem) → Bool :=
  serialOrderBy textLesser true false false

/-- `rtxLink_CompareLesser<"Builtin::serial">`. -/
def serialLesser : (ref val : List SerialItem) → Bool := serialOrder true false false

/-- `rtxLink_CompareLesserEqual<"Builtin::serial">`. -/
def serialLesserEqual : (ref val : List SerialItem) → Bool := serialOrder true true false

/-- `rtxLink_CompareGreaterEqual<"Builtin::serial">`. -/
def serialGreaterEqual : (ref val : List SerialItem) → Bool := serialOrder false true true

/-- `rtxLink_CompareGreater<"Builtin::serial">`. -/
def serialGreater : (ref val : List SerialItem) → Bool := serialOrder false false true

/-! ## Numbers -/

/-- `cutString(text, ".", parts)`. -/
def cutAtDots (text : String) : List String := (text.toList.splitOn '.').map String.ofList

/-- `parts[i]`; reading an absent entry gives the empty text. -/
def part (parts : List String) (i : Nat) : String := parts.getD i ""

/-- `rtxLink_CompareLesser<"Builtin::number">`. -/
def numberLesser (ref val : String) : Bool :=
  let refParts := cutAtDots ref
  let valParts := cutAtDots val
  if part valParts 0 < part refParts 0 then true
  else if part valParts 0 = part refParts 0 then
    if 1 < refParts.length then
      if valParts.length = 1 then true else decide (part valParts 1 < part refParts 1)
    else false
  else false

/-- `rtxLink_CompareGreater<"Builtin::number">`. The missing decimals of the reference are
answered with false here, where the mirror image above answers true. -/
def numberGreater (ref val : String) : Bool :=
  let refParts := cutAtDots ref
  let valParts := cutAtDots val
  if part refParts 0 < part valParts 0 then true
  else if part valParts 0 = part refParts 0 then
    if 1 < valParts.length then
      if refParts.length = 1 then false else decide (part refParts 1 < part valParts 1)
    else false
  else false

/-! ## The comparisons by type -/

/-- The text of the errors the generic comparisons raise. -/
def notComparable (op T : String) : String :=
  "[Error] Comparison operator '" ++ op ++ "' is not compatible or implemented for the type " ++ T

/-- `rtxLink_CompareLesser<T>`. -/
def compareLesser (T : String) (ref val : ValueNode) : Except String Bool :=
  if T = "Builtin::serial" then .ok (serialLesser ref.list val.list)
  else if T = "Builtin::number" then .ok (numberLesser ref.val val.val)
  else .error (notComparable "<" T)

/-- `rtxLink_CompareEqual<T>`. -/
def compareEqual (T : String) (ref val : ValueNode) : Except String Bool :=
  if T = "Builtin::serial" then .ok (decide (ref = val))
  else if T = "Builtin::number" ∨ T = "Builtin::string" ∨ T = "Builtin::symbol" then
    .ok (decide (ref.val = val.val))
  else .error (notComparable "=" T)

/-- `rtxLink_CompareLesserEqual<T>`. -/
def compareLesserEqual (T : String) (ref val : ValueNode) : Except String Bool :=
  if T = "Builtin::serial" then .ok (serialLesserEqual ref.list val.list)
  else if T = "Builtin::number" then
    .ok (numberLesser ref.val val.val || decide (ref.val = val.val))
  else .error (notComparable "<=" T)

/-- `rtxLink_CompareGreaterEqual<T>`. -/
def compareGreaterEqual (T : String) (ref val : ValueNode) : Except String Bool :=
  if T = "Builtin::serial" then .ok (serialGreaterEqual ref.list val.list)
  else if T = "Builtin::number" then
    .ok (numberGreater ref.val val.val || decide (ref.val = val.val))
  else .error (notComparable ">=" T)

/-- `rtxLink_CompareGreater<T>`. -/
def compareGreater (T : String) (ref val : ValueNode) : Except String Bool :=
  if T = "Builtin::serial" then .ok (serialGreater ref.list val.list)
  else if T = "Builtin::number" then .ok (numberGreater ref.val val.val)
  else .error (notComparable ">" T)

/-- `rtxLink_CompareValues<op>`: the reference value's type chooses the comparison. -/
def compareValues (op : Operator) (ref val : ValueNode) : Except String Bool :=
  let T := ref.rtype.rtxRTypeName
  match op with
  | .lesser => compareLesser T ref val
  | .lesserEqual => compareLesserEqual T ref val
  | .equal => compareEqual T ref val
  | .greaterEqual => compareGreaterEqual T ref val
  | .greater => compareGreater T ref val

/-! ## The matcher -/

/-- The inner loop of `rtxLink_IsWithNodeCompatible`, over the constraints of one interface. -/
def matchConstraints (vars : Table ConfigVar) : List (String × Constraint) → Except String Bool
  | [] => .ok true
  | (cstKey, constraint) :: rest =>
    match vars.get? cstKey with
    | none => .ok false
    | some var =>
      match compareValues constraint.op constraint.val var.val with
      | .error e => .error e
      | .ok false => .ok false
      | .ok true => matchConstraints vars rest

/-- The outer loop, over the interfaces of the with-block: one the configuration does not define
is not filtered over. -/
def matchInterfaces (config : Config) : List (String × Table Constraint) → Except String Bool
  | [] => .ok true
  | (itfKey, interface) :: rest =>
    match config.get? itfKey with
    | none => matchInterfaces config rest
    | some vars =>
      match matchConstraints vars interface.entries with
      | .error e => .error e
      | .ok false => .ok false
      | .ok true => matchInterfaces config rest

/-- `rtxLink_IsWithNodeCompatible`. -/
def isWithNodeCompatible (withConfig : WithConfig) (config : Config) : Except String Bool :=
  matchInterfaces config withConfig.entries

end Rathaxes.Link
