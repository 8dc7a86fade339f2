import Rathaxes.CodeWorker.Table
import Rathaxes.Node.RType

/-!
# Calls of the front end

A device implements a sequence by calls. `rtxNodeCall_paramType` of `node/rtxNode.inc.cws` gives the
type of each argument of a call and rejects what it does not know, and `rtxNodeCall_toRtype` puts the
prototype of the called sequence together from these types.

The nodes of arguments are those that `rtxType_Search` builds with the rules of
`typing/rules_types`. The attribute `val` of a string, a number or a symbol is a text; that of a register
field or value is an array, and then its own text is empty.
-/

set_option autoImplicit false

namespace Rathaxes.Front

open CodeWorker

/-- The type of an argument's node. -/
inductive ArgKind where
  | string
  | number
  | symbol
  | dataField
  | registerField
  | registerValue
deriving DecidableEq

/-- The attribute `type` of such a node. -/
def ArgKind.typeText : ArgKind → String
  | .string => "__rtx_string__"
  | .number => "__rtx_number__"
  | .symbol => "__rtx_symbol__"
  | .dataField => "__rtx_data_field__"
  | .registerField => "__rtx_register_field__"
  | .registerValue => "__rtx_register_value__"

/-- An argument of a call: the text and the entries of its attribute `val`, and its type. -/
structure CallArg where
  kind : ArgKind
  val : String
  parts : List String
  rtype : RType
deriving DecidableEq

/-- A field of a register in the map of the tree: its values, if it describes any. -/
structure RegisterField where
  map : Option (List String)

/-- A register in the map of the tree: its fields, if it describes any. -/
structure Register where
  map : Option (Table RegisterField)

/-- A declaration of a device, as far as the lookup of a symbol reads it. -/
inductive DeclHead where
  | register (name : String)
  | property
  | sequence
deriving DecidableEq

/-- A sequence implementation, with what is reached from its node: the declarations of its device, and
`map.registers` of the root. -/
structure SequenceNode where
  rtype : RType
  seqParamName : List String
  device : List DeclHead
  registers : Option (Table Register)

/-- The identifier `Builtin::name`. -/
def builtin (name : Word) : Ident := rtxNodeIdentifier name ⟨"Builtin", .refl true⟩

/-- The error of `rtxNodeCall_setNodeIdentifier` on a node it does not know, here one that is absent. -/
def setNodeIdentifierMissing : String := "rtxNodeCall_setNodeIdentifier<> not implemented."

/-- The loop over the parameters of the implemented sequence: the type of the one with this name.
`none` when there is none. -/
def findParamType (theSequence : SequenceNode) (val : String) : Except String (Option Ident) :=
  match theSequence.seqParamName.findIdx? (· = val) with
  | none => .ok none
  | some i =>
    match theSequence.rtype.params[i]? with
    | some theParam => .ok (some theParam)
    | none => .error setNodeIdentifierMissing

/-- The entry of a field in the map of the registers. -/
def findField (registers : Option (Table Register)) (register field : String) :
    Option RegisterField := do
  let curMap ← registers
  let reg ← curMap.get? register
  let fields ← reg.map
  fields.get? field

/-- `rtxNodeCall_paramType`: the type of the argument; `none` when it returns false. -/
def paramType (theSequence : SequenceNode) (theParam : CallArg) : Except String (Option Ident) :=
  match theParam.kind with
  | .string => .ok (some (builtin ⟨"string", .refl true⟩))
  | .number => .ok (some (builtin ⟨"number", .refl true⟩))
  | .registerField =>
    match theParam.parts with
    | [register, field] =>
      .ok ((findField theSequence.registers register field).map fun _ => theParam.rtype.name)
    | _ => .ok none
  | .registerValue =>
    match theParam.parts with
    | [register, field, value] =>
      .ok (do
        let found ← findField theSequence.registers register field
        let values ← found.map
        if value ∈ values then some theParam.rtype.name else none)
    | _ => .ok none
  | .dataField => findParamType theSequence theParam.val
  | .symbol =>
    match findParamType theSequence theParam.val with
    | .error message => .error message
    | .ok (some type) => .ok (some type)
    | .ok none =>
      -- not a parameter: a register of the device
      if DeclHead.register theParam.val ∈ theSequence.device then .ok (some (builtin ⟨"register", .refl true⟩))
      else .ok none

/-- A call: the name of the called sequence and the arguments. -/
structure Call where
  sequence : Ident
  args : List CallArg

/-- `rtxNodeCall_toRtype`: the types found, where one is missing that of a node left empty, and the value
it returns. -/
def toRtype (theCall : Call) (theSequence : SequenceNode) :
    Except String (Ident × List (Option Ident) × Bool) := do
  let params ← theCall.args.mapM (paramType theSequence)
  return (theCall.sequence, params, params.all Option.isSome)

end Rathaxes.Front
