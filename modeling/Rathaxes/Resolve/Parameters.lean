import Rathaxes.Back.InferTypes
import Rathaxes.Resolve.Arguments

/-!
# The values of the parameters of a chunk

`rtxResolve_BuildParameterResVals` of `passes/common/rtxResolve.inc.cws` with `search_chunk` true, as the injections of
pointcuts, sequence calls and method calls use it. The arguments stand in a placeholder of a chunk. A variable is taken
from the values the chunk was instantiated with. One that is not there is a variable of the C code, behind `local`, or
what `self` stands for. A literal is translated to C.

The variable `param_type` is made a reference to the type of the value that was found, and the type of a field is then
assigned to it: the assignment is one to the value of the caller. So the function returns the values of the caller as it
leaves them.
-/

set_option autoImplicit false

namespace Rathaxes.Resolve

open CodeWorker Front
open Back (Attributes ChunkTypes TypeNode fieldLookup)

/-- An argument in a placeholder: a variable with its fields, or a literal `rtxType_Search` has read. -/
inductive SrcParam where
  | var (identifiers : List String)
  | literal (node : CallArg)

/-- The arguments of a placeholder, with what is read of the chunk they stand in: `type_map` and `variables`. -/
structure Actuals where
  types : ChunkTypes
  params : List SrcParam

/-- What the values are built with: `type_map<T>`, which gives the expression for a chain of fields or returns false (for
types without a body of their own it is `Rathaxes.Resolve.typeMap`), and the attributes of the types. -/
structure ValueMaps where
  typeMap : ChunkTypes → List Arg → RType → List String → Except String (Option CNode)
  attributes : Attributes

/-! ## Where a variable comes from -/

/-- `Builtin::local`. -/
def builtinLocal : RType := ⟨rtxNodeIdentifier ⟨"local", .refl true⟩ ⟨"Builtin", .refl true⟩, []⟩

/-- `rtxResolve_BuildLocalSelf`. -/
def buildLocalSelf (types : ChunkTypes) (identifiers : List String) : Except String Arg := do
  let theLocal ← getAt identifiers 0
  if theLocal ≠ "local" then
    .error ("[Error] Trying to access chunk's local variable '" ++ theLocal ++ "' without the use of the 'local' prefix")
  else
    let varName ← getAt identifiers 1
    if (types.theVariables.get? varName).isSome then rtxNodeArg "self" builtinLocal (.terminalId varName)
    else .error ("[Error] Unknown local variable '" ++ varName ++ "'")

/-- An argument under the name `self`. -/
def Arg.asSelf (arg : Arg) : Arg := { arg with name := "self" }

/-- What a variable is resolved with: the `self` whose type is `resolver_type`, `param_type` and `src_name`. -/
structure Resolver where
  self : Arg
  paramType : TypeNode
  srcName : String

/-- The type of a variable in the tables of the chunk. -/
def variableType (types : ChunkTypes) (srcName : String) : Option TypeNode :=
  (types.typeMap.get? srcName).or ((types.theVariables.get? srcName).map Back.VariableType.typeNode)

/-- Where a variable comes from; `none` when the function returns false. -/
def resolver (types : ChunkTypes) (srcResVals : List Arg) (identifiers : List String) :
    Except String (Option Resolver) :=
  let srcName := identifiers[0]?.getD ""
  match getArgByName srcResVals srcName with
  | some srcArg => .ok (some ⟨srcArg.asSelf, .rtype srcArg.rtype, srcName⟩)
  | none => do
    let self ← if srcName = "local" then (buildLocalSelf types identifiers).map some
      else .ok (getArgByName srcResVals "self")
    match self with
    | none => return none
    | some self =>
      let srcName ← getAt identifiers 1
      let paramType ← copyOf ("theChunk.variables[" ++ srcName ++ "].type_node") (variableType types srcName)
      return some ⟨self, paramType, srcName⟩

/-! ## One argument -/

/-- The error of a variable that has no expression. -/
def couldNotResolve (r : Resolver) : String :=
  "[Error] Could not resolve variable '" ++ r.srcName ++ "' for type '" ++ r.self.rtype.rtxRTypeName ++ "'"

/-- The assignment of the type of a field to `param_type`, which refers to the type of a value of the caller if the
variable is one. -/
def setType (srcResVals : List Arg) (srcName : String) (fieldType : RType) : List Arg :=
  updateFirst (fun arg => arg.name = srcName) (fun arg => { arg with rtype := fieldType }) srcResVals

namespace ValueMaps

/-- The type and the value of a variable, once it is known where it comes from, with the values of the caller. A node
that is no type cannot be appended afterwards, so nobody gets to see it in the caller. -/
def mapVariable (m : ValueMaps) (types : ChunkTypes) (srcResVals : List Arg) (identifiers : List String) (r : Resolver) :
    Except String (List Arg × TypeNode × CNode) := do
  match ← m.typeMap types [r.self] r.self.rtype identifiers with
  | none => .error (couldNotResolve r)
  | some mapping =>
    if identifiers.length > 1 then
      match ← fieldLookup m.attributes types.theVariables (.rtype r.self.rtype) identifiers.tail with
      | none =>
        .error ("[Error] Could not resolve type fields for variable '" ++ identifiers.tail.head?.getD "" ++ "'")
      | some .other => return (srcResVals, .other, mapping)
      | some (.rtype fieldType) =>
        return (setType srcResVals (identifiers[0]?.getD "") fieldType, .rtype fieldType, mapping)
    else return (srcResVals, r.paramType, mapping)

/-- One argument: the values of the caller, the type and the value; `none` when the function returns false. -/
def srcResVal (m : ValueMaps) (types : ChunkTypes) (srcResVals : List Arg) :
    SrcParam → Except String (Option (List Arg × TypeNode × CNode))
  | .var identifiers => do
    match ← resolver types srcResVals identifiers with
    | none => return none
    | some r =>
      let mapped ← m.mapVariable types srcResVals identifiers r
      return some mapped
  | .literal node => do
    let paramValue ← rtxNode2cnormNode node
    return some (srcResVals, .rtype node.rtype, paramValue)

end ValueMaps

/-! ## All arguments -/

/-- `rtxNodeArgs_AppendArg` with a node for the type, which `rtxNodeArg` refuses if it is no rtype. -/
def appendNode (args : List Arg) (theName : String) (theType : TypeNode) (theValue : CNode) :
    Except String (Option (List Arg)) :=
  match theType with
  | .rtype theRtype => appendArg args theName theRtype theValue
  | .other => .ok none

/-- What the function leaves: the values of the caller, those of the chunk, and what it returns. -/
structure BuiltVals where
  srcResVals : List Arg
  dstResVals : List Arg
  returned : Bool
deriving DecidableEq

namespace ValueMaps

/-- The loop over the parameters: names with their positions. -/
def buildVals (m : ValueMaps) (actuals : Actuals) :
    List (String × Nat) → List Arg → List Arg → Except String BuiltVals
  | [], srcResVals, dstResVals => .ok ⟨srcResVals, dstResVals, true⟩
  | dstP :: rest, srcResVals, dstResVals => do
    let srcP ← getAt actuals.params dstP.2
    match ← m.srcResVal actuals.types srcResVals srcP with
    | none => return ⟨srcResVals, dstResVals, false⟩
    | some (srcResVals, paramType, paramValue) =>
      match ← appendNode dstResVals dstP.1 paramType paramValue with
      | none => .error couldNotAppend
      | some dstResVals => m.buildVals actuals rest srcResVals dstResVals

/-- `rtxResolve_BuildParameterResVals` with `search_chunk` true. Of the parameters it reads the names. -/
def buildChunkResVals (m : ValueMaps) (srcResVals : List Arg) (actuals : Actuals) (dstParams : List String) :
    Except String BuiltVals :=
  m.buildVals actuals dstParams.zipIdx srcResVals []

end ValueMaps

end Rathaxes.Resolve
