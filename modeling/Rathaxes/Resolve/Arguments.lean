import Rathaxes.CodeWorker.Position
import Rathaxes.Front.Call

/-!
# Arguments of a call

The container of arguments a chunk is instantiated with (`rtxNodeArg`, `rtxNodeArgs_AppendArg` and
`rtxNodeArgs_GetArgByName` of `node/rtxNode.inc.cws`), and `rtxResolve_BuildParameterResVals` of
`passes/common/rtxResolve.inc.cws` with `search_chunk` false: the arguments of a call in a sequence
implementation, under the names of the parameters of the called sequence.

An argument of the call that the container of the caller has by name is taken from there. Another one is
translated to C. A node that is translated to an identifier is looked for once more, under the same name,
and what was not found has no type.
-/

set_option autoImplicit false

namespace Rathaxes.Resolve

open CodeWorker Front

/-- What `rtxNode2cnormNode` leaves: the expressions `cnormNode_TerminalId` and
`cnormNode_TerminalLiteral` build, another C expression, or a node of the front end as it was. -/
inductive CNode where
  | terminalId (id : String)
  | terminalLiteral (val : String)
  | expr (text : String)
  | rtx (node : CallArg)
deriving DecidableEq

/-- The value of an argument: a C expression, and not the identifier without a name. -/
def CNode.isValue : CNode → Bool
  | .terminalId id => id ≠ ""
  | .terminalLiteral _ => true
  | .expr _ => true
  | .rtx _ => false

/-- An `__rtx_arg__` node. -/
structure Arg where
  name : String
  rtype : RType
  value : CNode
  isValue : value.isValue = true
deriving DecidableEq

/-- The error of `rtxNodeArg`. -/
def cannotAddArg (theName : String) : String := "Cannot add arg " ++ theName ++ " with value="

/-- `rtxNodeArg`. -/
def rtxNodeArg (theName : String) (theRtype : RType) (theValue : CNode) : Except String Arg :=
  if h : theValue.isValue = true then .ok ⟨theName, theRtype, theValue, h⟩
  else .error (cannotAddArg theName)

/-- `rtxNodeArgs_GetArgByName`; `none` when it returns false. -/
def getArgByName (args : List Arg) (theName : String) : Option Arg :=
  args.find? fun arg => arg.name = theName

/-- `rtxNodeArgs_AppendArg`; `none` when it returns false. -/
def appendArg (args : List Arg) (theName : String) (theRtype : RType) (theValue : CNode) :
    Except String (Option (List Arg)) :=
  if args.any fun arg => arg.name = theName then .ok none
  else do
    let theArg ← rtxNodeArg theName theRtype theValue
    return some (args ++ [theArg])

/-- The error of `rtxNode2cnormNode` on a node it does not know. -/
def noTranslation (T : String) : String :=
  "Translation for rathaxes node of type " ++ T ++ " not implemented yet !"

/-- `rtxNode2cnormNode`. -/
def rtxNode2cnormNode (inParam : CallArg) : Except String CNode :=
  match inParam.kind with
  | .string => .ok (.terminalLiteral inParam.val)
  | .number => .ok (.terminalLiteral inParam.val)
  | .symbol => .ok (.terminalId inParam.val)
  | .registerField => .ok (.rtx inParam)
  | .registerValue => .ok (.rtx inParam)
  | .dataField => .error (noTranslation inParam.kind.typeText)

/-- An expression that is not a literal is found by its attribute `id`, empty where there is none. -/
def CNode.lookupId : CNode → Option String
  | .terminalId id => some id
  | .terminalLiteral _ => none
  | .expr _ => some ""
  | .rtx _ => none

/-- `rtxNodeArg_getRType` and `rtxNodeArg_getValue`, which return false on a node that is no argument. -/
def Arg.typeAndValue (arg : Option Arg) : Option (RType × CNode) :=
  arg.map fun arg => (arg.rtype, arg.value)

/-- The type and the value of one argument; `none` when the function returns false. -/
def paramResVal (srcResVals : List Arg) (srcP : CallArg) : Except String (Option (RType × CNode)) :=
  let srcArg := getArgByName srcResVals srcP.val
  if srcArg.isSome then .ok (Arg.typeAndValue srcArg)
  else do
    let paramValue ← rtxNode2cnormNode srcP
    match paramValue.lookupId with
    | none => return some (srcP.rtype, paramValue)
    | some srcName =>
      -- the test is the wrong way round: what is found is refused, and what is not found has no type
      let srcArg := getArgByName srcResVals srcName
      if srcArg.isSome then return none else return Arg.typeAndValue srcArg

/-- The error of an argument that cannot be appended. -/
def couldNotAppend : String := "[Error] Could not append argument to arguments container."

/-- The loop over the parameters: names with their positions. The arguments appended so far, and what
the function returns. -/
def buildResVals (srcResVals : List Arg) (srcParams : List CallArg) :
    List (String × Nat) → List Arg → Except String (List Arg × Bool)
  | [], dstResVals => .ok (dstResVals, true)
  | dstP :: rest, dstResVals => do
    let srcP ← getAt srcParams dstP.2
    match ← paramResVal srcResVals srcP with
    | none => return (dstResVals, false)
    | some (paramType, paramValue) =>
      match ← appendArg dstResVals dstP.1 paramType paramValue with
      | none => .error couldNotAppend
      | some dstResVals => buildResVals srcResVals srcParams rest dstResVals

/-- `rtxResolve_BuildParameterResVals` with `search_chunk` false. -/
def buildParameterResVals (srcResVals : List Arg) (srcParams : List CallArg) (dstParams : List String) :
    Except String (List Arg × Bool) :=
  buildResVals srcResVals srcParams dstParams.zipIdx []

end Rathaxes.Resolve
