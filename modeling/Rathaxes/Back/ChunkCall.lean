import Rathaxes.Back.InferTypes
import Rathaxes.Mid.TypeCheck

/-!
# Calls of methods in C code

`rtxTypeCheck_CheckPlaceholder<"__rtx_tpl_chunk_call__">` of `typing/routines/rtxTypingRoutines_Back.inc.cws`,
with `rtxTypeCheck_GetType` of the same file. A placeholder calls a method of a type with variables for arguments.
The methods of that name and number of parameters are collected, those that do not go with the types of the
arguments should be removed, and the first one left is the method called.

The keys of those to remove are collected in a variable `remove_list` declared in the body of the loop. The
variable of that name at the top of the function, over which the removal goes, is another one. Besides, the test
`!isEmpty(param)` asks for entries of the node, and the node of a type has none.
-/

set_option autoImplicit false

namespace Rathaxes.Back

open CodeWorker Mid

/-- The declaration of a type in the tree of an interface. -/
structure TypeTree where
  rtype : RType
  body : List TypeItem

/-- The types the interfaces in the cache declare. -/
abbrev TypeTrees := Word → Option (List TypeTree)

/-- `rtxTypeCheck_GetType`: the type in the interface its scope names. -/
def getType (trees : TypeTrees) (rtypeNode : RType) : Option TypeTree :=
  (trees rtypeNode.name.scope).bind fun types =>
    types.find? fun entry =>
      entry.rtype.name.name = rtypeNode.name.name ∧ entry.rtype.name.scope = rtypeNode.name.scope

/-- What is read of the chunk: `variables`, the names of `parameters.list` and `pointcut`. -/
structure CallChunk where
  theVariables : Table VariableType
  parameters : List String
  pointcut : RType

/-- The placeholder: the type, the name of the method, and the identifiers of each argument. -/
structure ChunkCall where
  rtype : RType
  chunk : Word
  parameters : List (List String)

/-- What stands in `params` for an argument: nothing, the type of a variable of the C code, or the type of a
parameter of the chunk. -/
inductive ArgNode where
  | empty
  | rtype (typeNode : RType)
  | ident (id : Ident)
deriving DecidableEq

namespace ArgNode

/-- The attribute `name`, which in a type is a node without a text. -/
def name : ArgNode → String
  | empty => ""
  | rtype _ => ""
  | ident id => id.name.text

/-- The attribute `scope`. -/
def scope : ArgNode → String
  | empty => ""
  | rtype _ => ""
  | ident id => id.scope.text

/-- `isEmpty` asks whether a node has entries. Types and identifiers are made of attributes, so they have none. -/
def isEmpty : ArgNode → Bool
  | empty => true
  | rtype _ => true
  | ident _ => true

/-- The type known for the argument. -/
def type? : ArgNode → Option Ident
  | empty => none
  | rtype typeNode => some typeNode.name
  | ident id => some id

end ArgNode

/-- The type of an argument: that of a variable of the C code, or of the last parameter of the chunk with this name. -/
def CallChunk.argNode (theChunk : CallChunk) (identifiers : List String) : ArgNode :=
  if identifiers[0]?.getD "" = "local" then
    match theChunk.theVariables.get? (identifiers[1]?.getD "") with
    | some (.rtxtype typeNode) => .rtype typeNode
    | some .ctype => .empty
    | none => .empty
  else
    let same := theChunk.parameters.zipIdx.filter fun chunkParam => chunkParam.1 = identifiers[0]?.getD ""
    match same.getLast?.bind fun chunkParam => theChunk.pointcut.params[chunkParam.2]? with
    | some id => .ident id
    | none => .empty

/-- A method of the type, by its prototype. -/
def methodOf : TypeItem → Option RType
  | .method pointcut => some pointcut
  | .pointcut _ => none
  | .chunk _ => none
  | .typedecl _ => none
  | .attribute _ _ => none

/-- The methods of a type. -/
def TypeTree.methods (itfType : TypeTree) : List RType := itfType.body.filterMap methodOf

/-- `possibilities`: the methods of the name, with as many parameters as there are arguments. -/
def possibilities (itfType : TypeTree) (placeHolder : ChunkCall) : List RType :=
  itfType.methods.filter fun pointcut =>
    pointcut.name.name = placeHolder.chunk ∧ pointcut.params.length = placeHolder.parameters.length

/-- The keys of the prospects that do not go with an argument. The scope is read at `index(params)`, where there is
no parameter. -/
def mismatches (prospects : List RType) (param : ArgNode × Nat) : List Nat :=
  (prospects.zipIdx.filter fun prospect =>
    param.1.isEmpty = false ∧
      (param.1.name ≠ ((prospect.1.params[param.2]?).map fun id => id.name.text).getD "" ∨
        param.1.scope ≠ "")).map Prod.snd

/-- A turn of the loop over the arguments, which ends with the list of its own it has filled. -/
def eliminationTurn (prospects : List RType) (removeList : List Nat) (param : ArgNode × Nat) : List Nat :=
  let _turnRemoveList := mismatches prospects param
  removeList

/-- What the check leaves: its answer and `call_rtype`. -/
structure CallAnswer where
  found : Bool
  callRtype : Option RType
deriving DecidableEq

/-- `rtxTypeCheck_CheckPlaceholder<"__rtx_tpl_chunk_call__">`. -/
def checkChunkCall (trees : TypeTrees) (theChunk : CallChunk) (placeHolder : ChunkCall) : CallAnswer :=
  match getType trees placeHolder.rtype with
  | none => ⟨false, none⟩
  | some itfType =>
    let prospects := possibilities itfType placeHolder
    let params := placeHolder.parameters.map theChunk.argNode
    let removeList := params.zipIdx.foldl (eliminationTurn prospects) []
    let left := (prospects.zipIdx.filter fun prospect => prospect.2 ∉ removeList).map Prod.fst
    match left with
    | [] => ⟨false, none⟩
    | first :: _ => ⟨true, some first⟩

end Rathaxes.Back
