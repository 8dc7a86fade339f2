import Rathaxes.Back.TypingLookup

/-!
# The types of the arguments of placeholders

`rtxIntrospect_InferPlaceHolderTypes` of `passes/back/rtxIntrospect.inc.cws` for pointcuts and calls of
sequences. An argument is a variable or a chain of fields. Its type is looked up in `type_map` of the chunk,
which has the arguments of the template, and in `variables`, which has the variables of the C code.

The variable `paramType` of the handler for a pointcut is made a reference to an entry of `type_map`, and the
type of a field is then assigned to it: the assignment is one to the entry. The handler for a sequence assigns
the type of a field to a variable of its own.

The type of a chain is found by `rtxTypingLookup_ResolveTypeFields` (`fieldLookup`).
-/

set_option autoImplicit false

namespace Rathaxes.Back

open CodeWorker

/-! ## Types and tables -/

/-- A node that should be a type: an rtype, or another node, such as an empty one or a type of C. -/
inductive TypeNode where
  | rtype (theRtype : RType)
  | other
deriving DecidableEq

/-- The type of a parameter in a prototype: an identifier, or a whole type. -/
inductive ParamType where
  | ident (id : Ident)
  | node (type : TypeNode)
deriving DecidableEq

/-- `theChunk.type_map` and `theChunk.variables`. -/
structure ChunkTypes where
  typeMap : Table TypeNode
  theVariables : Table VariableType

/-- What `rtxIntrospect_code<"__decl__">` does to `type_map`: a variable the C code declares with a placeholder for its
type gets an entry, in the place of one of the same name. -/
def declareTypes (typeMap : Table TypeNode) (decls : List (String × TypeNode)) : Table TypeNode :=
  decls.foldl (fun typeMap decl => typeMap.set decl.1 decl.2) typeMap

/-- `type_node` of a variable. -/
def VariableType.typeNode : VariableType → TypeNode
  | .rtxtype typeNode => .rtype typeNode
  | .ctype => .other

/-! ## Fields -/

/-- The attributes of the types of the interfaces in the cache. -/
abbrev Attributes := Word → Option (Table (Table RType))

/-- The rtype of a node, if it is one. -/
def TypeNode.rtype? : TypeNode → Option RType
  | .rtype theRtype => some theRtype
  | .other => none

/-- The node that is left in a variable. -/
def TypeNode.ofRType? : Option RType → TypeNode
  | some theRtype => .rtype theRtype
  | none => .other

/-- A lookup of the type of fields. -/
abbrev FieldLookup := Table VariableType → TypeNode → List String → Except String (Option TypeNode)

/-- The lookup among these attributes. -/
def fieldLookup (attributes : Attributes) : FieldLookup := fun theVariables baseRtype theFields => do
  let found ← typeOfFields ⟨attributes, theVariables⟩ baseRtype.rtype? theFields
  return found.map TypeNode.ofRType?

/-! ## Pointcuts -/

variable (lookup : FieldLookup)

/-- The body of the loop of `rtxIntrospect_InferPlaceHolderTypes<"__rtx_pointcut__">`. The fields of a variable
of the C code are not looked at. -/
def inferPointcutParam (templateExpr : String) (number : Nat) (identifiers : List String) (t : ChunkTypes) :
    Except String (ParamType × ChunkTypes) :=
  let theVar := identifiers[0]?.getD ""
  if theVar = "local" then
    match t.theVariables.get? (identifiers[1]?.getD "") with
    | some (.rtxtype typeNode) => .ok (.ident typeNode.name, t)
    | some .ctype => .ok (.ident builtinSymbol, t)
    | none =>
      .error ("[Error] The type of parameter number " ++ toString number ++ " of pointcut '" ++
        templateExpr ++ "' could not be identified.")
  else
    let entry := t.typeMap.get? theVar
    let paramType := entry.getD .other
    if identifiers.length > 1 then do
      match ← lookup Table.empty paramType identifiers.tail with
      | none =>
        .error ("[Error] The type of parameter number " ++ toString number ++ " of pointcut '" ++
          templateExpr ++ " could not be resolved.")
      | some fieldRtype =>
        -- an assignment to the entry, if there is one
        let typeMap := if entry.isSome then t.typeMap.set theVar fieldRtype else t.typeMap
        return (.node fieldRtype, { t with typeMap := typeMap })
    else .ok (.node paramType, t)

/-- The loop over the parameters, from the one with this number. -/
def inferPointcutParams (templateExpr : String) : Nat → List (List String) → ChunkTypes →
    Except String (List ParamType × ChunkTypes)
  | _, [], t => .ok ([], t)
  | number, param :: params, t => do
    let (paramType, t) ← inferPointcutParam lookup templateExpr number param t
    let (paramTypes, t) ← inferPointcutParams templateExpr (number + 1) params t
    return (paramType :: paramTypes, t)

/-! ## Sequences -/

/-- An argument of a call; it may have its type already. -/
structure SequenceArg where
  identifiers : List String
  rtype : Option TypeNode

/-- The type of an argument in `rtxIntrospect_InferPlaceHolderTypes<"__rtx_tpl_sequence_call__">`. -/
def inferSequenceArg (t : ChunkTypes) (param : SequenceArg) : Except String TypeNode :=
  match param.rtype with
  | some rtype => .ok rtype
  | none =>
    let isLocal := param.identifiers[0]?.getD "" = "local"
    let theVar := if isLocal then param.identifiers[1]?.getD "" else param.identifiers[0]?.getD ""
    let theType :=
      ((t.typeMap.get? theVar).or ((t.theVariables.get? theVar).map VariableType.typeNode)).getD .other
    if (¬ isLocal ∧ param.identifiers.length > 1) ∨ param.identifiers.length > 2 then do
      let fieldList := if isLocal then param.identifiers.tail.tail else param.identifiers.tail
      match ← lookup t.theVariables theType fieldList with
      | none => .error "[Error] Could not resolve type fields for variable ''"
      | some subType => return subType
    else .ok theType

/-- The attribute `name` of a type. -/
def TypeNode.name : TypeNode → ParamType
  | .rtype theRtype => .ident theRtype.name
  | .other => .node .other

/-! ## Placeholders -/

/-- A placeholder whose type is inferred. -/
inductive TypedPlaceHolder where
  | pointcut (name : Ident) (templateExpr : String) (parameters : List (List String))
  | sequenceCall (seqName : Ident) (seqArgs : List SequenceArg)

/-- The rtype of a placeholder, and the types of the arguments of a call. -/
structure InferredTypes where
  name : Ident
  params : List ParamType
  argTypes : List TypeNode
deriving DecidableEq

/-- `rtxIntrospect_InferPlaceHolderTypes`. -/
def inferPlaceHolderTypes (t : ChunkTypes) : TypedPlaceHolder → Except String (InferredTypes × ChunkTypes)
  | .pointcut name templateExpr parameters => do
    let (paramTypes, t) ← inferPointcutParams lookup templateExpr 1 parameters t
    return (⟨name, paramTypes, []⟩, t)
  | .sequenceCall seqName seqArgs => do
    let argTypes ← seqArgs.mapM (inferSequenceArg lookup t)
    return (⟨seqName, argTypes.map TypeNode.name, argTypes⟩, t)

/-- The loop of `rtxIntrospect_walk<"__rtx_chunk__">` over such placeholders. -/
def inferAll : List TypedPlaceHolder → ChunkTypes → Except String (List InferredTypes × ChunkTypes)
  | [], t => .ok ([], t)
  | placeHolder :: placeHolders, t => do
    let (inferred, t) ← inferPlaceHolderTypes lookup t placeHolder
    let (rest, t) ← inferAll placeHolders t
    return (inferred :: rest, t)

end Rathaxes.Back
