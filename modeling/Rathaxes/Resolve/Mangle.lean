import Rathaxes.Node.RType

/-!
# C names of Rathaxes types

`rtxResolve_MangleTypeName`, `rtxResolve_WrapChunkIntoType` and `inject<"__rtx_rtype__">` of
`passes/common/rtxResolve.inc.cws`. The `decl` chunk of a type becomes a typedef in C, and a second one is
added for pointers to it; a declaration in a template that is of the type gets the name of one or the
other as its identifier.

Of a declaration that is emitted its name and what it stands for are kept. The fields of a type are
not looked at.
-/

set_option autoImplicit false

namespace Rathaxes.Resolve

/-- `rtxResolve_MangleTypeName`. -/
def mangleTypeName (theRtype : RType) (isPointer : Bool) : String :=
  let name := "rtxType_" ++ theRtype.name.scope.text ++ "_" ++ theRtype.name.name.text
  if isPointer then name ++ "_ptr" else name

/-- `decl_type` of a chunk. -/
inductive DeclType where
  | block
  | enum
  | other (text : String)
deriving DecidableEq

/-- What a typedef stands for: a struct with the body of the chunk, the enum of the chunk, or a pointer to
another typedef. -/
inductive TypedefTarget where
  | composed
  | enum
  | pointer (identifier : String)
deriving DecidableEq

/-- A typedef in C. -/
structure Typedef where
  name : String
  target : TypedefTarget
deriving DecidableEq

/-- The error for another kind of declaration. -/
def cannotGenerateType (declType : String) : String :=
  "[Error] Cannot identify how to generate type for node of type '" ++ declType ++ "'"

/-- `rtxResolve_WrapChunkIntoType`: the typedefs in the block it leaves. -/
def wrapChunkIntoType (theRtype : RType) (declType : DeclType) : Except String (List Typedef) :=
  let typedefName := mangleTypeName theRtype false
  let typedefNamePtr := mangleTypeName theRtype true
  let reference : Typedef := ⟨typedefNamePtr, .pointer typedefName⟩
  match declType with
  | .block => .ok [⟨typedefName, .composed⟩, reference]
  | .enum => .ok [⟨typedefName, .enum⟩, reference]
  | .other text => .error (cannotGenerateType text)

/-- `inject<"__rtx_rtype__">`: the identifier of a declaration. -/
def injectRtype (theRtype : RType) (qualifier : String) : String :=
  mangleTypeName theRtype (qualifier != "scalar")

end Rathaxes.Resolve
