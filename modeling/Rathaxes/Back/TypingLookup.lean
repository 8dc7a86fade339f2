import Rathaxes.Back.Introspect
import Rathaxes.CodeWorker.Reference

/-!
# The types of fields

`rtxTypingLookup_TypeField` and `rtxTypingLookup_ResolveTypeFields` of `typing/routines/rtxTypingLookup.inc.cws`.
Introspection asks for the types of rtypes, the resolution for their qualifiers as well, so what stands for a type is a
parameter (`TypeForm`).

The last statement of `rtxTypingLookup_ResolveTypeFields` makes its out parameter a reference to a variable of its own,
to which nothing was assigned. It is modelled as written, over the variables of the caller: the reference is gone once the
function has returned. (That the caller finds the type of the last field is what the sample `helloworld` relies on, where
`local.argc` is passed to a method.)
-/

set_option autoImplicit false

namespace Rathaxes.Back

open CodeWorker

/-- What stands for a type in a pass: an rtype, alone or with more of its node. `ofRType` is the node `rtxNodeRType`
builds. -/
class TypeForm (τ : Type) where
  rtype : τ → RType
  ofRType : RType → τ

instance : TypeForm RType := ⟨id, id⟩

/-- `Builtin::symbol`. -/
def builtinSymbol : Ident := rtxNodeIdentifier ⟨"symbol", .refl true⟩ ⟨"Builtin", .refl true⟩

variable {τ : Type}

/-- What `rtxTypingLookup_TypeField` reads: the attributes of the types of the interfaces in the cache, and `variables` of
the chunk. -/
structure FieldTables (τ : Type) where
  attributes : Word → Option (Table (Table τ))
  theVariables : Table (VariableOf τ)

/-- `itfTree.types[name].attributes[field]`. -/
def FieldTables.fieldOf (tables : FieldTables τ) (itfName : Word) (name field : String) : Option τ := do
  let itfTree ← tables.attributes itfName
  let theType ← itfTree.get? name
  theType.get? field

variable [TypeForm τ]

/-- `rtxTypingLookup_TypeField`. It may raise an error, or return false. -/
def typeField (tables : FieldTables τ) (theType : τ) (theField : String) : Except String (Option τ) :=
  let theRtype := TypeForm.rtype theType
  if theRtype.rtxRTypeName = "Builtin::local" then
    match tables.theVariables.get? theField with
    | none => .ok none
    | some .ctype => .ok (some (TypeForm.ofRType ⟨builtinSymbol, []⟩))
    | some (.rtxtype typeNode) => .ok (some typeNode)
  else if theRtype.rtxRTypeName = "Builtin::config" then .ok none
  else if theRtype.name.scope.text = "Builtin" then
    .error ("[Error] Builtin type '" ++ theRtype.name.name.text ++ "' does not have any field.")
  else if theRtype.name.scope = Word.blank ∧ theRtype.name.global = false then
    .error ("[Error] Trying to retrieve field type for an unqualified type: " ++ theRtype.rtxRTypeName)
  else .ok (tables.fieldOf theRtype.name.scope theRtype.name.name.text theField)

/-- The error of `rtxRTypeName` on a node without a type. -/
def noNodeType : String := "[Error] No node type given to rtxRTypeName for node:"

/-- The loop of `rtxTypingLookup_ResolveTypeFields`, over the variables `containerRtype` and `out_field_type`. -/
def resolveFields (tables : FieldTables τ) (containerRtype outFieldType : Nat) :
    List String → Variables τ → Except String (Bool × Variables τ)
  | [], s => .ok (true, s)
  | field :: fields, s =>
    match s.read containerRtype with
    | none => .error noNodeType
    | some container => do
      match ← typeField tables container field with
      | none => return (false, s)
      | some fieldRtype =>
        let s := s.assign outFieldType (some fieldRtype)
        let s := s.assign containerRtype (s.read outFieldType)
        resolveFields tables containerRtype outFieldType fields s

/-- `rtxTypingLookup_ResolveTypeFields`: what it returns, and the variables of the caller. The base type may be a node that
is no type. -/
def resolveTypeFields (tables : FieldTables τ) (baseRtype : Option τ) (theFields : List String) (outFieldType : Nat)
    (callers : Variables τ) : Except String (Bool × Variables τ) := do
  let containerRtype := callers.length
  let fieldRtype := callers.length + 1
  let s := callers.declare.declare.assign containerRtype baseRtype
  let (found, s) ← resolveFields tables containerRtype outFieldType theFields s
  if found = false then return (false, s.leave callers.length)
  else
    let s := s.refer outFieldType fieldRtype
    return (true, s.leave callers.length)

/-- A call with a variable declared for it, as all callers have one: what is read from it afterwards. -/
def typeOfFields (tables : FieldTables τ) (baseRtype : Option τ) (theFields : List String) :
    Except String (Option (Option τ)) := do
  let callers : Variables τ := Variables.declare []
  let (found, callers) ← resolveTypeFields tables baseRtype theFields 0 callers
  return if found then some (callers.read 0) else none

end Rathaxes.Back
