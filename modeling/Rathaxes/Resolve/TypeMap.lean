import Rathaxes.Back.TypingLookup
import Rathaxes.Link.Query
import Rathaxes.Resolve.Arguments

/-!
# The type of a chain of fields, and the expression for it

A placeholder may name a field of a variable, a field of that field and so on. `type_map<T>` of
`passes/common/rtxResolve.inc.cws` makes a C expression of it: for one field after the other it instantiates the
mapping a template has for it, and looks up the type the field has. `inject<"__rtx_var__">` of the same file then asks
`rtxTypingLookup_ResolveTypeFields` of `typing/routines/rtxTypingLookup.inc.cws` for the type of the last field, whose
qualifier says whether the expression is a pointer.

Types have their qualifier here.
-/

set_option autoImplicit false

namespace Rathaxes.Resolve

open CodeWorker Link
open Back (FieldTables TypeForm typeField typeOfFields)

/-! ## Types with their qualifiers -/

/-- The qualifier of a type, as the grammar reads it. -/
inductive TypeQualifier where
  | scalar
  | ref
deriving DecidableEq

/-- An `__rtx_rtype__` node with its qualifier. -/
structure QualType where
  rtype : RType
  qualifier : TypeQualifier
deriving DecidableEq

/-- `rtxNodeRType` builds scalar types. -/
instance : TypeForm QualType := ⟨QualType.rtype, fun rtype => ⟨rtype, .scalar⟩⟩

/-! ## The expression -/

/-- What `type_map<T>` reads besides: the templates of the session, the mappings in the tree of a template, by
identifier and with their instance keys, and the scripts that are loaded. A script resolves the placeholders of a
mapping and leaves its expression, or returns false. -/
structure Mappings where
  session : Session
  config : Config
  load : TplRef → Except String (Table String)
  scripts : Table (List Arg → Except String (Option CNode))

/-- `instanceMapping<T>`. -/
def Mappings.instanceMapping (maps : Mappings) (instanceKey : String) (resVals : List Arg) :
    Except String (Option CNode) :=
  match maps.scripts.get? instanceKey with
  | none => .error ("instanceMapping: BAD LINK - Unkown registry value: " ++ instanceKey)
  | some script => script resVals

/-- The loop of `type_map<T>`: the type reached and the arguments for it. -/
def typeMapLoop (maps : Mappings) (tables : FieldTables QualType) :
    QualType → List Arg → List String → Except String (Option (QualType × List Arg))
  | actualRtype, actualResVals, [] => .ok (some (actualRtype, actualResVals))
  | actualRtype, actualResVals, identifier :: identifiers => do
    match ← findUniqueTemplate maps.session actualRtype.rtype maps.config with
    | none => return none
    | some theTemplate =>
      let mappings ← maps.load theTemplate
      match ← maps.instanceMapping ((mappings.get? identifier).getD "") actualResVals with
      | none => return none
      | some expr =>
        match ← typeField tables actualRtype identifier with
        | none => return none
        | some fieldRtype =>
          -- the value returned for a second argument of the name is not looked at
          let resVals ← appendArg [] "self" fieldRtype.rtype expr
          typeMapLoop maps tables fieldRtype (resVals.getD []) identifiers

/-- `type_map<T>` for the types without a body of their own: the expression in `out_node`, with the type the loop has
reached. -/
def typeMap (maps : Mappings) (tables : FieldTables QualType) (resolverValues : List Arg) (theRtype : QualType)
    (mappedIds : List String) : Except String (Option (CNode × QualType)) := do
  let identifiers := mappedIds.tail
  if identifiers.length > 0 ∧ (getArgByName resolverValues "self").isNone then return none
  else
    match ← typeMapLoop maps tables theRtype resolverValues identifiers with
    | none => return none
    | some (actualRtype, actualResVals) =>
      match getArgByName actualResVals "self" with
      | none => .error "Could not get value..."
      | some self => return some (self.value, actualRtype)

/-! ## The type an expression is transcribed from -/

/-- `source_type` in `inject<"__rtx_var__">`: for a variable alone the type of its argument, or that of the chunk. -/
def sourceType (tables : FieldTables QualType) (self : Option QualType) (selfType : QualType)
    (subidentifiers : List String) : Except String (Option QualType) :=
  if subidentifiers.length = 1 then .ok (some (self.getD selfType))
  else do
    let fields := subidentifiers.tail
    match ← typeOfFields tables (some selfType) fields with
    | none => .error ("[Error] Could not resolve type fields for variable '" ++ fields.head?.getD "" ++ "'")
    | some out => return out

end Rathaxes.Resolve
