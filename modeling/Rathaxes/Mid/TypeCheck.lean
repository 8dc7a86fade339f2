import Rathaxes.CodeWorker.Pass
import Rathaxes.Mid.Interface

/-!
# The type check of the middle end

`rtxMiddle_TypeCheck` of `passes/mid/rtxTypeCheck.inc.cws`: the inheritance pass, then
`rtxItfCheckTypesDeclarations` for each item of the file, with `rtxItfAddTypeToList` and
`rtxItfAddDeclToType` of `node/rtxNodeMiddle.inc.cws`.

The check of an interface looks the types and pointcuts it mentions up, gives them the scopes found and
fills the tables of the interface. The lookups of later declarations and of the interfaces after it read
these tables, so the state of the pass is the interface as far as it has been filled. The number of lookups
made is kept with it: a lookup may put the tree of a parent into a node from the cache, and `loaded` says
for each of them which trees are there.
-/

set_option autoImplicit false

namespace Rathaxes.Mid

open CodeWorker Interfaces

/-! ## Sources -/

/-- A declaration in the body of a type. -/
inductive TypeItem where
  | pointcut (rtype : RType)
  | chunk (pointcut : RType)
  | method (pointcut : RType)
  | typedecl (pointcut : RType)
  | attribute (name : Word) (rtype : RType)
deriving DecidableEq

/-- A declaration in the body of a sequence. -/
inductive SequenceItem where
  | chunk (pointcut : RType)
  | pointcut (qualifier : Qualifier) (rtype : RType)
deriving DecidableEq

/-- A declaration in the body of an interface, told apart by its specifier. -/
inductive ItfItem where
  | sequence (qualifier : Qualifier) (rtype : RType) (body : List SequenceItem)
  | var (rtype : RType) (identifier : Word)
  | type (rtype : RType) (body : List TypeItem)
  | builtintype (rtype : RType) (body : Option (List TypeItem))
  | pointcut (qualifier : Qualifier) (rtype : RType)
  | chunk (pointcut : RType)
deriving DecidableEq

/-- An interface as it is written. -/
structure ItfSource where
  name : Word
  inheritance : List Word
  body : List ItfItem
deriving DecidableEq

/-- An item of a source file. -/
inductive SourceItem where
  | itf (theItf : ItfSource)
  | withBlock (body : List SourceItem)
  | other

/-- The node `rtxNodeItf` makes of an interface, before anything has been filed in it. -/
def ItfSource.node (source : ItfSource) : Itf :=
  ⟨source.name, [], Table.empty, Table.empty, source.inheritance⟩

mutual

/-- The item with the nodes of its interfaces. -/
def SourceItem.fileItem : SourceItem → FileItem
  | .itf theItf => .itf theItf.node
  | .withBlock body => .withBlock (fileItems body)
  | .other => .other

/-- The items of a block. -/
def fileItems : List SourceItem → List FileItem
  | [] => []
  | item :: items => item.fileItem :: fileItems items

end

/-! ## Registration -/

/-- `rtxItfAddTypeToList` for a sequence or a pointcut: once for each full name. -/
def addTypeToList (nameList : Table (Table ItfDecl)) (decl : ItfDecl) : Option (Table (Table ItfDecl)) :=
  let name := decl.rtype.name.name.text
  let fullName := decl.rtype.rtxRTypeFullQualifiedName
  let decls := (nameList.get? name).getD Table.empty
  match decls.get? fullName with
  | some _ => none
  | none => some (nameList.set name (decls.set fullName decl))

/-- `rtxItfAddTypeToList` for a type or a variable: once for each name. -/
def addNameToList (nameList : List Word) (name : Word) : Option (List Word) :=
  if name ∈ nameList then none else some (nameList ++ [name])

/-- What has been filed in the node of a type: names with full names, the names of the attributes, and
whether there is a declaration of the type. -/
structure TypeTables where
  pointcuts : List (String × String)
  chunks : List (String × String)
  methods : List (String × String)
  attributes : List Word
  decl : Bool

namespace TypeTables

/-- A type in which nothing has been filed. -/
def empty : TypeTables := ⟨[], [], [], [], false⟩

/-- Entry of a name with a full name. -/
def addKey (list : List (String × String)) (rtype : RType) : Option (List (String × String)) :=
  let key := (rtype.name.name.text, rtype.rtxRTypeFullQualifiedName)
  if key ∈ list then none else some (list ++ [key])

/-- `rtxItfAddDeclToType`. -/
def addDeclToType (theNode : TypeTables) : TypeItem → Option TypeTables
  | .pointcut rtype => (addKey theNode.pointcuts rtype).map fun list => { theNode with pointcuts := list }
  | .chunk pointcut => (addKey theNode.chunks pointcut).map fun list => { theNode with chunks := list }
  | .method pointcut => (addKey theNode.methods pointcut).map fun list => { theNode with methods := list }
  | .typedecl _ => if theNode.decl then none else some { theNode with decl := true }
  | .attribute name _ =>
    (addNameToList theNode.attributes name).map fun list => { theNode with attributes := list }

end TypeTables

/-! ## The check of an interface -/

/-- The state of the check of an interface: its node, its variables, the type being checked and the number of
lookups made. -/
structure CheckState where
  itf : Itf
  theVariables : List Word
  theType : TypeTables
  lookups : Nat

/-- A part of the check. It has no result when a lookup does not come to an end. -/
abbrev Check (α : Type) : Type := StateT CheckState Option α

section Declarations

-- What the lookups work on while the node of the interface is this one, and their fuel.
variable (world : Itf → Nat → Interfaces) (fuel : Nat)

/-- A lookup from the interface that is checked. -/
def lookup (find : Interfaces → ItfNode → Option (Bool × RType)) : Check (Bool × RType) := fun s =>
  (find (world s.itf s.lookups) ⟨true, s.itf⟩).map fun r => (r, { s with lookups := s.lookups + 1 })

/-- `rtxInterfaceHasType` in the interface that is checked. -/
def checkHasType (rtype : RType) : Check (Bool × RType) :=
  lookup world fun w node => interfaceHasType w fuel rtype node

/-- `rtxTypeCheck_ItfCheckPointcut` in the interface that is checked. -/
def checkChunk (pointcut : RType) : Check (Bool × RType) :=
  lookup world fun w node => itfCheckPointcut w fuel pointcut node

/-- The identifier of a parameter with the scope of its type. Without one it is global. -/
def qualifyParam (param : Ident) (rtypeNode : RType) : Ident :=
  { param with
    scope := rtypeNode.name.scope
    global := if rtypeNode.name.scope = Word.blank then true else param.global }

/-- The type of a parameter. -/
def checkParam (param : Ident) : Check (Bool × Ident) := do
  let (found, rtypeNode) ← checkHasType world fuel ⟨param, []⟩
  pure (found, if found then qualifyParam param rtypeNode else param)

/-- The types of all parameters. -/
def checkParams (rtype : RType) : Check (Bool × RType) := do
  let (ok, params) ← checkEach (checkParam world fuel) rtype.params
  pure (ok, { rtype with params := params })

/-- The name gets the interface as its scope, unless it is global. -/
def enforceScope (rtype : RType) : Check RType := do
  let s ← get
  pure (if rtype.name.global = false then withScope rtype s.itf.name else rtype)

/-- `rtxItfCheckTypesDeclarations<"pointcut">`. A global pointcut is not filed. -/
def checkPointcutDecl (qualifier : Option Qualifier) (rtype : RType) : Check (Bool × RType) := do
  let rtype ← enforceScope rtype
  let (ok, rtype) ← checkParams world fuel rtype
  if ok = false then pure (false, rtype)
  else if rtype.name.global = true ∧ rtype.name.scope = Word.blank then pure (true, rtype)
  else do
    let s ← get
    match addTypeToList s.itf.pointcuts ⟨rtype, qualifier⟩ with
    | none => pure (false, rtype)
    | some pointcuts =>
      set { s with itf := { s.itf with pointcuts := pointcuts } }
      pure (true, rtype)

/-- A declaration that has been checked is filed in the type. -/
def addDecl (ok : Bool) (decl : TypeItem) : Check (Bool × TypeItem) :=
  if ok = false then pure (false, decl)
  else do
    let s ← get
    match s.theType.addDeclToType decl with
    | none => pure (false, decl)
    | some theType =>
      set { s with theType := theType }
      pure (true, decl)

/-- A declaration in the body of a type. A method is made global. -/
def checkTypeItem : TypeItem → Check (Bool × TypeItem)
  | .pointcut rtype => do
    let (ok, rtype) ← checkPointcutDecl world fuel none rtype
    addDecl ok (.pointcut rtype)
  | .chunk pointcut => do
    let (ok, pointcut) ← checkChunk world fuel pointcut
    addDecl ok (.chunk pointcut)
  | .method pointcut => do
    let name := { pointcut.name with scope := Word.blank, global := true }
    let (ok, pointcut) ← checkParams world fuel { pointcut with name := name }
    addDecl ok (.method pointcut)
  | .typedecl pointcut =>
    if pointcut.params ≠ [] then pure (false, .typedecl pointcut)
    else do
      let (ok, pointcut) ← checkChunk world fuel pointcut
      addDecl ok (.typedecl pointcut)
  | .attribute name rtype => do
    let (ok, rtype) ← checkHasType world fuel rtype
    addDecl ok (.attribute name rtype)

/-- The declarations of the type itself. -/
def nDecls (body : List TypeItem) : Nat :=
  body.countP fun
    | .typedecl _ => true
    | _ => false

/-- Entry of a type in its interface. -/
def addType (rtype : RType) : Check Bool := do
  let s ← get
  match addNameToList s.itf.types rtype.name.name with
  | none => pure false
  | some types =>
    set { s with itf := { s.itf with types := types }, theType := TypeTables.empty }
    pure true

/-- `rtxItfCheckTypesDeclarations<"type">`. -/
def checkType (rtype : RType) (body : List TypeItem) : Check (Bool × RType × List TypeItem) := do
  let rtype ← enforceScope rtype
  let added ← addType rtype
  if added = false then pure (false, rtype, body)
  else do
    let (ok, body') ← checkEach (checkTypeItem world fuel) body
    pure (ok && nDecls body == 1, rtype, body')

/-- `rtxItfCheckTypesDeclarations<"builtintype">`. A body is checked like that of a type, and the type is
entered again for it. -/
def checkBuiltintype (rtype : RType) (body : Option (List TypeItem)) : Check (Bool × ItfItem) := do
  let rtype ← enforceScope rtype
  let added ← addType rtype
  if added = false then pure (false, .builtintype rtype body)
  else
    match body with
    | none => pure (true, .builtintype rtype none)
    | some body => do
      let (ok, rtype, body) ← checkType world fuel rtype body
      pure (ok, .builtintype rtype (some body))

/-- `rtxItfCheckTypesDeclarations<"variable">`. -/
def checkVariable (rtype : RType) (identifier : Word) : Check (Bool × RType) :=
  if isPlain rtype.name then pure (false, rtype)
  else do
    let (found, rtype) ← checkHasType world fuel rtype
    if found = false then pure (false, rtype)
    else do
      let s ← get
      match addNameToList s.theVariables identifier with
      | none => pure (false, rtype)
      | some list =>
        set { s with theVariables := list }
        pure (true, rtype)

/-- A declaration in the body of a sequence. -/
def checkSequenceItem : SequenceItem → Check (Bool × SequenceItem)
  | .chunk pointcut => do
    let (ok, pointcut) ← checkChunk world fuel pointcut
    pure (ok, .chunk pointcut)
  | .pointcut qualifier rtype => do
    let (ok, rtype) ← checkPointcutDecl world fuel (some qualifier) rtype
    pure (ok, .pointcut qualifier rtype)

/-- `rtxItfCheckTypesDeclarations<"sequence">`. -/
def checkSequence (qualifier : Qualifier) (rtype : RType) (body : List SequenceItem) :
    Check (Bool × RType × List SequenceItem) := do
  let (okParams, rtype) ← checkParams world fuel rtype
  let (okBody, body) ← checkEach (checkSequenceItem world fuel) body
  if (okParams && okBody) = false then pure (false, rtype, body)
  else do
    let rtype ← enforceScope rtype
    let s ← get
    match addTypeToList s.itf.sequences ⟨rtype, some qualifier⟩ with
    | none => pure (false, rtype, body)
    | some sequences =>
      set { s with itf := { s.itf with sequences := sequences } }
      pure (true, rtype, body)

/-- `rtxItfCheckTypesDeclarations` for a declaration of an interface. -/
def checkItfItem : ItfItem → Check (Bool × ItfItem)
  | .sequence qualifier rtype body => do
    let (ok, rtype, body) ← checkSequence world fuel qualifier rtype body
    pure (ok, .sequence qualifier rtype body)
  | .var rtype identifier => do
    let (ok, rtype) ← checkVariable world fuel rtype identifier
    pure (ok, .var rtype identifier)
  | .type rtype body => do
    let (ok, rtype, body) ← checkType world fuel rtype body
    pure (ok, .type rtype body)
  | .builtintype rtype body => checkBuiltintype world fuel rtype body
  | .pointcut qualifier rtype => do
    let (ok, rtype) ← checkPointcutDecl world fuel (some qualifier) rtype
    pure (ok, .pointcut qualifier rtype)
  | .chunk pointcut => do
    let (ok, pointcut) ← checkChunk world fuel pointcut
    pure (ok, .chunk pointcut)

end Declarations

/-! ## The pass -/

/-- What the pass leaves: its answer, the tree and the nodes of the interfaces. -/
structure Outcome where
  ok : Bool
  tree : List SourceItem
  nodes : List FileItem

section Pass

variable (cache : Table Itf) (loaded : Nat → Word → Word → Bool) (fuel : Nat)

/-- `rtxItfCheckTypesDeclarations<"__block__">` for the rest of a file, after these nodes and as many
lookups. A with-block has no items of its own: they are in its body, where the pass does not look. -/
def checkBlock (before : List FileItem) (lookups : Nat) : List SourceItem → Option Outcome
  | [] => some ⟨true, [], before⟩
  | .itf source :: rest => do
    let world := fun itf n => Interfaces.mk (before ++ .itf itf :: fileItems rest) cache (loaded n)
    let ((ok, body), s) ←
      checkEach (checkItfItem world fuel) source.body ⟨source.node, [], TypeTables.empty, lookups⟩
    let out ← checkBlock (before ++ [.itf s.itf]) s.lookups rest
    some ⟨ok && out.ok, .itf { source with body := body } :: out.tree, out.nodes⟩
  | .withBlock body :: rest => do
    let out ← checkBlock (before ++ [.withBlock (fileItems body)]) lookups rest
    some ⟨out.ok, .withBlock body :: out.tree, out.nodes⟩
  | .other :: rest => do
    let out ← checkBlock (before ++ [.other]) lookups rest
    some ⟨out.ok, .other :: out.tree, out.nodes⟩

/-- `rtxMiddle_TypeCheck`. The program ends when an interface inherits from an unknown one. -/
def middleTypeCheck (items : List SourceItem) : Option Outcome :=
  let w := Interfaces.mk (fileItems items) cache (loaded 0)
  if w.checkInheritanceAll w.source then checkBlock cache loaded fuel [] 0 items else none

end Pass

end Rathaxes.Mid
