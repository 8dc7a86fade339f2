import Rathaxes.CodeWorker.Descent
import Rathaxes.CodeWorker.Unique
import Rathaxes.Node.RType

/-!
# Interfaces and their inheritance

`rtxItfCheckInheritance_walk` of `passes/mid/rtxTypeCheck.inc.cws` and the three lookups that follow
inheritance: `rtxInterfaceHasType` and `rtxTypeCheck_ItfCheckPointcut` of
`typing/routines/rtxTypingRoutines_Mid.inc.cws`, and `rtxTypeCheck_ItfNameDefinesSequence` of
`typing/routines/rtxTypingRoutines_Common.inc.cws`, each with the recursive function it wraps.

The first two go from node to node. The pass puts a reference to the node of each parent in the same
file into an interface, or loads the tree of a parent in the cache; the parents of such a tree are in the
cache too. The third goes by the names under which interfaces are registered.

None of the lookups keeps a list of the interfaces it has met, so each has a fuel argument; `none` is a
lookup that has not come to an end.
-/

set_option autoImplicit false

namespace Rathaxes.Mid

open CodeWorker

/-! ## Interfaces -/

/-- The qualifier of a declaration. -/
inductive Qualifier where
  | provided
  | required
  | optional
deriving DecidableEq

/-- The declaration of a sequence or a pointcut. A pointcut of a type has no qualifier. -/
structure ItfDecl where
  rtype : RType
  qualifier : Option Qualifier
deriving DecidableEq

/-- An `__rtx_itf__` node: its name, the names of its types, its pointcuts and sequences by name and full
name, and the names it inherits from. -/
structure Itf where
  name : Word
  types : List Word
  pointcuts : Table (Table ItfDecl)
  sequences : Table (Table ItfDecl)
  inheritance : List Word
deriving DecidableEq

/-- An item of a source file, as far as the pass looks at it. -/
inductive FileItem where
  | itf (theItf : Itf)
  | withBlock (body : List FileItem)
  | other

mutual

/-- The interfaces in an item, which the parser puts under their names into `interfaces` of the root. -/
def FileItem.interfaces : FileItem → List Itf
  | .itf theItf => [theItf]
  | .withBlock body => interfacesOf body
  | .other => []

/-- The interfaces in a block. -/
def interfacesOf : List FileItem → List Itf
  | [] => []
  | item :: items => item.interfaces ++ interfacesOf items

end

/-- What the lookups work on: a source file, the interfaces of the session with the trees
`rtxLink_LoadItem` reads for them, and whether the node of an interface from the cache holds the tree of
one of its parents already. -/
structure Interfaces where
  source : List FileItem
  cache : Table Itf
  loaded : Word → Word → Bool

namespace Interfaces

/-- The interfaces of the file. -/
def file (w : Interfaces) : List Itf := interfacesOf w.source

/-- The interface of this name in `interfaces` of the root: the last one. -/
def inFile (w : Interfaces) (name : Word) : Option Itf := w.file.reverse.find? fun itf => itf.name = name

/-! ## The inheritance pass -/

mutual

/-- `rtxItfCheckInheritance_walk`: every parent is in the file or in the cache. -/
def checkInheritance (w : Interfaces) : FileItem → Bool
  | .itf theItf => theItf.inheritance.all fun parentName =>
      (w.inFile parentName).isSome || (w.cache.get? parentName.text).isSome
  | .withBlock body => w.checkInheritanceAll body
  | .other => true

/-- The pass over a block. -/
def checkInheritanceAll (w : Interfaces) : List FileItem → Bool
  | [] => true
  | item :: items => w.checkInheritance item && w.checkInheritanceAll items

end

/-! ## Parents -/

/-- The node of an interface: one of the file, or a tree from the cache. -/
structure ItfNode where
  fromFile : Bool
  itf : Itf
deriving DecidableEq

/-- The node of a parent, the file before the cache for an interface of the file. -/
def parent (w : Interfaces) (node : ItfNode) (name : Word) : Option ItfNode :=
  match if node.fromFile then w.inFile name else none with
  | some itf => some ⟨true, itf⟩
  | none => (w.cache.get? name.text).map (ItfNode.mk false)

/-- The node of a parent, if it is in the node. -/
def loadedParent (w : Interfaces) (node : ItfNode) (name : Word) : Option ItfNode :=
  if node.fromFile || w.loaded node.itf.name name then w.parent node name else none

/-- The parents of a node, those that have to be loaded included. -/
def parents (w : Interfaces) (node : ItfNode) : List ItfNode :=
  node.itf.inheritance.filterMap (w.parent node)

/-- The parents in a node. One that has not been loaded is an empty node, in which nothing is found. -/
def loadedParents (w : Interfaces) (node : ItfNode) : List ItfNode :=
  node.itf.inheritance.filterMap (w.loadedParent node)

end Interfaces

open Interfaces (ItfNode)

/-- The identifier has neither a scope nor the mark of a global one. -/
def isPlain (id : Ident) : Bool := id.global = false ∧ id.scope = Word.blank

/-- Assignment to `name.scope`. -/
def withScope (rtype : RType) (scope : Word) : RType :=
  { rtype with name := { rtype.name with scope := scope } }

/-! ## Types -/

/-- The names accepted for a global type. -/
def builtinTypes : List String :=
  ["register", "register_field", "register_value", "string", "number", "numser"]

/-- `rtxInterfaceHasType_recursive`: the interfaces found so far, the ones it adds and the value it
returns. -/
def hasType (w : Interfaces) (rtypeNode : RType) :
    Nat → ItfNode → List Word → Option (Bool × List Word)
  | 0, _, _ => none
  | fuel + 1, node, possibilities =>
    let name := rtypeNode.name.name
    let scope := rtypeNode.name.scope
    if isPlain rtypeNode.name then
      let possibilities :=
        if name ∈ node.itf.types then possibilities ++ [node.itf.name] else possibilities
      callAll (fun possibilities parent => hasType w rtypeNode fuel parent possibilities)
        possibilities (w.parents node)
    else if rtypeNode.name.global = false then
      if scope ≠ node.itf.name then
        if scope ∉ node.itf.inheritance then
          untilTrue (fun possibilities parent => hasType w rtypeNode fuel parent possibilities)
            possibilities (w.loadedParents node)
        else
          match w.loadedParent node scope with
          | some parent => some (decide (name ∈ parent.itf.types), possibilities)
          | none => some (false, possibilities)
      else some (decide (name ∈ node.itf.types), possibilities)
    else some (decide (name.text ∈ builtinTypes), possibilities)

/-- `rtxInterfaceHasType`: without a scope the type has to be in one interface, which becomes its scope. -/
def interfaceHasType (w : Interfaces) (fuel : Nat) (rtypeNode : RType) (interfaceNode : ItfNode) :
    Option (Bool × RType) :=
  (hasType w rtypeNode fuel interfaceNode []).map fun r =>
    if r.1 then (true, rtypeNode)
    else
      match (Table.uniques Word.text r.2).only? with
      | some itf => (true, withScope rtypeNode itf)
      | none => (false, rtypeNode)

/-! ## Pointcuts and sequences of one interface -/

/-- The name and all parameters have a scope or are global. -/
def isQualified (prototype : RType) : Bool :=
  prototype.params.all (fun type => !isPlain type) && !isPlain prototype.name

/-- A parameter of a declaration is what a prototype has in its place: the scopes are compared where the
prototype gives one. -/
def paramMatches (declared given : Ident) : Bool :=
  declared.name = given.name ∧
    ¬ (given.global = false ∧ given.scope ≠ Word.blank ∧ given.scope ≠ declared.scope)

/-- As many parameters, and each matches. -/
def paramsMatch (declared prototype : RType) : Bool :=
  declared.params.length = prototype.params.length &&
    (declared.params.zip prototype.params).all fun types => paramMatches types.1 types.2

/-- A pointcut that is looked for, the declarations found and the names pushed besides. The qualifiers
found are those of the declarations. -/
structure PointcutSearch where
  rtype : RType
  possibilities : Table ItfDecl
  pushed : List Word

/-- `rtxTypeCheck_ItfDefinesPointcut`. The scope it sets is not set back. -/
def PointcutSearch.defines (s : PointcutSearch) (itfTree : Itf) : Bool × PointcutSearch :=
  match itfTree.pointcuts.get? s.rtype.name.name.text with
  | none => (false, s)
  | some decls =>
    if isQualified s.rtype then
      let rtype := withScope s.rtype itfTree.name
      let qualifiedName := rtype.rtxRTypeFullQualifiedName
      match decls.get? qualifiedName with
      | some decl =>
        (true, { s with rtype := rtype, possibilities := s.possibilities.set qualifiedName decl })
      | none => (false, { s with rtype := rtype })
    else
      let found := decls.entries.filter fun e => paramsMatch e.2.rtype s.rtype
      (false, { s with possibilities := found.foldl (fun t e => t.set e.1 e.2) s.possibilities })

/-- A sequence that is looked for and the declarations found, with their qualifiers. -/
structure SequenceSearch where
  prototype : RType
  possibilities : List ItfDecl

/-- `rtxTypeCheck_ItfDefinesSequence`. The scope is set back. -/
def SequenceSearch.defines (s : SequenceSearch) (itfTree : Itf) : Bool × SequenceSearch :=
  match itfTree.sequences.get? s.prototype.name.name.text with
  | none => (false, s)
  | some decls =>
    if isQualified s.prototype then
      match decls.get? (withScope s.prototype itfTree.name).rtxRTypeFullQualifiedName with
      | some decl => (true, { s with possibilities := s.possibilities ++ [decl] })
      | none => (false, s)
    else
      let found := decls.entries.filter fun e => paramsMatch e.2.rtype s.prototype
      (false, { s with possibilities := s.possibilities ++ found.map Prod.snd })

/-! ## Pointcuts -/

/-- The names accepted for a global pointcut. -/
def builtinPointcuts : List String := ["IMPLEMENTATION", "CALL"]

/-- `rtxTypeCheck_ItfCheckPointcut_recursive`. -/
def checkPointcut (w : Interfaces) : Nat → ItfNode → PointcutSearch → Option (Bool × PointcutSearch)
  | 0, _, _ => none
  | fuel + 1, node, s =>
    let scope := s.rtype.name.scope
    if isPlain s.rtype.name then
      let (found, s) := s.defines node.itf
      let s := if found then { s with pushed := s.pushed ++ [node.itf.name] } else s
      callAll (fun s parent => checkPointcut w fuel parent s) s (w.loadedParents node)
    else if s.rtype.name.global = false then
      if scope ≠ node.itf.name ∧ node.itf.inheritance ≠ [] then
        if scope ∉ node.itf.inheritance then
          untilTrue (fun s parent => checkPointcut w fuel parent s) s (w.loadedParents node)
        else
          match w.loadedParent node scope with
          | some parent => some (s.defines parent.itf)
          | none => some (false, s)
      else some (s.defines node.itf)
    else some (decide (s.rtype.name.name.text ∈ builtinPointcuts), s)

/-- What a node without an rtype reads as. -/
def noRType : RType := ⟨rtxNodeIdentifier Word.blank, []⟩

/-- `rtxTypeCheck_ItfCheckPointcut`: of the declarations and names found one has to be left, and the pointcut
becomes its rtype. A name pushed has none. -/
def itfCheckPointcut (w : Interfaces) (fuel : Nat) (rtypeNode : RType) (interfaceNode : ItfNode) :
    Option (Bool × RType) :=
  (checkPointcut w fuel interfaceNode ⟨rtypeNode, Table.empty, []⟩).map fun r =>
    if r.1 then (true, r.2.rtype)
    else
      match r.2.possibilities.entries.map (fun e => e.2.rtype) ++ r.2.pushed.map fun _ => noRType with
      | [rtype] => (true, rtype)
      | _ => (false, r.2.rtype)

/-! ## Sequences -/

/-- The interface a name stands for once the file is registered: one in the cache stays, and of those of
the file the first is registered. -/
def Interfaces.registered (w : Interfaces) (name : Word) : Option Itf :=
  (w.cache.get? name.text).or (w.file.find? fun itf => itf.name = name)

/-- `rtxTypeCheck_ItfNameDefinesSequence_recursive`. Without a name the list is searched. -/
def nameDefinesSequence (w : Interfaces) :
    Nat → Word → List Word → SequenceSearch → Option (Bool × SequenceSearch)
  | 0, _, _, _ => none
  | fuel + 1, itfName, interfaceList, s =>
    if itfName ≠ Word.blank then
      match w.registered itfName with
      | none => some (false, s)
      | some itfTree =>
        let (found, s) := s.defines itfTree
        if found then some (true, { s with prototype := withScope s.prototype itfName })
        else callAll (fun s itf => nameDefinesSequence w fuel itf [] s) s itfTree.inheritance
    else callAll (fun s itf => nameDefinesSequence w fuel itf [] s) s interfaceList

/-- What a lookup of a sequence leaves: its answer, the sequence and the qualifier. -/
structure SequenceAnswer where
  found : Bool
  theSequence : RType
  outQualifier : Option Qualifier
deriving DecidableEq

/-- `rtxTypeCheck_ItfNameDefinesSequence`: the declarations found are told apart by their full names. The
qualifier is the first one found. -/
def itfNameDefinesSequence (w : Interfaces) (fuel : Nat) (theSequence : RType) (itfName : Word)
    (interfaceList : List Word) (outQualifier : Option Qualifier) : Option SequenceAnswer :=
  (nameDefinesSequence w fuel itfName interfaceList ⟨theSequence, []⟩).map fun r =>
    let front := r.2.possibilities.head?.bind ItfDecl.qualifier
    if r.1 then ⟨true, r.2.prototype, front⟩
    else
      match (Table.uniques (fun d => d.rtype.rtxRTypeFullQualifiedName) r.2.possibilities).only? with
      | some entry => ⟨true, entry.rtype, front⟩
      | none => ⟨false, r.2.prototype, outQualifier⟩

end Rathaxes.Mid
