import Rathaxes.CodeWorker.Table

/-!
# Reordering of type declarations

`passes/common/rtxResolve_TypeReordering.inc.cws`. The resolved chunks of a file come in any order; a C
compiler wants a type complete before another one holds it. Every declaration is registered under the
types it declares, with the types its fields use; then the types are walked depth first, what a type
uses before the type, and the chunks come out in that order, the others behind them.

The chunks of a list are named by their keys, which are positions here. A type is registered under its
kind and name; a chunk may declare two at once, as in `typedef struct s {...} t;`. Of the attributes of
a C type those are kept which the pass reads, and `body` also tells whether it exists.
-/

set_option autoImplicit false

namespace Rathaxes.Resolve

open CodeWorker

/-! ## C declarations -/

/-- `type` of a node. -/
inductive NodeType where
  | decl
  | fieldDecl
  | fwdDecl
  | other
deriving DecidableEq

/-- `storage` of a C type. -/
inductive Storage where
  | typedef
  | other
deriving DecidableEq

/-- `specifier` of a C type. -/
inductive CSpecifier where
  | auto
  | struct
  | union
  | other (text : String)
deriving DecidableEq

/-- The attributes of a `__ctype__` node. `unknown` and `pointer` need not exist; `primary` says that
`cdecl_type` is `__primary__`. -/
structure CType where
  storage : Storage
  specifier : CSpecifier
  identifier : String
  unknown : Option (List String)
  primary : Bool
  pointer : Bool
  hasBody : Bool
deriving DecidableEq

/-- A declaration: the attributes of its C type, the block of its body and the list of a composed
type. -/
inductive CDecl where
  | mk (type : NodeType) (name : Option String) (ctype : CType) (body list : List CDecl)

namespace CDecl

def type : CDecl → NodeType | mk type _ _ _ _ => type
def name : CDecl → Option String | mk _ name _ _ _ => name
def ctype : CDecl → CType | mk _ _ ctype _ _ => ctype
def body : CDecl → List CDecl | mk _ _ _ body _ => body
def list : CDecl → List CDecl | mk _ _ _ _ list => list

end CDecl

/-! ## Registered types -/

/-- The three tables of `deps`. -/
inductive TypeKind where
  | struct
  | union
  | typedef
deriving DecidableEq

/-- A type, by its table and its name there. -/
structure TypeId where
  kind : TypeKind
  name : String
deriving DecidableEq

/-- `type` of a dependence: `typedef`, or the specifier of the type used. -/
inductive DepType where
  | typedef
  | specified (specifier : CSpecifier)
deriving DecidableEq

/-- A dependence. `aggreg` says that the type is used by value. -/
structure Dep where
  name : String
  type : DepType
  aggreg : Bool
deriving DecidableEq

/-- Where `DoRecursive` looks a dependence up. -/
def Dep.target (dep : Dep) : TypeId :=
  match dep.type with
  | .specified .struct => ⟨.struct, dep.name⟩
  | .specified .union => ⟨.union, dep.name⟩
  | _ => ⟨.typedef, dep.name⟩

/-- An entry of one of the tables: the key of a chunk and the dependences. -/
structure TypeEntry where
  location : Nat
  list : List Dep
deriving DecidableEq

/-- The attribute `aggreg` of an entry. It is an attribute of dependences, no entry has it, and an absent
attribute reads as false. -/
def TypeEntry.aggreg (_ : TypeEntry) : Bool := false

/-- `deps`. -/
structure Deps where
  structs : Table TypeEntry
  unions : Table TypeEntry
  typedefs : Table TypeEntry

namespace Deps

/-- Nothing registered. -/
def empty : Deps := ⟨Table.empty, Table.empty, Table.empty⟩

/-- The entry of a type. -/
def get? (deps : Deps) (t : TypeId) : Option TypeEntry :=
  match t.kind with
  | .struct => deps.structs.get? t.name
  | .union => deps.unions.get? t.name
  | .typedef => deps.typedefs.get? t.name

/-- Assignment to an entry, which is created if there is none. -/
def set (deps : Deps) (t : TypeId) (entry : TypeEntry) : Deps :=
  match t.kind with
  | .struct => { deps with structs := deps.structs.set t.name entry }
  | .union => { deps with unions := deps.unions.set t.name entry }
  | .typedef => { deps with typedefs := deps.typedefs.set t.name entry }

/-- The dependences registered for a type. -/
def listOf (deps : Deps) (t : TypeId) : List Dep := ((deps.get? t).map TypeEntry.list).getD []

/-- The location of a type is set; the dependences it has stay. -/
def locate (deps : Deps) (location : Nat) (t : TypeId) : Deps :=
  deps.set t ⟨location, deps.listOf t⟩

/-- A dependence is pushed onto the list of a type. -/
def push (deps : Deps) (dep : Dep) (t : TypeId) : Deps :=
  match deps.get? t with
  | some entry => deps.set t { entry with list := entry.list ++ [dep] }
  | none => deps

/-- The types in the order the tables are walked in. -/
def types (deps : Deps) : List TypeId :=
  deps.structs.entries.map (fun e => ⟨.struct, e.1⟩) ++
    deps.unions.entries.map (fun e => ⟨.union, e.1⟩) ++
    deps.typedefs.entries.map (fun e => ⟨.typedef, e.1⟩)

end Deps

/-! ## Dependences -/

/-- The error of a use that is none of the three managed kinds. -/
def unmanagedUse : String := "Unmanaged type for block reordering: "

/-- The dependence `rtxResolve_BlockReordering_InsertDep` makes of a declaration. -/
def CDecl.dep (decl : CDecl) : Except String Dep :=
  let aggreg := !decl.ctype.pointer
  if decl.ctype.storage = .typedef then .ok ⟨decl.name.getD "", .typedef, aggreg⟩
  else if decl.ctype.specifier ≠ .auto then
    .ok ⟨decl.ctype.identifier, .specified decl.ctype.specifier, aggreg⟩
  else if decl.ctype.primary then
    match decl.ctype.unknown with
    | some tokens =>
      if decl.ctype.identifier = "auto" then .ok ⟨tokens.headD "", .typedef, aggreg⟩
      else .ok ⟨decl.ctype.identifier, .typedef, aggreg⟩
    | none => .ok ⟨decl.ctype.identifier, .typedef, aggreg⟩
  else .error unmanagedUse

/-- Two dependences on one type, as the check against multiple insertions compares them. -/
def Dep.same (dep entry : Dep) : Bool := entry.name = dep.name && entry.type = dep.type

/-- `rtxResolve_BlockReordering_InsertDep`. The check looks at the first list only. -/
def insertDep (deplists : List TypeId) (deps : Deps) (decl : CDecl) : Except String Deps := do
  let dep ← decl.dep
  let front := ((deplists.head?).map deps.listOf).getD []
  if front.any dep.same then return deps
  else return deplists.foldl (fun deps t => deps.push dep t) deps

mutual

/-- `rtxResolve_BlockReordering_RecurseTypeDecl`, over the block of a body. -/
def recurseTypeDecl (deplists : List TypeId) : Deps → List CDecl → Except String Deps
  | deps, [] => .ok deps
  | deps, entry :: entries => do
    let deps ← recurseEntry deplists deps entry
    recurseTypeDecl deplists deps entries

/-- One entry of the block: its own body first. -/
def recurseEntry (deplists : List TypeId) : Deps → CDecl → Except String Deps
  | deps, .mk type name ctype body list =>
    if type = .fieldDecl ∨ type = .fwdDecl then do
      let deps ← recurseTypeDecl deplists deps body
      insertDep deplists deps (.mk type name ctype body list)
    else .ok deps

end

/-- The entries `rtxResolve_BlockReordering_IterComposed` looks at. -/
def CDecl.composed (decl : CDecl) : List CDecl :=
  decl.list.filter fun entry =>
    entry.type = .decl || entry.type = .fieldDecl || entry.type = .fwdDecl

/-! ## Registration -/

/-- The error of a typedef without a name. -/
def unmanagedTypedef : String := "Unmanaged kind of type description for type reodering: "

/-- The name a typedef is registered under. -/
def CDecl.typedefName (chunk : CDecl) : Except String String :=
  match chunk.name, chunk.ctype.unknown with
  | some name, _ => .ok name
  | none, some tokens => .ok (tokens.headD "")
  | none, none => .error unmanagedTypedef

/-- The struct or union a declaration is registered under. -/
def CDecl.aggregates (chunk : CDecl) : List TypeId :=
  if chunk.ctype.identifier = "" then []
  else match chunk.ctype.specifier with
    | .struct => [⟨.struct, chunk.ctype.identifier⟩]
    | .union => [⟨.union, chunk.ctype.identifier⟩]
    | _ => []

/-- The types a chunk is registered under, in the order of `deplists`. -/
def CDecl.declared (chunk : CDecl) : Except String (List TypeId) :=
  if chunk.type = .decl then
    if chunk.ctype.storage = .typedef then do
      let name ← chunk.typedefName
      return ⟨.typedef, name⟩ :: chunk.aggregates
    else .ok chunk.aggregates
  else .ok []

/-- The body of the first loop of `rtxResolve_BlockReordering`. -/
def registerChunk (deps : Deps) (chunk : CDecl) (key : Nat) : Except String Deps := do
  let deplists ← chunk.declared
  if chunk.type = .decl then do
    let deps := deplists.foldl (fun deps t => deps.locate key t) deps
    let deps ← recurseTypeDecl deplists deps chunk.body
    chunk.composed.foldlM (insertDep deplists) deps
  else return deps

/-- The first loop, from a key on. -/
def registerFrom (deps : Deps) : Nat → List CDecl → Except String Deps
  | _, [] => .ok deps
  | key, chunk :: chunks => do
    let deps ← registerChunk deps chunk key
    registerFrom deps (key + 1) chunks

/-! ## The walk -/

/-- What the walk changes: the attribute `managed` of the entries and the keys inserted, in the order
the chunks are pushed onto `result`. -/
structure Reordering where
  managed : TypeId → Option Bool
  inserted : List Nat

/-- Assignment to `type.managed`. -/
def Reordering.mark (s : Reordering) (t : TypeId) (value : Bool) : Reordering :=
  { s with managed := Function.update s.managed t (some value) }

/-- The first test of `DoRecursive`. -/
def Reordering.done (s : Reordering) (t : TypeId) (force : Bool) : Bool :=
  match s.managed t with
  | some managed => managed || !force
  | none => false

/-- The end of `DoRecursive`. -/
def Reordering.insert (s : Reordering) (t : TypeId) (location : Nat) : Reordering :=
  if location ∈ s.inserted then s
  else { s.mark t true with inserted := s.inserted ++ [location] }

/-- The error of the model when its recursion is cut off; no run gets there. -/
def reorderingFuel : String := "out of fuel"

/-- `rtxResolve_BlockReordering_DoRecursive`. -/
def doRecursive (deps : Deps) (fuel : Nat) (t : TypeId) (force : Bool) (s : Reordering) :
    Except String Reordering :=
  if s.done t force then .ok s
  else match deps.get? t with
    | none => .ok s
    | some entry =>
      if entry.location ∈ s.inserted then .ok (s.mark t true)
      else match fuel with
        | 0 => .error reorderingFuel
        | fuel + 1 => do
          let s ← entry.list.foldlM
            (fun s dep =>
              match deps.get? dep.target with
              | some theDep => doRecursive deps fuel dep.target theDep.aggreg s
              | none => .ok s)
            (s.mark t force)
          return s.insert t entry.location

/-- The loops over the three tables. -/
def walkTypes (deps : Deps) : Except String Reordering :=
  deps.types.foldlM (fun s t => doRecursive deps deps.types.length t false s) ⟨fun _ => none, []⟩

/-- `rtxResolve_BlockReordering`: the keys of the chunks in their new order. -/
def blockReordering (chunks : List CDecl) : Except String (List Nat) := do
  let deps ← registerFrom Deps.empty 0 chunks
  let s ← walkTypes deps
  return s.inserted ++ (List.range chunks.length).filter (· ∉ s.inserted)

end Rathaxes.Resolve
