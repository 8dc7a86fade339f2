import Rathaxes.Back.InferTypes

/-!
# The types a chunk can name

`rtxTypeHash` of `passes/back/rtxTypeHash.inc.cws`. A walk through the file fills one table with the types of the
parameters of a template, copies it to each chunk of the template and clears it. A chunk adds its own parameters to its
copy, `type_map`, which is where introspection and generation look types up.
-/

set_option autoImplicit false

namespace Rathaxes.Back

open CodeWorker

/-- The parameters of a prototype: `identifiers` with the types of `rtype.params`. The grammar reads them in pairs, and
a name may be missing. -/
abbrev Formals := List (String × Ident)

/-- The types of the parameters. -/
def Formals.types (formals : Formals) : List Ident := formals.map Prod.snd

/-- A statement of the file. A template has chunks only, each given by its parameters. -/
inductive HashItem where
  | itf
  | device
  | config
  | block (items : List HashItem)
  | withBlock (items : List HashItem)
  | tpl (params : Formals) (chunks : List Formals)
  | chunk (params : Formals)

/-- A chunk the walk has been at. -/
structure HashedChunk where
  parameters : Formals
  typeMap : Table TypeNode

/-- The loop over the parameters of a prototype. A later parameter of the same name takes the place of an earlier
one. -/
def hashParams (typeMap : Table TypeNode) (params : Formals) : Table TypeNode :=
  params.foldl (fun typeMap param => typeMap.set param.1 (.rtype ⟨param.2, []⟩)) typeMap

/-- `rtxTypeHash_walk<"__rtx_chunk__">`. -/
def typeHashChunk (typeMap : Table TypeNode) (params : Formals) : HashedChunk := ⟨params, hashParams typeMap params⟩

mutual

/-- `rtxTypeHash_walk`: the chunks, and the table after them. -/
def typeHashItem (typeMap : Table TypeNode) : HashItem → List HashedChunk × Table TypeNode
  | .itf => ([], typeMap)
  | .device => ([], typeMap)
  | .config => ([], typeMap)
  | .block items => typeHashItems typeMap items
  | .withBlock items => typeHashItems typeMap items
  | .tpl params chunks =>
    let tplMap := hashParams typeMap params
    -- "Now that it's used, delete its content."
    (chunks.map (typeHashChunk tplMap), Table.empty)
  | .chunk params => ([typeHashChunk typeMap params], typeMap)

/-- The loops of the walk. -/
def typeHashItems (typeMap : Table TypeNode) : List HashItem → List HashedChunk × Table TypeNode
  | [] => ([], typeMap)
  | item :: items =>
    let first := typeHashItem typeMap item
    let rest := typeHashItems first.2 items
    (first.1 ++ rest.1, rest.2)

end

/-- `rtxTypeHash` on a file. -/
def typeHash (file : List HashItem) : List HashedChunk := (typeHashItems Table.empty file).1

end Rathaxes.Back
