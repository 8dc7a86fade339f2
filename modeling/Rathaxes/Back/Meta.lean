import Mathlib.Algebra.GroupWithZero.Nat
import Rathaxes.Back.PlaceHolders
import Rathaxes.CodeWorker.FileSystem

/-!
# Placeholders of a file

`rtxMeta` of `passes/back/rtxMeta.inc.cws`: the placeholders of all C code in a file are put in tables, by `rtxPH_walk`, and
then the text of each is parsed, by `rtxMeta_walk`. The parser of a placeholder is a parameter, a partial function. Of the
nodes in the file there is what the two walks read: the C code, and the attribute `error` of an item.
-/

set_option autoImplicit false

namespace Rathaxes.Back

open CodeWorker

/-- An item of a file, or of a with-block or a template in it: `__rtx_with__`, `__rtx_tpl__`, `__rtx_chunk__`, or one of
another type. `mapping` has the C code for the members of a type. The C code is a parameter: a walk adds to it. -/
inductive SourceItem (Code : Type) where
  | withBlock (body : List (SourceItem Code)) (cBlock : Code) (error : String)
  | tpl (body : List (SourceItem Code)) (mapping : Option (List Code)) (error : String)
  | chunk (body : Code) (error : String)
  | other (error : String)

/-- The attribute `error`. -/
def SourceItem.error {Code : Type} : SourceItem Code → String
  | withBlock _ _ error => error
  | tpl _ _ error => error
  | chunk _ error => error
  | other error => error

/-! ## Extracting the placeholders -/

/-- C code with its table of placeholders. -/
abbrev Compiled (Holder : Type) := CTree × Table Holder

/-- The C code of an item, with what is left in `this.phtype`. -/
def phCompile (code : CTree) (phtype : Option PhType) : Compiled Entry × Option PhType :=
  let r := compileRoot phtype code
  ((r.1, r.2.compile), r.2.phtype)

/-- The C code of the members of a type. -/
def phCompileAll : List CTree → Option PhType → List (Compiled Entry) × Option PhType
  | [], phtype => ([], phtype)
  | code :: codes, phtype =>
    let r := phCompile code phtype
    let rs := phCompileAll codes r.2
    (r.1 :: rs.1, rs.2)

/-- The mapping of a template, if it has one. -/
def phMapping : Option (List CTree) → Option PhType → Option (List (Compiled Entry)) × Option PhType
  | none, phtype => (none, phtype)
  | some codes, phtype =>
    let r := phCompileAll codes phtype
    (some r.1, r.2)

mutual

/-- `rtxPH_walk<T>`. -/
def phWalk : SourceItem CTree → Option PhType → SourceItem (Compiled Entry) × Option PhType
  | .tpl body mapping error, phtype =>
    let b := phWalkAll body phtype
    let m := phMapping mapping b.2
    (.tpl b.1 m.1 error, m.2)
  | .chunk body error, phtype =>
    let b := phCompile body phtype
    (.chunk b.1 error, b.2)
  | .withBlock body cBlock error, phtype =>
    let b := phWalkAll body phtype
    let c := phCompile cBlock b.2
    (.withBlock b.1 c.1 error, c.2)
  | .other error, phtype => (.other error, phtype)

/-- The items of a block. -/
def phWalkAll : List (SourceItem CTree) → Option PhType → List (SourceItem (Compiled Entry)) × Option PhType
  | [], phtype => ([], phtype)
  | item :: items, phtype =>
    let r := phWalk item phtype
    let rs := phWalkAll items r.2
    (r.1 :: rs.1, rs.2)

end

/-! ## Parsing them -/

/-- A placeholder with the node its text is parsed to, once it is. -/
structure ParsedHolder (Node : Type) where
  entry : Entry
  node : Option Node

section

variable {Node : Type} (parse : String → Option Node)

/-- `rtxMeta_parsePlaceHolder`. -/
def parsePlaceHolder (entry : Entry) : ParsedHolder Node × Bool :=
  match parse entry.templateExpr with
  | some treepart => (⟨entry, some treepart⟩, true)
  | none => (⟨entry, none⟩, false)

/-- The loop over a table, with the number of failures. -/
def parseAll (code : Compiled Entry) : Compiled (ParsedHolder Node) × Nat :=
  ((code.1, code.2.mapValues fun _ entry => (parsePlaceHolder parse entry).1),
    code.2.entries.countP fun e => !(parsePlaceHolder parse e.2).2)

/-- The loop over a mapping. -/
def parseMapping : Option (List (Compiled Entry)) → Option (List (Compiled (ParsedHolder Node))) × Nat
  | none => (none, 0)
  | some codes => (some (codes.map fun code => (parseAll parse code).1), (codes.map fun code => (parseAll parse code).2).sum)

mutual

/-- `rtxMeta_walk<T>`. -/
def metaWalk : SourceItem (Compiled Entry) → SourceItem (Compiled (ParsedHolder Node)) × Bool
  | .withBlock body cBlock error =>
    let b := metaWalkAll body
    let c := parseAll parse cBlock
    (.withBlock b.1 c.1 error, b.2 + c.2 = 0)
  | .chunk body error =>
    let b := parseAll parse body
    (.chunk b.1 error, b.2 = 0)
  | .tpl body mapping error =>
    let b := metaWalkAll body
    let m := parseMapping parse mapping
    (.tpl b.1 m.1 error, b.2 + m.2 = 0)
  | .other error => (.other error, true)

/-- The items of a block, with the number of failures. -/
def metaWalkAll : List (SourceItem (Compiled Entry)) → List (SourceItem (Compiled (ParsedHolder Node))) × Nat
  | [] => ([], 0)
  | item :: items =>
    let r := metaWalk item
    let rs := metaWalkAll items
    (r.1 :: rs.1, (if r.2 = false then 1 else 0) + rs.2)

end

/-- `rtxMeta`. What the second walk returns is not looked at; an item has an error if the attribute is not empty. -/
def rtxMeta (source : List (SourceItem CTree)) (phtype : Option PhType) :
    Bool × List (SourceItem (Compiled (ParsedHolder Node))) :=
  let items := (metaWalkAll parse (phWalkAll source phtype).1).1
  let hasError := items.any fun item => item.error ≠ ""
  (!hasError, items)

end

end Rathaxes.Back
