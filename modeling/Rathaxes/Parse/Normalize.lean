import Mathlib.Data.List.Basic

/-!
# Normalising a C tree

`rtx_templatedLang_normalize<"C">` of `parse/rtxTemplatedLanguageLib.inc.cws`. The C parser leaves the words
it does not know in `unknown` of a type it calls `auto`; the pass takes a type out of them. It alternates
between two functions: `rtx_templatedLang_cnormcheck` looks at any node, `rtx_templatedLang_normalize` goes
into the items of a block and leaves every other node as it is.
-/

set_option autoImplicit false

namespace Rathaxes.Parse

/-- The `type` of a node, as far as the pass looks at it. -/
inductive NodeType where
  | decl
  | fieldDecl
  | paramDecl
  | block
  | rootBlock
  | other
deriving DecidableEq

/-- The attribute of its parent a node is in: an item of `block`, an attribute of `ctype`, or one of the
others. `initial` is `initialize`. -/
inductive Slot where
  | block
  | pointer
  | ctypeBody
  | param
  | ctypeList
  | expr
  | assignExpr
  | colonExpr
  | left
  | right
  | condition
  | initial
  | increment
  | list
  | body
  | thenPart
  | elsePart
deriving DecidableEq

/-- The `ctype` of a node. The keys of `unknown` are the words. -/
structure CType where
  identifier : String
  storage : String
  unknown : Option (List String)
deriving DecidableEq

/-- The attributes of a node that are no nodes. Without a `ctype` those of `ctype` are empty. -/
structure Head where
  type : NodeType
  name : Option String
  ctype : CType
deriving DecidableEq

/-- A node, with the attribute it is in and the nodes in its own attributes. -/
inductive CNode where
  | mk (slot : Slot) (head : Head) (children : List CNode)

namespace CNode

def slot : CNode → Slot
  | mk slot _ _ => slot

def head : CNode → Head
  | mk _ head _ => head

def children : CNode → List CNode
  | mk _ _ children => children

end CNode

/-! ## One declaration -/

/-- A node `rtx_templatedLang_cnormpass` is called for. -/
def NodeType.isDecl : NodeType → Bool
  | .decl | .fieldDecl | .paramDecl => true
  | _ => false

/-- `removeLastElement(unknown)`, and `unknown` goes with its last element. -/
def removeLastElement (unknown : List String) : Option (List String) :=
  if unknown.dropLast = [] then none else some unknown.dropLast

/-- `rtx_templatedLang_cnormpass`. The iterator is at the first word, and `last` asks whether it is at the last
one. -/
def cnormpass (theDecl : Head) : Head :=
  match theDecl.ctype.unknown with
  | some (word :: words) =>
    let last := words = []
    if theDecl.ctype.identifier = "auto" then
      if last then
        { theDecl with ctype := { theDecl.ctype with
            identifier := word
            unknown := removeLastElement (word :: words) } }
      else theDecl
    else if theDecl.ctype.storage = "typedef" ∧ (theDecl.name = some "" ∨ theDecl.name = none) then
      if last then
        { theDecl with
          name := some word
          ctype := { theDecl.ctype with unknown := removeLastElement (word :: words) } }
      else theDecl
    else theDecl
  | _ => theDecl

/-! ## The walk -/

/-- The function a node is handed to. -/
inductive Visit where
  | check
  | normalize
  | skip
deriving DecidableEq

/-- What `rtx_templatedLang_cnormcheck` calls for the nodes of a node of this type. The items of a `__block__`
are looked at, those of another node are not. -/
def NodeType.visits (type : NodeType) : Slot → Visit
  | .block => if type = .block then .check else .skip
  | .pointer | .ctypeList | .expr | .assignExpr | .colonExpr | .left | .right | .condition | .increment
  | .list => .check
  | .ctypeBody | .param | .initial | .body | .thenPart | .elsePart => .normalize

/-- The nodes `rtx_templatedLang_normalize<"C">` goes into. -/
def NodeType.isBlock : NodeType → Bool
  | .block | .rootBlock => true
  | _ => false

mutual

/-- `rtx_templatedLang_cnormcheck`. -/
def cnormcheck : CNode → CNode
  | .mk slot head children =>
    .mk slot (if head.type.isDecl then cnormpass head else head) (cnormcheckAll head.type children)

/-- The calls for the nodes in a node. -/
def cnormcheckAll (type : NodeType) : List CNode → List CNode
  | [] => []
  | child :: children =>
    (match type.visits child.slot with
      | .check => cnormcheck child
      | .normalize => normalize child
      | .skip => child) :: cnormcheckAll type children

/-- `rtx_templatedLang_normalize<"C">`. -/
def normalize : CNode → CNode
  | .mk slot head children =>
    if head.type.isBlock then .mk slot head (normalizeAll children) else .mk slot head children

/-- The calls for the items of a block. -/
def normalizeAll : List CNode → List CNode
  | [] => []
  | child :: children =>
    (if child.slot = .block then cnormcheck child else child) :: normalizeAll children

end

end Rathaxes.Parse
