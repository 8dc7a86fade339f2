import Mathlib.Data.List.Basic

/-!
# The tree of C code

The nodes cnorm makes of C code, as far as the back end reads them (`passes/back/rtxPlaceHolders.inc.cws`): each node
has the attributes that are read, and one that is absent is `none` or the empty text. Entries without a type, which
the parser may leave in the lists of a type or of a call, are not in the model; nor are the maps from names to
positions cnorm keeps beside parameters and enumerators.

An `__expr__` node is a terminal, which has an `id`, or has other expressions in it. What a postfix expression puts
behind its operand is in `list`: an index, or the arguments of a call. The types a declaration goes through from pointer
to pointer are a list.
-/

set_option autoImplicit false

namespace Rathaxes

/-- `__block__`, `__root_block__` and `__block_init__`. -/
inductive BlockKind where
  | block
  | root
  | init
deriving DecidableEq

/-- `__decl__`, `__field_decl__`, `__param_decl__` and `__fwd_decl__`. -/
inductive DeclKind where
  | decl
  | field
  | param
  | fwd
deriving DecidableEq

mutual

/-- A node of C code. -/
inductive CTree where
  | block (kind : BlockKind) (items : List CTree)
  | decl (kind : DeclKind) (ctype : List CType) (name : String) (colonExpr assignExpr body : Option CTree)
  | expr (exprType operator : String) (left right condition thenExpr elseExpr body : Option CTree)
      (list : List Postfix)
  | terminal (id : String)
  | stmt (expr : Option CTree) (label : String)
      (condition thenStmt elseStmt initial increment body : Option CTree)
  | indexDesignation (index expr : CTree)
  | fieldDesignation (name : String) (expr : CTree)
  | pointcutRaw (id : String)

/-- A type in a declaration, without the type it points to. -/
inductive CType where
  | mk (body : Option CTree) (identifier : String) (list : List CTree) (param : Option CTree) (enum : List CTree)

/-- An entry of `list` of a postfix expression: its `expr` is an index, or has the arguments in a list. -/
inductive Postfix where
  | index (expr : CTree)
  | call (args : List CTree)

end

namespace CTree

/-- `existVariable(expr.list)`. -/
def hasList : CTree → Bool
  | expr _ _ _ _ _ _ _ _ list => !list.isEmpty
  | _ => false

/-- `existVariable(param.expr_type)`: the node is an expression. -/
def isExpr : CTree → Bool
  | expr _ _ _ _ _ _ _ _ _ => true
  | terminal _ => true
  | _ => false

/-- `type == "__block__"`. -/
def isBlock : CTree → Bool
  | block .block _ => true
  | _ => false

/-- The attribute `id`. -/
def id? : CTree → Option String
  | terminal id => some id
  | pointcutRaw id => some id
  | _ => none

/-- Assignment to `id`. -/
def setId (id : String) : CTree → CTree
  | terminal _ => terminal id
  | pointcutRaw _ => pointcutRaw id
  | node => node

end CTree

/-! ## Addresses -/

/-- The attributes on the way from a node to one in it. -/
inductive Attr where
  | ctype | identifier | enum | param | name | colonExpr | assignExpr | body
  | left | right | condition | thenPart | elsePart | list | id
  | expr | label | initial | increment | index | args
deriving DecidableEq

/-- A step from a node to one in it: an item of a block, with the type of the block; an attribute; an entry of an
attribute that is a list. -/
inductive Step where
  | item (kind : BlockKind) (i : Nat)
  | attr (a : Attr)
  | entry (a : Attr) (i : Nat)
deriving DecidableEq

/-- Where a node stands in a tree: the steps to it, the last one first. -/
abbrev Address := List Step

end Rathaxes
