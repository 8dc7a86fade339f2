import Mathlib.Data.List.Infix
import Rathaxes.CodeWorker.Table
import Rathaxes.Node.CTree

/-!
# Placeholders in C code

`rtxPH_compile` of `passes/back/rtxPlaceHolders.inc.cws`. It walks over the tree of C code and puts a key in place of each
text with a placeholder, with an entry under the key that has the text. The functions follow the order in which
the attributes of a node are visited.

`this.phtype` is a global variable that says whether a placeholder is used as a pointer. It is set on the way to an
operand and set back behind it.

References to nodes are addresses, of nodes in the tree as it is after the walk: a single statement
that is the body of another one is made a block with one item.
-/

set_option autoImplicit false

namespace Rathaxes.Back

open CodeWorker

/-! ## Entries -/

/-- `rtxPH_havePlaceHolder`: the text has a dollar sign and an opening brace in it. -/
def havePlaceHolder (text : String) : Bool := decide (['$', '\x7b'] <:+: text.toList)

/-- `type_target`. -/
inductive TypeTarget where
  | identifier
  | expr
  | decl
  | pointcut
deriving DecidableEq

/-- `ph_type`. -/
inductive PhType where
  | scalar
  | pointer
  | copy
deriving DecidableEq

/-- The loop that goes up from a node until the parent of its parent is a `__block__`: to an item of such a block. -/
def climb : Address → Option Address
  | [] => none
  | .item .block i :: above => some (.item .block i :: above)
  | .item .root _ :: above => climb above
  | .item .init _ :: above => climb above
  | .attr _ :: above => climb above
  | .entry _ _ :: above => climb above

/-- `ref_placeholder`, from the address of the text. -/
def TypeTarget.refPlaceholder (target : TypeTarget) (address : Address) : Option Address :=
  match target with
  | .identifier => some address
  | .expr => some address.tail
  | .decl => some address.tail
  | .pointcut => climb address

/-- An entry of the table `compile`. -/
structure Entry where
  blockIdx : Int
  templateExpr : String
  typeTarget : TypeTarget
  phType : PhType
  refPlaceholder : Option Address
deriving DecidableEq

/-- The table `compile` with its counter, and `this.phtype`. -/
structure Walk where
  compile : Table Entry
  nbplaceholder : Nat
  phtype : Option PhType

namespace Walk

/-- Before anything is compiled. -/
def start : Walk := ⟨Table.empty, 0, none⟩

/-- Assignment to `this.phtype`. -/
def setPhtype (s : Walk) (phtype : PhType) : Walk := { s with phtype := some phtype }

/-- `this.phtype` is given a value where an expression is met for the first time. -/
def initPhtype (s : Walk) : Walk := if s.phtype = none then s.setPhtype .copy else s

/-- On the way to an operand that is there. -/
def enter (s : Walk) (present points : Bool) : Walk := if present && points then s.setPhtype .pointer else s

/-- Behind an operand that is there. -/
def leave (s : Walk) (present : Bool) : Walk := if present then s.setPhtype .copy else s

end Walk

/-- The key of the entry with this number. -/
def placeHolderKey (n : Nat) : String := "_" ++ toString n

/-- `rtxPH_mapPlaceHolder`: what stands in place of the text. -/
def mapPlaceHolder (address : Address) (nodeIdx : Int) (typeTarget : TypeTarget) (phType : PhType) (text : String)
    (s : Walk) : String × Walk :=
  let n := s.nbplaceholder + 1
  let sKey := placeHolderKey n
  let entry : Entry := ⟨nodeIdx, text, typeTarget, phType, typeTarget.refPlaceholder address⟩
  (sKey, ⟨s.compile.set sKey entry, n, s.phtype⟩)

/-- What is done with a text: it may be a name, the name of a type, a terminal, a terminal that is a whole statement, a
raw pointcut, which is always mapped, or one the walk does not come to. -/
inductive Role where
  | identifier
  | typeName
  | terminal
  | statement
  | raw
  | unvisited
deriving DecidableEq

namespace Role

/-- The target of the placeholder. -/
def target : Role → TypeTarget
  | identifier => .identifier
  | typeName => .decl
  | terminal => .expr
  | statement => .pointcut
  | raw => .expr
  | unvisited => .identifier

/-- Its type: `this.phtype` for a terminal, and the default value of the parameter for the others. -/
def phType (role : Role) (phtype : Option PhType) : PhType :=
  match role with
  | terminal => phtype.getD .copy
  | identifier => .scalar
  | typeName => .scalar
  | statement => .scalar
  | raw => .scalar
  | unvisited => .scalar

/-- Whether a text is replaced. -/
def replaces (role : Role) (text : String) : Bool :=
  match role with
  | raw => true
  | unvisited => false
  | identifier => havePlaceHolder text
  | typeName => havePlaceHolder text
  | terminal => havePlaceHolder text
  | statement => havePlaceHolder text

end Role

/-- A text the walk comes to. -/
def visitText (address : Address) (nodeIdx : Int) (role : Role) (text : String) (s : Walk) : String × Walk :=
  if role.replaces text then mapPlaceHolder address nodeIdx role.target (role.phType s.phtype) text s else (text, s)

/-! ## The walk -/

/-- The operand on the left of `->` or of a postfix expression is a pointer. -/
def pointsLeft (exprType operator : String) : Bool := operator = "->" || exprType = "__postexpr__"

/-- The operand of the unary `*` is a pointer. -/
def pointsRight (exprType operator : String) : Bool := operator = "*" && exprType = "__unary__"

mutual

/-- `rtxPH_compile<T>`. -/
def compile (A : Address) (nodeIdx : Int) : CTree → Walk → CTree × Walk
  | .block kind items, s =>
    let r := compileList (fun i => (.item kind i :: A, i)) (fun _ => true) 0 items s
    (.block kind r.1, r.2)
  | .decl kind ctype name colonExpr assignExpr body, s =>
    let t := compileTypes A nodeIdx 0 ctype s
    let n := visitText (.attr .name :: A) nodeIdx .identifier name t.2
    let c := compileOpt (.attr .colonExpr :: A) nodeIdx colonExpr n.2
    let a := compileOpt (.attr .assignExpr :: A) nodeIdx assignExpr c.2
    let b := compileOpt (.attr .body :: A) nodeIdx body a.2
    (.decl kind t.1 n.1 c.1 a.1 b.1, b.2)
  | .expr exprType operator left right condition thenExpr elseExpr body list, s =>
    let l := compileOpt (.attr .left :: A) nodeIdx left
      (s.initPhtype.enter left.isSome (pointsLeft exprType operator))
    let r := compileOpt (.attr .right :: A) nodeIdx right
      ((l.2.leave left.isSome).enter right.isSome (pointsRight exprType operator))
    let c := compileOpt (.attr .condition :: A) nodeIdx condition (r.2.leave right.isSome)
    let t := compileOpt (.attr .thenPart :: A) nodeIdx thenExpr c.2
    let e := compileOpt (.attr .elsePart :: A) nodeIdx elseExpr t.2
    let b := compileOpt (.attr .body :: A) nodeIdx body e.2
    let p := compilePostfixes A nodeIdx 0 list b.2
    (.expr exprType operator l.1 r.1 c.1 t.1 e.1 b.1 p.1, p.2)
  | .terminal id, s =>
    let i := visitText (.attr .id :: A) nodeIdx .terminal id s.initPhtype
    (.terminal i.1, i.2)
  | .stmt expr label condition thenStmt elseStmt initial increment body, s =>
    let x := compileTarget (.attr .expr :: A) nodeIdx expr s
    let l := visitText (.attr .label :: A) nodeIdx .identifier label x.2
    let c := compileOpt (.attr .condition :: A) nodeIdx condition l.2
    let t := compileBody (.attr .thenPart :: A) nodeIdx thenStmt c.2
    let e := compileBody (.attr .elsePart :: A) nodeIdx elseStmt t.2
    let n := compileOpt (.attr .initial :: A) nodeIdx initial e.2
    let m := compileOpt (.attr .increment :: A) nodeIdx increment n.2
    let b := compileBody (.attr .body :: A) nodeIdx body m.2
    (.stmt x.1 l.1 c.1 t.1 e.1 n.1 m.1 b.1, b.2)
  | .indexDesignation index expr, s =>
    let i := compile (.attr .index :: A) nodeIdx index s
    let e := compile (.attr .expr :: A) nodeIdx expr i.2
    (.indexDesignation i.1 e.1, e.2)
  | .fieldDesignation name expr, s =>
    let n := visitText (.attr .name :: A) nodeIdx .identifier name s
    let e := compile (.attr .expr :: A) nodeIdx expr n.2
    (.fieldDesignation n.1 e.1, e.2)
  | .pointcutRaw id, s =>
    let i := visitText (.attr .id :: A) nodeIdx .raw id s
    (.pointcutRaw i.1, i.2)

/-- An attribute that may be absent. -/
def compileOpt (A : Address) (nodeIdx : Int) : Option CTree → Walk → Option CTree × Walk
  | none, s => (none, s)
  | some node, s =>
    let r := compile A nodeIdx node s
    (some r.1, r.2)

/-- The expression of a statement: a terminal may be a pointcut or a call, which stands for the whole statement. -/
def compileTarget (A : Address) (nodeIdx : Int) : Option CTree → Walk → Option CTree × Walk
  | none, s => (none, s)
  | some node, s =>
    match node.id? with
    | some id =>
      let i := visitText (.attr .id :: A) nodeIdx .statement id s
      (some (node.setId i.1), i.2)
    | none =>
      let r := compile A nodeIdx node s
      (some r.1, r.2)

/-- `rtxPH_UpgradeStatementToBlock`, and the walk over the block: a single statement is the one item of a new one. -/
def compileBody (A : Address) (nodeIdx : Int) : Option CTree → Walk → Option CTree × Walk
  | none, s => (none, s)
  | some node, s =>
    if node.isBlock then
      let r := compile A nodeIdx node s
      (some r.1, r.2)
    else
      let r := compile (.item .block 0 :: A) 0 node s
      (some (.block .block [r.1]), r.2)

/-- The nodes of a list from the one with this position, each with its address and the index passed on. Those that
are not to be visited stay as they are. -/
def compileList (place : Nat → Address × Int) (visits : CTree → Bool) (i : Nat) :
    List CTree → Walk → List CTree × Walk
  | [], s => ([], s)
  | node :: nodes, s =>
    if visits node then
      let r := compile (place i).1 (place i).2 node s
      let rs := compileList place visits (i + 1) nodes r.2
      (r.1 :: rs.1, rs.2)
    else
      let rs := compileList place visits (i + 1) nodes s
      (node :: rs.1, rs.2)

/-- The loop over a type and those it points to. -/
def compileTypes (A : Address) (nodeIdx : Int) (i : Nat) : List CType → Walk → List CType × Walk
  | [], s => ([], s)
  | .mk body identifier list param enum :: types, s =>
    let B := .entry .ctype i :: A
    let b := compileOpt (.attr .body :: B) nodeIdx body s
    let n := visitText (.attr .identifier :: B) nodeIdx .typeName identifier b.2
    let l := compileList (fun j => (.entry .list j :: B, nodeIdx)) (fun _ => true) 0 list n.2
    let p := compileOpt (.attr .param :: B) nodeIdx param l.2
    let e := compileList (fun j => (.entry .enum j :: B, nodeIdx)) (fun _ => true) 0 enum p.2
    let ts := compileTypes A nodeIdx (i + 1) types e.2
    (.mk b.1 n.1 l.1 p.1 e.1 :: ts.1, ts.2)

/-- The loop over the list of a postfix expression. An index that is a postfix expression has a `list` too, and what
is in that is not an expression. -/
def compilePostfixes (A : Address) (nodeIdx : Int) (i : Nat) : List Postfix → Walk → List Postfix × Walk
  | [], s => ([], s)
  | .index expr :: items, s =>
    if expr.hasList then
      let rs := compilePostfixes A nodeIdx (i + 1) items s
      (.index expr :: rs.1, rs.2)
    else
      let r := compile (.entry .list i :: A) nodeIdx expr s
      let rs := compilePostfixes A nodeIdx (i + 1) items r.2
      (.index r.1 :: rs.1, rs.2)
  | .call args :: items, s =>
    let r := compileList (fun j => (.entry .args j :: .entry .list i :: A, nodeIdx)) CTree.isExpr 0 args s
    let rs := compilePostfixes A nodeIdx (i + 1) items r.2
    (.call r.1 :: rs.1, rs.2)

end

/-- `rtxPH_compile` called from `rtxPH_walk`, with what is left in `this.phtype`. -/
def compileRoot (phtype : Option PhType) (node : CTree) : CTree × Walk := compile [] (-1) node ⟨Table.empty, 0, phtype⟩

end Rathaxes.Back
