import Rathaxes.CodeWorker.Table
import Rathaxes.Node.RType

/-!
# With-blocks and configurations

A with-block guards the templates and chunks it holds by constraints on configuration variables:
`with LKM, Init values LKM::version >= 2.6, LKM::version < 3.0 { … }`. The parser keeps the
constraints as a list; before a block is matched, `rtxNodeWith_BuildFromConstraints` files each
one under its interface and its variable. The configuration it is matched against has the same
two levels of keys.
-/

set_option autoImplicit false

namespace Rathaxes

open CodeWorker

/-- One part of a serial number: `__rtx_serial_unit__` or `__rtx_serial_sep__`. -/
inductive SerialItem where
  | unit (val : String)
  | sep (val : String)
deriving DecidableEq

/-- A value of the configuration language. A serial holds its parts in `list`, every other kind
of value its text in `val`. -/
structure ValueNode where
  type : String
  rtype : RType
  val : String
  list : List SerialItem
deriving DecidableEq

/-- What `rtx_serial` reads: a unit, then one or more units with a separator before each. -/
structure Serial where
  first : String
  rest : List (String × String)
  several : rest ≠ []

/-- Units with their separators, in the order `rtxNodeSerial_AddUnit` is called. -/
def serialPairs : List (String × String) → List SerialItem
  | [] => []
  | (sep, unit) :: rest => .sep sep :: .unit unit :: serialPairs rest

/-- The list of a serial. -/
def Serial.items (s : Serial) : List SerialItem := .unit s.first :: serialPairs s.rest

/-- `rtxNodeSerial` with the list of its parts. `rtxType_Search` has left an empty `val`. -/
def rtxNodeSerial (items : List SerialItem) : ValueNode where
  type := "__rtx_serial__"
  rtype := ⟨rtxNodeIdentifier ⟨"serial", .refl true⟩ ⟨"Builtin", .refl true⟩, []⟩
  val := ""
  list := items

/-- `rtx_stmt_with_operator`. -/
inductive Operator where
  | lesser
  | lesserEqual
  | equal
  | greaterEqual
  | greater
deriving DecidableEq

/-- An `__rtx_with_constraint__` node. -/
structure Constraint where
  var : Ident
  op : Operator
  val : ValueNode
  location : String
deriving DecidableEq

namespace Constraint

/-- The name of the interface whose variable is constrained. -/
def itfName (c : Constraint) : String := c.var.scope.text

/-- The name of the constrained variable. -/
def varName (c : Constraint) : String := c.var.name.text

end Constraint

/-- Constraints by interface, then by variable. -/
abbrev WithConfig := Table (Table Constraint)

/-- One entry of a configuration. -/
structure ConfigVar where
  type : String
  val : ValueNode
deriving DecidableEq

/-- Configuration values by interface, then by variable. -/
abbrev Config := Table (Table ConfigVar)

/-- An `__rtx_with__` node without the code it guards. The grammar reads at least one
interface. -/
structure WithNode where
  interfaces : List Word
  nonempty : interfaces ≠ []
  constraints : Table Constraint
  config : WithConfig
deriving DecidableEq

/-- The node the parser leaves: the constraints in order, nothing filed yet. -/
def rtxNodeWith (interfaces : List Word) (nonempty : interfaces ≠ [])
    (constraints : List Constraint) : WithNode where
  interfaces := interfaces
  nonempty := nonempty
  constraints := Table.ofList constraints
  config := Table.empty

/-- The node of a block for one interface. -/
def rtxNodeWithOne (interface : Word) (constraints : List Constraint) : WithNode :=
  rtxNodeWith [interface] (List.cons_ne_nil interface []) constraints

namespace WithNode

/-- `local_node.interfaces[0]`. -/
def firstInterface (w : WithNode) : Word := w.interfaces.head w.nonempty

/-- `rtxNodeWith_AssocInterfaceConstraint`: `setall` overwrites what stood under the variable. -/
def assocInterfaceConstraint (w : WithNode) (interface constraintKey : String) : WithNode :=
  match w.constraints.get? constraintKey with
  | none => w
  | some constraint =>
    let itf := (w.config.get? interface).getD Table.empty
    { w with config := w.config.set interface (itf.set constraint.varName constraint) }

/-- One turn of the second loop of `rtxNodeWith_BuildFromConstraints`. -/
def removeConstraint (w : WithNode) (theKey : String) : WithNode :=
  { w with constraints := w.constraints.remove theKey }

/-- `rtxNodeWith_BuildFromConstraints`: file every constraint, then empty the list. -/
def buildFromConstraints (w : WithNode) : WithNode :=
  let filed := w.constraints.entries.foldl
    (fun n e => n.assocInterfaceConstraint e.2.itfName e.1) w
  let toRemove := w.constraints.entries.map Prod.fst
  toRemove.foldl removeConstraint filed

end WithNode

end Rathaxes
