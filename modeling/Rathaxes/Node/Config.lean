import Rathaxes.CodeWorker.Nested
import Rathaxes.Node.With

/-!
# Configuration blocks

The block `configuration { … }` of a source file (`rtx_stmt_config_block` of `parse/rtxFront.cwp`) assigns values to
variables, and a variable may have an extension with further assignments. `rtxNodeWith_BuildFromConfig` of
`node/rtxNode.inc.cws` files the values under their interfaces and names, in the form with-blocks are compared with.

All levels file into one array. A variable that is there already is an error: its own value and its extension are left
out, and the loops go on with the next one and count.
-/

set_option autoImplicit false

namespace Rathaxes

open CodeWorker

/-- An `__rtx_config_field__` node. Without an extension the list is empty. -/
inductive ConfigField where
  | mk (id : Ident) (val : ValueNode) (extension : List ConfigField)

namespace ConfigField

def id : ConfigField → Ident | mk id _ _ => id
def val : ConfigField → ValueNode | mk _ val _ => val
def extension : ConfigField → List ConfigField | mk _ _ extension => extension

end ConfigField

/-- A node with a block of fields. -/
structure ConfigNode where
  type : String
  body : List ConfigField

/-- `rtxNodeConfig`, with the fields `rtx_stmt_config_block` adds. -/
def rtxNodeConfig (body : List ConfigField) : ConfigNode := ⟨"__rtx_config__", body⟩

mutual

/-- `rtxNodeWith_BuildFromConfigVar`. -/
def buildFromConfigVar : ConfigField → Config → Bool × Config
  | .mk id val extension, config =>
    let itfName := id.scope.text
    let varName := id.name.text
    let config := if config.has itfName then config else config.set itfName Table.empty
    -- "Check that the variable is not defined twice."
    if (config.cell? (itfName, varName)).isSome then (false, config)
    else
      let config := config.put (itfName, varName) ⟨val.type, val⟩
      let (errcount, config) := buildFromConfigVars extension config
      (decide (errcount = 0), config)

/-- The loop over the fields of a block, with the number of errors. -/
def buildFromConfigVars : List ConfigField → Config → Nat × Config
  | [], config => (0, config)
  | var :: rest, config =>
    let (ok, config) := buildFromConfigVar var config
    let (errcount, config) := buildFromConfigVars rest config
    (if ok = false then errcount + 1 else errcount, config)

end

/-- `rtxNodeWith_BuildFromConfig`. -/
def buildFromConfig (node : ConfigNode) (outConfig : Config) : Bool × Config :=
  if node.type ≠ "__rtx_config__" then (false, outConfig)
  else
    let (errcount, outConfig) := buildFromConfigVars node.body outConfig
    (decide (errcount = 0), outConfig)

end Rathaxes
