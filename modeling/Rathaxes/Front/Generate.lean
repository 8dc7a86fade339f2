import Rathaxes.Front.TypeCheck
import Rathaxes.Resolve.Instance

/-!
# The generation of a driver

`rtxFrontGenerate` of `passes/front/rtxGenerate.inc.cws`, with `rtxFrontGen_iterate` and `rtxFrontGen_Device`. For
every device of the file the global code of the cache that goes with the configuration is loaded, instantiated and
copied to the end of the C tree of the driver. No values are passed to it: `rtxFrontGen_BuildResValFromDevice` has no
body. The list of the interfaces a device uses is put together and then not read.
-/

set_option autoImplicit false

namespace Rathaxes.Front

open CodeWorker Link Resolve

/-- What a generation works with: what chunks are resolved with, `rtxLink_LoadItem` for global code, and the values of
a variable to which nothing has been assigned. -/
structure Generator (C A D V : Type) extends Weaver C A D V where
  loadGlobal : GlobalCode → Except String (ChunkTree C A D)
  noVals : V

namespace Generator

variable {C A D V : Type}

/-- The loop over the global code: the C tree and what the function returns. It stops at the first piece that cannot be
instantiated. -/
def genGlobalCode (g : Generator C A D V) (fuel : Nat) :
    List GlobalCode → List (Woven C) → Except String (List (Woven C) × Bool)
  | [], cTree => .ok (cTree, true)
  | withNode :: listGlobNode, cTree => do
    let theTree ← g.loadGlobal withNode
    match ← g.instanceChunk fuel g.noVals theTree with
    | (_, false) => return (cTree, false)
    | (stmts, true) => g.genGlobalCode fuel listGlobNode (cTree ++ stmts)

/-- `rtxFrontGen_Device`. -/
def genDevice (g : Generator C A D V) (fuel : Nat) (_ : Device) (cTree : List (Woven C)) :
    Except String (List (Woven C) × Bool) := do
  let listGlobNode ← findGlobalCode g.session g.config
  if listGlobNode.isEmpty then return (cTree, false)
  else g.genGlobalCode fuel listGlobNode cTree

/-- `rtxFrontGen_iterate<"__block__">`, with the number of errors. -/
def iterate (g : Generator C A D V) (fuel : Nat) :
    List RootItem → List (Woven C) → Nat → Except String (List (Woven C) × Nat)
  | [], cTree, errcount => .ok (cTree, errcount)
  | .device theDevice :: items, cTree, errcount => do
    let (cTree, ok) ← g.genDevice fuel theDevice cTree
    g.iterate fuel items cTree (if ok then errcount else errcount + 1)
  | .config :: items, cTree, errcount => g.iterate fuel items cTree errcount
  | .other :: items, cTree, errcount => g.iterate fuel items cTree errcount

/-- How a generation ends that could not be completed. -/
def exit6 : String := "exit 6"

/-- `rtxFrontGenerate`: the C tree. -/
def frontGenerate (g : Generator C A D V) (fuel : Nat) (file : List RootItem) : Except String (List (Woven C)) := do
  let (cTree, errcount) ← g.iterate fuel file [] 0
  if errcount ≠ 0 then .error exit6 else return cTree

end Generator

end Rathaxes.Front
