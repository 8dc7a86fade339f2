import Rathaxes.Node.Back

/-!
# The generation pass

`passes/back/rtxGen.inc.cws`: every chunk, every with-block with global code and every type template
with its mapping is saved as a tree and as a resolution script. The pass writes the names of the two
files into the node. The names are put together from the hash of the enclosing template and the name
of the pointcut; for a with-block, whose hash is the fixed text `With`, a counter takes part.

The counter `uid` is passed by reference: whatever is generated below an item is counted. The driver
of `blt-register` starts it again at 0 for every item of the file, `rtxGenerate` lets it run on.
-/

set_option autoImplicit false

namespace Rathaxes.Back

/-! ## Names -/

/-- The base name `rtxGenScript<"__rtx_chunk__">` makes. -/
def chunkFile (tplHash scope name : String) (uid : Nat) : String :=
  let sContext := if tplHash = "With" then tplHash ++ "_" ++ toString uid else tplHash
  sContext ++ "_chunk_" ++ scope ++ "_" ++ name

/-- The base name `rtxGenScript<"__rtx_tpl_type_map__">` makes. A prototype has no attribute `name`,
so the scope and the name it reads there are empty. -/
def typeMapFile (tplHash : String) : String := tplHash ++ "_typemap_" ++ "" ++ "_" ++ ""

/-- `rtxGenInstanceKey<"__rtx_chunk__">`. -/
def chunkInstanceKey (tplHash : String) (c : Chunk) : String :=
  if c.pointcut.name.name.text = "CALL" then tplHash
  else tplHash ++ "_" ++ c.pointcut.name.scope.text ++ "::" ++ c.pointcut.name.name.text

/-- `rtxGenInstanceKey<"__rtx_with__">`, on the hash `rtxGenScript<"__rtx_with__">` gives. -/
def withInstanceKey (w : WithNode) : String := "With" ++ "_" ++ w.firstInterface.text

/-! ## Walkers -/

/-- `rtxGenScript<"__rtx_chunk__">` on a chunk. -/
def genScriptChunk (tplHash : String) (c : Chunk) (uid : Nat) : Chunk :=
  { c with
    files := Files.named
      (chunkFile tplHash c.pointcut.name.scope.text c.pointcut.name.name.text uid) }

/-- `rtxGenScript<"__rtx_with__">`: a with-block has no pointcut, whose scope and name read as empty
texts. -/
def genScriptWith (uid : Nat) : Files := Files.named (chunkFile "With" "" "" uid)

/-- The loop over the chunks of a template. -/
def genChunks (hash : String) : (uid : Nat) → List Chunk → List Chunk × Nat
  | uid, [] => ([], uid)
  | uid, c :: cs =>
    let (cs, uid') := genChunks hash (uid + 1) cs
    (genScriptChunk hash c uid :: cs, uid')

/-- Whether the template has a mapping to generate. -/
def isTypeTemplate (t : Template) : Bool := t.tplType = .type || t.tplType = .builtintype

/-- `rtxGen<"__rtx_tpl__">`. -/
def genTpl (t : Template) (uid : Nat) : Template × Nat :=
  let hash := t.prototype.rtxRTypeFullQualifiedName
  let (body, uid) := genChunks hash uid t.body
  if isTypeTemplate t then
    ({ t with body := body, files := Files.named (typeMapFile hash) }, uid + 1)
  else ({ t with body := body }, uid)

/-- The error of a node type the pass does not know. -/
def unknownType (T : String) : String := "unknown type for generation:" ++ T

mutual

/-- `rtxGen<T>`: the node with its file names, and the counter left. -/
def gen (uid : Nat) : Item → Except String (Item × Nat)
  | .withBlock w cBlock files body =>
    let files' := if cBlock.block.isEmpty then files else genScriptWith uid
    let uid' := if cBlock.block.isEmpty then uid else uid + 1
    match genBlock uid' body with
    | .error e => .error e
    | .ok (body, uid) => .ok (.withBlock w cBlock files' body, uid)
  | .tpl t => let (t, uid) := genTpl t uid; .ok (.tpl t, uid)
  | .chunk c => .ok (.chunk (genScriptChunk "" c uid), uid + 1)
  | .itf name => .ok (.itf name, uid)
  | .itfExtension _ => .error (unknownType "__rtx_itf_extension__")
  | .device => .ok (.device, uid)
  | .config => .ok (.config, uid)
  | .other T => .error (unknownType T)

/-- `rtxGen<"__block__">`. -/
def genBlock (uid : Nat) : List Item → Except String (List Item × Nat)
  | [] => .ok ([], uid)
  | item :: items =>
    match gen uid item with
    | .error e => .error e
    | .ok (item, uid) =>
      match genBlock uid items with
      | .error e => .error e
      | .ok (items, uid) => .ok (item :: items, uid)

end

/-- The loop of a driver over the items of a file; `restart` is what it does to the counter after
an item. -/
def genFile (restart : Nat → Nat) (uid : Nat) : List Item → Except String (List Item)
  | [] => .ok []
  | item :: items =>
    match gen uid item with
    | .error e => .error e
    | .ok (item, uid) =>
      match genFile restart (restart uid) items with
      | .error e => .error e
      | .ok items => .ok (item :: items)

/-- The generation as `blt-register` drives it: `local uid = 0` stands inside the loop. -/
def bltRegister (source : List Item) : Except String (List Item) := genFile (fun _ => 0) 0 source

/-- `rtxGenerate`, the other driver. -/
def rtxGenerate (source : List Item) : Except String (List Item) := genFile (· + 1) 0 source

end Rathaxes.Back
