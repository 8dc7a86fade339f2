import Rathaxes.Back.Gen
import Rathaxes.Link.Query

/-!
# Loading cached items

`rtxLink_LoadItem` and the resolution scripts it loads. A cached item names two files: the tree of a
node, and the script that instantiates it. A script defines one specialisation of the global function
`instanceChunk`, under the instance key of the node it was generated for; a script loaded later with
the same key replaces it. A script is loaded once per cache entry, the tree every time.
-/

set_option autoImplicit false

namespace Rathaxes.Link

open CodeWorker Rathaxes.Back

/-! ## What the generation pass has saved -/

/-- A tree on disk: a chunk with the prototype of its template, if it has one, or a with-block. -/
inductive SavedTree where
  | chunk (tpl : Option RType) (theChunk : Chunk)
  | withBlock (node : WithNode)
deriving DecidableEq

/-- `tpl_hash` of a chunk: absent, hence empty, when the chunk stands alone. -/
def tplHash : Option RType → String
  | none => ""
  | some prototype => prototype.rtxRTypeFullQualifiedName

/-- The attribute `instanceKey` of a saved tree. -/
def SavedTree.instanceKey : SavedTree → String
  | .chunk tpl theChunk => chunkInstanceKey (tplHash tpl) theChunk
  | .withBlock node => withInstanceKey node

/-- A resolution script: the key it specialises `instanceChunk` with and the tree it was generated
for. -/
structure Script where
  key : String
  source : SavedTree
deriving DecidableEq

/-- The script `rtxGenFunction` generates for a tree. -/
def rtxGenFunction (tree : SavedTree) : Script := ⟨tree.instanceKey, tree⟩

/-- The files of one directory. -/
structure Library where
  tree : String → Option SavedTree
  script : String → Option Script

/-- Where `rtxLink_LoadItem` looks: the working directory, then the local library, which overloads
the global one. -/
structure SearchPath where
  working : Library
  localLib : Library
  backLib : Library
  localBacklibPath : String
  backlibPath : String

namespace SearchPath

/-- The tree a file name stands for. -/
def tree (p : SearchPath) (file : String) : Option SavedTree :=
  ((p.working.tree file).or (p.localLib.tree file)).or (p.backLib.tree file)

/-- The script a file name stands for. -/
def script (p : SearchPath) (file : String) : Option Script :=
  ((p.working.script file).or (p.localLib.script file)).or (p.backLib.script file)

/-- The error of a file that stands nowhere. -/
def inexistant (p : SearchPath) (file : String) : String :=
  "Cache Error: inexistant " ++ file ++ " in " ++ p.localBacklibPath ++ " nor " ++ p.backlibPath

end SearchPath

/-! ## Cache entries -/

/-- A cache entry that can be loaded. A method is matched by the with-node of its template. -/
inductive CacheEntry where
  | chunk (theChunk : CachedChunk)
  | method (tpl : CachedTemplate) (theMethod : CachedMethod)
  | globalCode (glob : GlobalCode)
deriving DecidableEq

namespace CacheEntry

/-- The constraints the entry is selected by. -/
def withConfig : CacheEntry → WithConfig
  | chunk theChunk => theChunk.withConfig
  | method tpl _ => tpl.withConfig
  | globalCode glob => glob.withConfig

/-- The entry's tree. -/
def treeFile : CacheEntry → String
  | chunk theChunk => theChunk.treeFile
  | method _ theMethod => theMethod.treeFile
  | globalCode glob => glob.treeFile

/-- The entry's script. -/
def scriptFile : CacheEntry → String
  | chunk theChunk => theChunk.scriptFile
  | method _ theMethod => theMethod.scriptFile
  | globalCode glob => glob.scriptFile

end CacheEntry

/-- The loadable entries of a session. -/
def Session.entries (s : Session) : List CacheEntry :=
  s.cache.chunks.entries.flatMap (fun bucket => bucket.2.map .chunk) ++
    s.cache.types.entries.flatMap (fun bucket =>
      bucket.2.flatMap fun tpl => tpl.methods.entries.map fun e => .method tpl e.2) ++
    s.cache.globalCode.map .globalCode

/-! ## Loading -/

/-- What loading changes: the `load` flags of the entries, by position, and the specialisations of
`instanceChunk` defined so far. -/
structure Loaded where
  flags : List Nat
  instances : Table Script

/-- Nothing loaded yet. -/
def Loaded.none : Loaded := ⟨[], Table.empty⟩

/-- `rtxLink_LoadItem` on the entry at a position: the new state and the tree. -/
def loadItem (p : SearchPath) (σ : Loaded) (position : Nat) (e : CacheEntry) :
    Except String (Loaded × SavedTree) :=
  match p.tree e.treeFile with
  | .none => .error (p.inexistant e.treeFile)
  | some tree =>
    if position ∈ σ.flags then .ok (σ, tree)
    else match p.script e.scriptFile with
      | .none => .error (p.inexistant e.scriptFile)
      | some script => .ok (⟨position :: σ.flags, σ.instances.set script.key script⟩, tree)

/-- A generation, as far as loading goes: entries are loaded in any order, some again. -/
def loadAll (p : SearchPath) (entries : List CacheEntry) :
    Loaded → List (Fin entries.length) → Except String Loaded
  | σ, [] => .ok σ
  | σ, i :: positions =>
    match loadItem p σ i.val (entries.get i) with
    | .error err => .error err
    | .ok (σ', _) => loadAll p entries σ' positions

/-- The script a call `instanceChunk<theTree.instanceKey>` runs. -/
def instanceChunk (σ : Loaded) (theTree : SavedTree) : Option Script :=
  σ.instances.get? theTree.instanceKey

end Rathaxes.Link
