import Rathaxes.Link.Query

/-!
# Merging two caches

`rtxLink_MergeCaches` of `linker/rtxLink_Session.inc.cws`. The second cache is copied into the first:
interfaces and global code as they are, templates one after the other with the chunks they refer to.
A template names its chunks by position in the arrays of its own cache, so the copy of a chunk gets a
new position and the copy of the template the new number. The order is that of the tables: sequence
templates before type templates, hash by hash.

The test `equalTrees(dst, cache1)` only avoids copying a tree onto itself: after it the destination is
the first cache. A reference to a chunk that the second cache does not have raises an error.
-/

set_option autoImplicit false

namespace Rathaxes.Link

open CodeWorker

/-- Assignment to one of the two tables of templates. -/
def Cache.setTable (cache : Cache) (table : TplTable) (buckets : Table (List CachedTemplate)) :
    Cache :=
  match table with
  | .sequences => { cache with sequences := buckets }
  | .types => { cache with types := buckets }

/-- Append to `cache.chunks[name]`. -/
def Cache.pushChunk (cache : Cache) (name : String) (theChunk : CachedChunk) : Cache :=
  { cache with chunks := pushUnder cache.chunks name theChunk }

/-! ## Interfaces -/

/-- The error of an interface defined in both caches. -/
def interfaceInBoth (name : String) : String :=
  "Cache merging error: The interface " ++ name ++ " exists in both caches !"

/-- One turn of the loop over the interfaces: a new one is copied, of a known one the extensions. -/
def mergeInterface (dst : Cache) (entry : String × CachedInterface) : Except String Cache :=
  match dst.interfaces.get? entry.1 with
  | none => .ok { dst with interfaces := dst.interfaces.set entry.1 entry.2 }
  | some itf =>
    if entry.2.treeFile.isSome then .error (interfaceInBoth entry.1)
    else
      let extended := { itf with extensions := itf.extensions ++ entry.2.extensions }
      .ok { dst with interfaces := dst.interfaces.set entry.1 extended }

/-! ## Templates -/

/-- One turn of the loop over a template's chunks: the chunk is copied, the template's copy gets its
new position. -/
def mergeChunk (source : Cache) (acc : Cache × CachedTemplate) (chunk : String × Nat) :
    Except String (Cache × CachedTemplate) := do
  let theChunk ← copyOf ("cache2.chunks[" ++ chunk.1 ++ "][" ++ toString chunk.2 ++ "]")
    (source.chunkAt chunk.1 chunk.2)
  let chunkId := (acc.1.chunkList chunk.1).length
  return (acc.1.pushChunk chunk.1 theChunk,
    { acc.2 with chunks := acc.2.chunks.set chunk.1 chunkId })

/-- The error of a template that the destination already has. -/
def mergeConflict : String :=
  "A conflict was detected during the merging of the global and local caches."

/-- One turn of the loop over the templates of a hash. -/
def mergeTpl (ignoreConflicts : Bool) (source : Cache) (table : TplTable) (hash : String)
    (dst : Cache) (tpl : CachedTemplate) : Except String Cache :=
  if checkTplConflict (dst.bucket table hash) tpl.withConfig = false ∨ ignoreConflicts = true then do
    let (dst, copy) ← tpl.chunks.entries.foldlM (mergeChunk source) (dst, tpl)
    return dst.setTable table (pushUnder (dst.table table) hash copy)
  else .error mergeConflict

/-- `insert dst.templates.types[tpl_hash]`, or the same for sequences, if it does not exist. -/
def Cache.ensureBucket (cache : Cache) (table : TplTable) (hash : String) : Cache :=
  cache.setTable table ((cache.table table).set hash (cache.bucket table hash))

/-- One turn of the loop over a table of templates. -/
def mergeBucket (ignoreConflicts : Bool) (source : Cache) (table : TplTable) (dst : Cache)
    (tpls : String × List CachedTemplate) : Except String Cache :=
  tpls.2.foldlM (mergeTpl ignoreConflicts source table tpls.1) (dst.ensureBucket table tpls.1)

/-- The loop over a table of templates. -/
def mergeTable (ignoreConflicts : Bool) (source : Cache) (table : TplTable) (dst : Cache) :
    Except String Cache :=
  (source.table table).entries.foldlM (mergeBucket ignoreConflicts source table) dst

/-- `rtxLink_MergeCaches`. -/
def mergeCaches (ignoreConflicts : Bool) (cache1 cache2 : Cache) : Except String Cache := do
  let dst ← cache2.interfaces.entries.foldlM mergeInterface cache1
  let dst := { dst with globalCode := dst.globalCode ++ cache2.globalCode }
  let dst ← mergeTable ignoreConflicts cache2 .sequences dst
  mergeTable ignoreConflicts cache2 .types dst

end Rathaxes.Link
