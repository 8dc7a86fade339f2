import Rathaxes.Link.Validate

/-!
# Loading, saving and installing caches

`rtxLink_LoadCache`, `rtxLink_SaveCache` and `rtxLink_InstallLocalCache` of
`linker/rtxLink_Session.inc.cws`, for a run of the compiler that starts with nothing in memory. The two
cache files are kept apart from the files of the libraries: a `Disk` has the libraries and, for each of
the two caches, what the file holds or that there is none.

A cache file that is missing raises an error when it is loaded. For the global cache the error is
caught on the spot; for the local cache it ends the function before anything is merged.
-/

set_option autoImplicit false

namespace Rathaxes.Link

open CodeWorker

/-- The libraries and the two cache files. -/
structure Disk where
  files : FileSystem
  cacheGlobal : Option Cache
  cacheLocal : Option Cache

/-- What a run holds in memory: `this.caches` and `this.session`. -/
structure Linker where
  cacheGlobal : Cache
  cacheLocal : Cache
  session : Session

/-- `rtxLink_LoadCache` in a new run, with the value it returns. A cache that was not loaded is an
empty node. -/
def loadCache (env : LinkEnv) (disk : Disk) : Except String (Bool × Linker) :=
  let cacheGlobal := disk.cacheGlobal.getD Cache.empty
  match disk.cacheLocal with
  | none => .ok (false, ⟨cacheGlobal, Cache.empty, Session.fresh env.ignoreConflicts⟩)
  | some cacheLocal => do
    let merged ← mergeCaches env.ignoreConflicts cacheGlobal cacheLocal
    return (true, ⟨cacheGlobal, cacheLocal, ⟨merged, Cache.empty, env.ignoreConflicts⟩⟩)

/-- `rtxLink_SaveCache(local_only_flag)`; `none` when it returns false. -/
def saveCache (env : LinkEnv) (disk : Disk) (st : Linker) (localOnlyFlag : Bool) :
    Except String (Option Disk) := do
  match ← validateDiff env disk.files st.session.temp st.cacheLocal with
  | none => return none
  | some (files, cacheLocal) =>
    return some ⟨files, if localOnlyFlag then disk.cacheGlobal else some st.cacheGlobal,
      some cacheLocal⟩

/-! ## Installation -/

/-- The error of a copy that fails. -/
def copyFailed (source : String) : String := "copyFile: cannot copy " ++ source

/-- A copy followed by the removal of the source. -/
def moveFile (fs : FileSystem) (source destination : String) : Except String FileSystem :=
  match fs.copyFile source destination with
  | none => .error (copyFailed source)
  | some fs => .ok (fs.deleteFile source)

/-- `rtxLink_InstallItem`, on the two attributes it looks at. Both times it is the script that is
moved; where there is none, its name reads as the empty text. -/
def installItem (env : LinkEnv) (itfFlag : Bool) (scriptFile treeFile : Option String)
    (fs : FileSystem) : Except String FileSystem := do
  let localPath := if itfFlag then env.localBacklibPath ++ "interfaces/" else env.localBacklibPath
  let globPath := if itfFlag then env.backlibPath ++ "interfaces/" else env.backlibPath
  let script := scriptFile.getD ""
  let fs ← if scriptFile.isSome then moveFile fs (localPath ++ script) (globPath ++ script) else pure fs
  if treeFile.isSome then moveFile fs (localPath ++ script) (globPath ++ script) else pure fs

/-- The loop over the interfaces, with their extensions. -/
def installInterface (env : LinkEnv) (fs : FileSystem) (itf : String × CachedInterface) :
    Except String FileSystem := do
  let fs ← installItem env true none itf.2.treeFile fs
  itf.2.extensions.foldlM (fun fs ext => installItem env true none (some ext.treeFile) fs) fs

/-- The loops over the templates of a table, hash by hash. -/
def installTemplates (env : LinkEnv) (fs : FileSystem) (tplList : String × List CachedTemplate) :
    Except String FileSystem :=
  tplList.2.foldlM (fun fs tpl => installItem env false (tpl.mapping.map MappingFiles.scriptFile)
    (tpl.mapping.map MappingFiles.treeFile) fs) fs

/-- The loops over the chunks, pointcut by pointcut. -/
def installChunks (env : LinkEnv) (fs : FileSystem) (chunkList : String × List CachedChunk) :
    Except String FileSystem :=
  chunkList.2.foldlM (fun fs chunk => installItem env false (some chunk.scriptFile)
    (some chunk.treeFile) fs) fs

/-- The attribute `glob` of a cache, which no function creates: the pieces of global code are kept
under `global_code`. -/
def Cache.glob (_cache : Cache) : List GlobalCode := []

/-- The loops of `rtxLink_InstallLocalCache`. -/
def installFiles (env : LinkEnv) (fs : FileSystem) (cacheLocal : Cache) : Except String FileSystem := do
  let fs ← cacheLocal.interfaces.entries.foldlM (installInterface env) fs
  let fs ← cacheLocal.glob.foldlM (fun fs glob => installItem env false (some glob.scriptFile)
    (some glob.treeFile) fs) fs
  let fs ← cacheLocal.sequences.entries.foldlM (installTemplates env) fs
  let fs ← cacheLocal.types.entries.foldlM (installTemplates env) fs
  cacheLocal.chunks.entries.foldlM (installChunks env) fs

/-- `rtxLink_InstallLocalCache` in a new run. What `rtxLink_SaveCache` returns at its end is not looked
at: when it returns false nothing has been saved. -/
def installLocalCache (env : LinkEnv) (disk : Disk) : Except String Disk := do
  let (_, st) ← loadCache env disk
  let files ← installFiles env disk.files st.cacheLocal
  let newCache ← mergeCaches env.ignoreConflicts st.cacheGlobal st.cacheLocal
  let installed : Linker := { st with cacheGlobal := newCache, cacheLocal := Cache.empty }
  match ← saveCache env { disk with files := files } installed false with
  | none => return { disk with files := files }
  | some disk => return disk

end Rathaxes.Link
