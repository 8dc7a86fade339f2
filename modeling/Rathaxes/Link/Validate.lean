import Rathaxes.CodeWorker.FileSystem
import Rathaxes.Link.Merge

/-!
# Moving the differential cache into the local one

`rtxLink_ValidateDiff` of `linker/rtxLink_Session.inc.cws`. The files that the entries of the
differential cache name stand in the working directory. They are copied into the local library, each
under a name made from the entry's place in the cache, and the entry is renamed; then the differential
cache is merged into the local one.

The two loops over templates walk over `templates.sequences` and `templates.types`, whose entries are
the arrays of the templates of one hash: it is such an array that is asked for a `script_file`, and it
has none. A file that cannot be copied makes the function return false; the files copied and the
entries renamed until then are not looked at any more, as the run ends with an error.
-/

set_option autoImplicit false

namespace Rathaxes.Link

open CodeWorker

/-- The paths and options the linker reads from `this`, and the functions of the interpreter that make
a file name: `computeMD5`, and `toString` of a with-node. -/
structure LinkEnv where
  backlibPath : String
  localBacklibPath : String
  computeMD5 : String → String
  withText : WithConfig → String
  ignoreConflicts : Bool

/-! ## One entry -/

/-- `rtxLink_ValidateItf`: the file is copied, and the entry gets the name it has from then on. -/
def validateItf (env : LinkEnv) (fs : FileSystem) (treeFile : String) :
    Option (FileSystem × String) := do
  let newFile := "interfaces/" ++ treeFile
  let fs ← fs.copyFile treeFile (env.localBacklibPath ++ newFile)
  return (fs, newFile)

/-- The name under which `rtxLink_ValidateFiles` stores the files of an entry. -/
def validName (env : LinkEnv) (theKey : String) (tmpWith : WithConfig) : String :=
  env.computeMD5 (theKey ++ "_" ++ env.withText tmpWith)

/-- `rtxLink_ValidateFiles`: both files are copied; their new names, the tree first. -/
def validateFiles (env : LinkEnv) (fs : FileSystem) (theKey : String) (tmpWith : WithConfig)
    (treeFile scriptFile : String) : Option (FileSystem × String × String) := do
  let filename := validName env theKey tmpWith
  let fs ← fs.copyFile treeFile (env.localBacklibPath ++ filename ++ ".tree")
  let fs ← fs.copyFile scriptFile (env.localBacklibPath ++ filename ++ ".cws")
  return (fs, filename ++ ".tree", filename ++ ".cws")

/-! ## The tables of the differential cache -/

/-- One turn of the loop over the extensions of an interface. -/
def validateExtension (env : LinkEnv) (fs : FileSystem) (ext : CachedExtension) :
    Option (FileSystem × CachedExtension) := do
  let (fs, treeFile) ← validateItf env fs ext.treeFile
  return (fs, { ext with treeFile := treeFile })

/-- One turn of the loop over the interfaces. The tree of an interface that is only extended is absent
and reads as the empty name. -/
def validateInterface (env : LinkEnv) (fs : FileSystem) (itf : CachedInterface) :
    Option (FileSystem × CachedInterface) := do
  let (fs, treeFile) ← validateItf env fs (itf.treeFile.getD "")
  let (fs, extensions) ← mapAccum (validateExtension env) fs itf.extensions
  return (fs, { itf with treeFile := some treeFile, extensions := extensions })

/-- The key of a piece of global code, from its position. -/
def globKey (i : Nat) : String := "glob_" ++ toString i

/-- One turn of the loop over the global code: the entry and its position. -/
def validateGlobalCode (env : LinkEnv) (fs : FileSystem) (glob : GlobalCode × Nat) :
    Option (FileSystem × GlobalCode) := do
  let (fs, treeFile, scriptFile) ← validateFiles env fs (globKey glob.2) glob.1.withConfig
    glob.1.treeFile glob.1.scriptFile
  return (fs, { glob.1 with treeFile := treeFile, scriptFile := scriptFile })

/-- The attribute `script_file`, and with it `tree_file`, of the array of the templates of one hash. -/
def hashNodeFiles (_tpls : List CachedTemplate) : Option MappingFiles := none

/-- One turn of the loops over `templates.sequences` and `templates.types`. -/
def validateHashNode (env : LinkEnv) (kind : String) (fs : FileSystem)
    (tpls : String × List CachedTemplate) : Option FileSystem :=
  match hashNodeFiles tpls.2 with
  | none => some fs
  | some files =>
    (validateFiles env fs (kind ++ tpls.1) Table.empty files.treeFile files.scriptFile).map Prod.fst

/-- The key of a chunk, from its template, its pointcut and its position there. -/
def chunkKey (tplId pointcut : String) (i : Nat) : String :=
  "chunk_" ++ tplId ++ "_" ++ pointcut ++ "_" ++ toString i

/-- One turn of the loop over the chunks of a pointcut: the entry and its position. -/
def validateChunk (env : LinkEnv) (pointcut : String) (fs : FileSystem) (chunk : CachedChunk × Nat) :
    Option (FileSystem × CachedChunk) := do
  let (fs, treeFile, scriptFile) ← validateFiles env fs (chunkKey chunk.1.tplId pointcut chunk.2)
    chunk.1.withConfig chunk.1.treeFile chunk.1.scriptFile
  return (fs, { chunk.1 with treeFile := treeFile, scriptFile := scriptFile })

/-- One turn of the loop over the pointcuts. -/
def validatePointcut (env : LinkEnv) (fs : FileSystem) (pointcut : String)
    (chunks : List CachedChunk) : Option (FileSystem × List CachedChunk) :=
  mapAccum (validateChunk env pointcut) fs chunks.zipIdx

/-! ## The whole cache -/

/-- The loops of `rtxLink_ValidateDiff`; `none` when one of them returns false. -/
def validateTemp (env : LinkEnv) (fs : FileSystem) (temp : Cache) : Option (FileSystem × Cache) := do
  let (fs, interfaces) ← temp.interfaces.mapAccum (fun fs _ itf => validateInterface env fs itf) fs
  let (fs, globalCode) ← mapAccum (validateGlobalCode env) fs temp.globalCode.zipIdx
  let fs ← temp.sequences.entries.foldlM (validateHashNode env "tpl_seq_") fs
  let fs ← temp.types.entries.foldlM (validateHashNode env "tpl_type_") fs
  let (fs, chunks) ← temp.chunks.mapAccum (validatePointcut env) fs
  return (fs, { temp with interfaces := interfaces, globalCode := globalCode, chunks := chunks })

/-- `rtxLink_ValidateDiff`: the files and the local cache it leaves; `none` when it returns false. -/
def validateDiff (env : LinkEnv) (fs : FileSystem) (temp cacheLocal : Cache) :
    Except String (Option (FileSystem × Cache)) :=
  match validateTemp env fs temp with
  | none => .ok none
  | some (fs, temp) => do
    let cacheLocal ← mergeCaches env.ignoreConflicts cacheLocal temp
    return some (fs, cacheLocal)

end Rathaxes.Link
