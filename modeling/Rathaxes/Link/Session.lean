import Rathaxes.Node.Back

/-!
# The cache session

The state the linker keeps (`this.session`) and the registration of a back-end file into it
(`linker/rtxLink_Session.inc.cws`). Everything is written twice: into the session proper and into
`temp`, the differential cache that is saved at the end. Registration raises an error when an
interface is registered twice or extended before it is registered, hence the `Except`.

The arrays of the cache are only ever pushed onto, so they are lists here and an entry's key is its
position.
-/

set_option autoImplicit false

namespace Rathaxes.Link

open CodeWorker

/-- An entry of `session.global_code`. -/
structure GlobalCode where
  withConfig : WithConfig
  interfaces : Word
  scriptFile : String
  treeFile : String
deriving DecidableEq

/-- An entry of `session.chunks[name]`. -/
structure CachedChunk where
  name : String
  withConfig : WithConfig
  tplId : String
  scriptFile : String
  treeFile : String
deriving DecidableEq

/-- An entry of a cached template's `methods`. -/
structure CachedMethod where
  name : String
  scriptFile : String
  treeFile : String
deriving DecidableEq

/-- The attributes `script_file` and `tree_file` of a template with a mapping. -/
structure MappingFiles where
  scriptFile : String
  treeFile : String
deriving DecidableEq

/-- An entry of `session.templates.types[hash]` or `session.templates.sequences[hash]`. -/
structure CachedTemplate where
  withConfig : WithConfig
  rtype : RType
  decl : String
  chunks : Table Nat
  methods : Table CachedMethod
  mapping : Option MappingFiles
deriving DecidableEq

/-- An extension of a cached interface. -/
structure CachedExtension where
  withConfig : WithConfig
  treeFile : String
deriving DecidableEq

/-- An entry of `session.interfaces`. -/
structure CachedInterface where
  name : String
  treeFile : Option String
  extensions : List CachedExtension
deriving DecidableEq

/-- One cache tree. `templates` is the array of the node `templates` itself, beside its attributes
`sequences` and `types`. -/
structure Cache where
  globalCode : List GlobalCode
  templates : Table (List CachedTemplate)
  sequences : Table (List CachedTemplate)
  types : Table (List CachedTemplate)
  chunks : Table (List CachedChunk)
  interfaces : Table CachedInterface

namespace Cache

/-- The cache of a session that has registered nothing. -/
def empty : Cache := ⟨[], Table.empty, Table.empty, Table.empty, Table.empty, Table.empty⟩

end Cache

/-- `this.session`: the cache and its differential `temp`, with the option
`this.cache_conflicts == "ignore"`. -/
structure Session where
  cache : Cache
  temp : Cache
  ignoreConflicts : Bool

namespace Session

/-- The session `rtxLink_SessionRegister<"__root_block__">` creates. -/
def fresh (ignoreConflicts : Bool) : Session := ⟨Cache.empty, Cache.empty, ignoreConflicts⟩

/-- The loop `foreach cache in caches` of the registrations. -/
def updateBoth (s : Session) (f : Cache → Cache) : Session :=
  { s with cache := f s.cache, temp := f s.temp }

@[simp] theorem cache_updateBoth (s : Session) (f : Cache → Cache) :
    (s.updateBoth f).cache = f s.cache := rfl

end Session

/-! ## Chunks -/

/-- Append to the array under a key, which is created first when it is missing. -/
def pushUnder {α : Type} (t : Table (List α)) (k : String) (v : α) : Table (List α) :=
  t.set k ((t.get? k).getD [] ++ [v])

/-- The entry `rtxLink_SessionRegister<"__rtx_chunk__">` writes. `insert theChunk.with = with_values`
copies the value of the node and not its tree, so the chunk keeps no constraint. -/
def cachedChunk (c : Chunk) (hash : String) : CachedChunk where
  name := c.pointcut.rtxRTypeFullQualifiedName
  withConfig := Table.empty
  tplId := hash
  scriptFile := c.files.scriptFile
  treeFile := c.files.treeFile

/-- `rtxLink_SessionRegister<"__rtx_chunk__">` on one of the two caches. -/
def Cache.registerChunk (cache : Cache) (c : Chunk) (hash : String) : Cache :=
  { cache with
    chunks := pushUnder cache.chunks c.pointcut.rtxRTypeFullQualifiedName (cachedChunk c hash) }

/-- The id that registration gives the chunk: the number of chunks its pointcut already has. -/
def Cache.nextChunkId (cache : Cache) (c : Chunk) : Nat :=
  ((cache.chunks.get? c.pointcut.rtxRTypeFullQualifiedName).getD []).length

/-! ## Templates -/

/-- `rtxLink_CheckTplConflict`. -/
def checkTplConflict (tplList : List CachedTemplate) (withConfig : WithConfig) : Bool :=
  tplList.any fun tpl => tpl.withConfig = withConfig

/-- `rtxLink_CheckSingleTpl`: it searches the array of `session.templates`. -/
def checkSingleTpl (cache : Cache) (protoHash : String) (withValues : WithConfig) : Bool :=
  match cache.templates.get? protoHash with
  | some tpls => checkTplConflict tpls withValues
  | none => false

/-- One turn of the loop over a template's body that registers a chunk and remembers its id. -/
def registerTplChunk (hash : String) (acc : Cache × CachedTemplate) (c : Chunk) :
    Cache × CachedTemplate :=
  let name := c.pointcut.rtxRTypeFullQualifiedName
  (acc.1.registerChunk c hash, { acc.2 with chunks := acc.2.chunks.set name (acc.1.nextChunkId c) })

/-- One turn of the same loop for a type template: a decl is remembered by its pointcut, a method
stays with the template. -/
def registerTypeChunk (hash : String) (acc : Cache × CachedTemplate) (c : Chunk) :
    Cache × CachedTemplate :=
  let name := c.pointcut.rtxRTypeFullQualifiedName
  match c.chunkType with
  | .chunk => registerTplChunk hash acc c
  | .decl =>
    let (cache, tpl) := registerTplChunk hash acc c
    (cache, { tpl with decl := name })
  | .method =>
    let theMethod := ⟨name, c.files.scriptFile, c.files.treeFile⟩
    (acc.1, { acc.2 with methods := acc.2.methods.set name theMethod })

/-- The files of a type template, if it has a mapping. -/
def mappingFiles (t : Template) : Option MappingFiles :=
  if t.hasMapping then some ⟨t.files.scriptFile, t.files.treeFile⟩ else none

/-- The entry a template starts from. The files are recorded for type templates only. -/
def newTemplate (t : Template) (withValues : WithConfig) (mapping : Option MappingFiles) :
    CachedTemplate where
  withConfig := withValues
  rtype := t.prototype
  decl := ""
  chunks := Table.empty
  methods := Table.empty
  mapping := mapping

/-- `rtxLink_SessionRegisterTpl<"sequence">` on one of the two caches. -/
def Cache.registerSequence (cache : Cache) (t : Template) (withValues : WithConfig) : Cache :=
  let hash := t.prototype.rtxRTypeFullQualifiedName
  let (cache, tpl) := t.body.foldl (registerTplChunk hash) (cache, newTemplate t withValues none)
  { cache with sequences := pushUnder cache.sequences hash tpl }

/-- `rtxLink_SessionRegisterTpl<"type">` on one of the two caches. -/
def Cache.registerType (cache : Cache) (t : Template) (withValues : WithConfig) : Cache :=
  let hash := t.prototype.rtxRTypeFullQualifiedName
  let (cache, tpl) := t.body.foldl (registerTypeChunk hash)
    (cache, newTemplate t withValues (mappingFiles t))
  { cache with types := pushUnder cache.types hash tpl }

/-- `rtxLink_SessionRegister<"__rtx_tpl__">`. -/
def registerTpl (s : Session) (t : Template) (withValues : WithConfig) : Session :=
  if checkSingleTpl s.cache t.prototype.rtxRTypeFullQualifiedName withValues then s
  else match t.tplType with
    | .sequence => s.updateBoth fun cache => cache.registerSequence t withValues
    | .type => s.updateBoth fun cache => cache.registerType t withValues
    | .builtintype => s.updateBoth fun cache => cache.registerType t withValues

/-! ## Interfaces -/

/-- `rtxLink_SessionRegister<"__rtx_itf__">`. -/
def registerItf (s : Session) (itfName : String) : Except String Session :=
  if s.cache.interfaces.has itfName then
    if s.ignoreConflicts then .ok s
    else .error ("The interface " ++ itfName ++ " is already registered within the cache !")
  else
    let itf : CachedInterface := ⟨itfName, some (itfName ++ ".tree"), []⟩
    .ok (s.updateBoth fun cache => { cache with interfaces := cache.interfaces.set itfName itf })

/-- `rtxLink_SessionRegister<"__rtx_itf_extension__">`. The differential cache may have no entry for
the interface yet; pushing onto its extensions then creates one without a tree. -/
def registerItfExtension (s : Session) (itfName : String) (withValues : WithConfig) :
    Except String Session :=
  match s.cache.interfaces.get? itfName with
  | none => .error ("The interface " ++ itfName ++ " must be registered already to be extended !")
  | some itf =>
    let ext : CachedExtension :=
      ⟨withValues, itfName ++ "_ext_" ++ toString itf.extensions.length ++ ".tree"⟩
    .ok (s.updateBoth fun cache =>
      let itf := (cache.interfaces.get? itfName).getD ⟨"", none, []⟩
      let extended := { itf with extensions := itf.extensions ++ [ext] }
      { cache with interfaces := cache.interfaces.set itfName extended })

/-! ## With-blocks -/

/-- The test that a block was registered before: an entry of the same first interface. -/
def globalCodeRegistered (cache : Cache) (w : WithNode) : Bool :=
  cache.globalCode.any fun glob => w.firstInterface = glob.interfaces

/-- The entry a with-block with global code leaves. -/
def globalCodeEntry (w : WithNode) (files : Files) : GlobalCode where
  withConfig := w.buildFromConstraints.config
  interfaces := w.firstInterface
  scriptFile := files.scriptFile
  treeFile := files.treeFile

/-- The first part of `rtxLink_SessionRegister<"__rtx_with__">`: the C block of the with-block. -/
def registerGlobalCode (s : Session) (w : WithNode) (cBlock : CBlock) (files : Files) : Session :=
  if cBlock.block.isEmpty then s
  else if globalCodeRegistered s.cache w then s
  else s.updateBoth fun cache =>
    { cache with globalCode := cache.globalCode ++ [globalCodeEntry w files] }

mutual

/-- `rtxLink_SessionRegister<T>`. -/
def sessionRegister (s : Session) (withValues : WithConfig) : Item → Except String Session
  | .withBlock w cBlock files body =>
    sessionRegisterAll (registerGlobalCode s w cBlock files) w.buildFromConstraints.config body
  | .tpl t => .ok (registerTpl s t withValues)
  | .chunk c => .ok (s.updateBoth fun cache => cache.registerChunk c "")
  | .itf name => registerItf s name
  | .itfExtension name => registerItfExtension s name withValues
  | .device => .ok s
  | .config => .ok s
  | .other T => .error ("rtxLink:<ERROR> Registration not implemented for node type " ++ T)

/-- The loop over the items of a with-block or of a file. -/
def sessionRegisterAll (s : Session) (withValues : WithConfig) : List Item → Except String Session
  | [] => .ok s
  | item :: items =>
    match sessionRegister s withValues item with
    | .error e => .error e
    | .ok s' => sessionRegisterAll s' withValues items

end

end Rathaxes.Link
