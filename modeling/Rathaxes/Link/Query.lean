import Rathaxes.Link.ConfigMatcher
import Rathaxes.Link.Session

/-!
# Queries on the cache

`linker/rtxLink_Query.inc.cws`: what the resolver asks the session for. A query filters cached
entries by the configuration of the generation; a comparison that raises an error ends the whole
query, hence the `Except`.

References into the session are positions: which of the two template tables, the hash, the key.
-/

set_option autoImplicit false

namespace Rathaxes.Link

open CodeWorker

/-! ## Filtering by the configuration -/

/-- The loops that match entries against a configuration one after the other: the entries whose
match answers `wanted`, in order. -/
def collect {α : Type} (withOf : α → WithConfig) (config : Config) (wanted : Bool) :
    List α → Except String (List α)
  | [] => .ok []
  | item :: items =>
    match isWithNodeCompatible (withOf item) config with
    | .error e => .error e
    | .ok verdict =>
      match collect withOf config wanted items with
      | .error e => .error e
      | .ok collected => .ok (if verdict = wanted then item :: collected else collected)

/-! ## Global code -/

/-- `rtxLink_findGlobalCode`. The list it fills; it returns true when the list is not empty. -/
def findGlobalCode (s : Session) (withValues : Config) : Except String (List GlobalCode) :=
  collect GlobalCode.withConfig withValues true s.cache.globalCode

/-! ## Chunks -/

/-- `rtxLink_findChunks`: the chunks filed under the full name of a pointcut. -/
def findChunks (s : Session) (pointcutProto : String) : List CachedChunk :=
  (s.cache.chunks.get? pointcutProto).getD []

/-- `cache.chunks[name]`, empty when there is no such key. -/
def Cache.chunkList (cache : Cache) (name : String) : List CachedChunk :=
  (cache.chunks.get? name).getD []

/-- `cache.chunks[name][id]`. -/
def Cache.chunkAt (cache : Cache) (name : String) (id : Nat) : Option CachedChunk :=
  (cache.chunkList name)[id]?

/-- The error of a template whose chunk the cache does not have. -/
def missingChunk (theTemplate : CachedTemplate) (chunkName : String) : String :=
  "rtxLink:<ERROR> The chunk '" ++ chunkName ++ "' associated to the template " ++
    theTemplate.rtype.rtxRTypeName ++ " could not be found within the cache."

/-- `rtxLink_selectChunkFromTemplate`; `none` when it returns false. -/
def selectChunkFromTemplate (cache : Cache) (theTemplate : CachedTemplate) (chunkName : String) :
    Except String (Option CachedChunk) :=
  match theTemplate.chunks.get? chunkName with
  | none => .ok none
  | some id =>
    match cache.chunkAt chunkName id with
    | none => .error (missingChunk theTemplate chunkName)
    | some theChunk => .ok (some theChunk)

/-- `rtxLink_selectCompatibleChunks`. It returns true when the list left is not empty. -/
def selectCompatibleChunks (chunks : List CachedChunk) (config : Config) :
    Except String (List CachedChunk) :=
  collect CachedChunk.withConfig config true chunks

/-! ## Templates -/

/-- Which of the two tables of `session.templates`. -/
inductive TplTable where
  | sequences
  | types
deriving DecidableEq

/-- The attribute of `session.templates` it is. -/
def TplTable.text : TplTable → String
  | .sequences => "sequences"
  | .types => "types"

/-- The `specifier` of a template search. -/
inductive Specifier where
  | sequence
  | type
  | unknown
deriving DecidableEq

/-- The copies `rtxLink_findTemplates` makes of the templates of one hash. -/
structure FoundTemplates where
  sequences : Table CachedTemplate
  types : Table CachedTemplate

/-- The search in one of the two tables, which the specifier may leave out. -/
def searchTable (searched : Bool) (buckets : Table (List CachedTemplate)) (hash : String) :
    Option (List CachedTemplate) :=
  if searched then buckets.get? hash else some []

/-- `rtxLink_findTemplates`; `none` when it returns false. -/
def findTemplates (s : Session) (theRtype : RType) (specifier : Specifier) :
    Option FoundTemplates := do
  let hash := theRtype.rtxRTypeFullQualifiedName
  let sequences ← searchTable (specifier ≠ .type) s.cache.sequences hash
  let types ← searchTable (specifier ≠ .sequence) s.cache.types hash
  return ⟨Table.ofList sequences, Table.ofList types⟩

/-- `cache.templates.sequences` or `cache.templates.types`. -/
def Cache.table (cache : Cache) : TplTable → Table (List CachedTemplate)
  | .sequences => cache.sequences
  | .types => cache.types

/-- The templates of one hash, none when there is no such key. -/
def Cache.bucket (cache : Cache) (table : TplTable) (hash : String) : List CachedTemplate :=
  ((cache.table table).get? hash).getD []

/-- A reference into `session.templates`. -/
structure TplRef where
  table : TplTable
  hash : String
  cacheIdx : String
deriving DecidableEq

/-- What a reference points at. -/
def Session.deref (s : Session) (r : TplRef) : Option CachedTemplate :=
  let buckets := match r.table with
    | .sequences => s.cache.sequences
    | .types => s.cache.types
  (buckets.get? r.hash).bind fun tpls => (Table.ofList tpls).get? r.cacheIdx

/-- The first loops of `rtxLink_selectUniqueTemplate`: the keys of the incompatible copies. -/
def keysToRemove (config : Config) (templates : Table CachedTemplate) :
    Except String (List String) :=
  (collect (fun e => e.2.withConfig) config false templates.entries).map (List.map Prod.fst)

/-- The copy of `templates.sequences[0]` or `templates.types[0]`, then its `hash` and `cache_idx`: a template that
survived carries its hash and the key it was found under. -/
def tempOf (table : TplTable) (survivors : Table CachedTemplate) : Except String TplRef := do
  let temp ← copyOf ("templates." ++ table.text ++ "[0]") (survivors.get? "0")
  return ⟨table, temp.rtype.rtxRTypeFullQualifiedName, "0"⟩

/-- The end of `rtxLink_selectUniqueTemplate`, on the tables left: check the number of results and
turn the array into a reference. -/
def refSurvivor (sequences types : Table CachedTemplate) : Except String (Option TplRef) :=
  if sequences.size + types.size ≠ 1 then .ok none
  else if sequences.size ≠ 0 then (tempOf .sequences sequences).map some
  else (tempOf .types types).map some

/-- `rtxLink_selectUniqueTemplate`; `none` when it returns false, otherwise the reference it leaves
in `templates`. -/
def selectUniqueTemplate (templates : FoundTemplates) (config : Config) :
    Except String (Option TplRef) := do
  let sequenceKeys ← keysToRemove config templates.sequences
  let typeKeys ← keysToRemove config templates.types
  refSurvivor (sequenceKeys.foldl Table.remove templates.sequences)
    (typeKeys.foldl Table.remove templates.types)

/-- `rtxLink_FindUniqueTemplate`; `none` when it returns false. -/
def findUniqueTemplate (s : Session) (tplRtype : RType) (config : Config) : Except String (Option TplRef) :=
  match findTemplates s tplRtype .type with
  | none => .ok none
  | some templates => selectUniqueTemplate templates config

/-! ## Chunks of templates -/

/-- The chunk `rtxLink_LoadTplChunk` loads; `none` when it returns false. A reference that leads nowhere is an empty
template, which has no chunks. -/
def tplChunk (s : Session) (tplRtype : RType) (chunkProto : String) (config : Config) (specifier : Specifier) :
    Except String (Option CachedChunk) :=
  match findTemplates s tplRtype specifier with
  | none => .ok none
  | some templates => do
    match ← selectUniqueTemplate templates config with
    | none => return none
    | some r =>
      match s.deref r with
      | none => return none
      | some theTemplate => selectChunkFromTemplate s.cache theTemplate chunkProto

/-- The error of a template that has no methods. -/
def notTypeTemplate (tplRtype : RType) (methodProto : String) : String :=
  "[Error] rtxLink_LoadTypeMethod: Template " ++ tplRtype.rtxRTypeName ++
    " is not a Type template: Cannot load method " ++ methodProto ++ "."

/-- The error of a type template without the method. -/
def unknownMethod (tplRtype : RType) (methodProto : String) : String :=
  "[Error] rtxLink_LoadTypeMethod: Template " ++ tplRtype.rtxRTypeName ++
    " does not contain the method " ++ methodProto ++ "."

/-- The method `rtxLink_LoadTypeMethod` loads; `none` when it returns false. -/
def typeMethod (s : Session) (tplRtype : RType) (methodProto : String) (config : Config) :
    Except String (Option CachedMethod) :=
  match findTemplates s tplRtype .type with
  | none => .ok none
  | some templates => do
    match ← selectUniqueTemplate templates config with
    | none => return none
    | some r =>
      match s.deref r with
      | none => .error (notTypeTemplate tplRtype methodProto)
      | some theTemplate =>
        match theTemplate.methods.get? methodProto with
        | none => .error (unknownMethod tplRtype methodProto)
        | some theMethod => return some theMethod

end Rathaxes.Link
