import Rathaxes.Laws.MergeTotal
import Rathaxes.Laws.StoredNames
import Rathaxes.Link.Install

/-!
# Caches on disk

What a run finds when it loads the two caches, and what an installation of the local cache leaves.

Loading returns before the merge when there is no local cache, so the global one is then not seen
(`loadCache_visible_iff`). An installation moves the script of an entry where it should move the tree:
the first entry with a file to move ends it with an error, and the files it does not look at, those of
the global code and of methods, stay in the local library (`installLocalCache_iff`).
-/

set_option autoImplicit false

namespace Rathaxes.Link

open CodeWorker

variable {env : LinkEnv} {disk : Disk}

/-- The global cache, empty when there is no file. -/
def Disk.globalCache (disk : Disk) : Cache := disk.cacheGlobal.getD Cache.empty

/-- The local cache, empty when there is no file. -/
def Disk.localCache (disk : Disk) : Cache := disk.cacheLocal.getD Cache.empty

theorem Disk.localCache_of_none (h : disk.cacheLocal = none) : disk.localCache = Cache.empty := by
  unfold Disk.localCache
  rw [h]
  rfl

/-! ## Loading -/

/-- The state after loading: the caches, a new differential cache, and the session. -/
theorem loadCache_ok {b : Bool} {st : Linker} (h : loadCache env disk = .ok (b, st)) :
    st.cacheGlobal = disk.globalCache ∧ st.cacheLocal = disk.localCache ∧
      st.session.temp = Cache.empty ∧
      (disk.cacheLocal = none ∧ st.session.cache = Cache.empty ∨
        disk.cacheLocal.isSome ∧ mergeCaches env.ignoreConflicts disk.globalCache disk.localCache =
          .ok st.session.cache) := by
  unfold loadCache at h
  unfold Disk.localCache
  cases hlocal : disk.cacheLocal with
  | none =>
    rw [hlocal] at h
    cases h
    exact ⟨rfl, rfl, rfl, Or.inl ⟨rfl, rfl⟩⟩
  | some cacheLocal =>
    rw [hlocal] at h
    obtain ⟨merged, hmerge, h⟩ := bind_eq_ok_iff.1 h
    cases h
    exact ⟨rfl, rfl, rfl, Or.inr ⟨rfl, hmerge⟩⟩

/-- Loading finishes when there is no local cache, or the merge finishes. -/
theorem loadCache_exists (h : disk.cacheLocal.isSome →
      ∃ merged, mergeCaches env.ignoreConflicts disk.globalCache disk.localCache = .ok merged) :
    ∃ b st, loadCache env disk = .ok (b, st) := by
  unfold Disk.localCache at h
  unfold loadCache
  cases hlocal : disk.cacheLocal with
  | none => exact ⟨_, _, rfl⟩
  | some cacheLocal =>
    rw [hlocal] at h
    obtain ⟨merged, hmerge⟩ := h rfl
    exact ⟨_, _, bind_eq_ok_iff.2 ⟨merged, hmerge, rfl⟩⟩

/-! ## What is visible -/

/-- Everything in a cache is in another: interfaces with their extensions, global code, templates (the
numbers of their chunks apart) and chunks. -/
structure Visible (source cache : Cache) : Prop where
  interfaces : ∀ name itf, source.interfaces.get? name = some itf →
    ∃ itf', cache.interfaces.get? name = some itf' ∧
      (itf.treeFile.isSome → itf'.treeFile = itf.treeFile) ∧ itf.extensions ⊆ itf'.extensions
  globalCode : source.globalCode ⊆ cache.globalCode
  templates : ∀ table hash, ∀ tpl ∈ source.bucket table hash,
    ∃ refs, { tpl with chunks := refs } ∈ cache.bucket table hash
  chunks : ∀ name, source.chunkList name ⊆ cache.chunkList name

/-- What is merged into an interface only extends it. -/
theorem exists_mergedInterface (itf : CachedInterface) (new : Option CachedInterface) :
    ∃ itf', mergedInterface (some itf) new = some itf' ∧ (itf.treeFile.isSome → itf'.treeFile = itf.treeFile) ∧
      itf.extensions ⊆ itf'.extensions := by
  cases new with
  | none => exact ⟨itf, rfl, fun _ => rfl, List.Subset.refl _⟩
  | some new => exact ⟨_, rfl, fun _ => rfl, List.subset_append_left _ _⟩

/-- A merge keeps the first cache. -/
theorem MergeOf.visible_first {cache1 cache2 dst : Cache} (h : MergeOf cache1 cache2 dst) :
    Visible cache1 dst := by
  constructor
  case interfaces =>
    intro name itf hget
    rw [h.interfaces, hget]
    exact exists_mergedInterface itf _
  case globalCode =>
    rw [h.globalCode]
    exact List.subset_append_left _ _
  case templates =>
    intro table hash tpl htpl
    obtain ⟨copies, hbucket, -⟩ := h.buckets table hash
    rw [hbucket]
    exact ⟨tpl.chunks, List.mem_append_left copies htpl⟩
  case chunks =>
    intro name
    rw [h.chunks]
    exact List.subset_append_left _ _

/-- A template of the second cache is in the merged one, up to the numbers of its chunks. -/
theorem MergeOf.exists_copy {cache1 cache2 dst : Cache} (h : MergeOf cache1 cache2 dst)
    {table : TplTable} {hash : String} {tpl : CachedTemplate} (htpl : tpl ∈ cache2.bucket table hash) :
    ∃ refs, { tpl with chunks := refs } ∈ dst.bucket table hash := by
  obtain ⟨copies, hbucket, hcopies⟩ := h.buckets table hash
  obtain ⟨copy, hmem, hcopy⟩ := exists_right_of_forall₂ hcopies htpl
  obtain ⟨refs, rfl⟩ := hcopy.template
  rw [hbucket]
  exact ⟨refs, List.mem_append_right _ hmem⟩

/-- A merge keeps the second cache, if it keeps its chunks. -/
theorem MergeOf.visible_second {cache1 cache2 dst : Cache} (h : MergeOf cache1 cache2 dst)
    (hchunks : ∀ name, cache2.chunkList name ⊆ dst.chunkList name) : Visible cache2 dst := by
  constructor
  case interfaces =>
    intro name itf hget
    rw [h.interfaces, hget]
    cases hold : cache1.interfaces.get? name with
    | none => exact ⟨itf, rfl, fun _ => rfl, List.Subset.refl _⟩
    | some old =>
      -- an interface that was known has no tree of its own
      have htree : itf.treeFile = none := h.agree (name, itf)
        ((cache2.interfaces.mem_entries_iff name itf).2 hget) (by rw [hold]; rfl)
      refine ⟨_, rfl, fun hsome => ?_, List.subset_append_right _ _⟩
      rw [htree] at hsome
      cases hsome
  case globalCode =>
    rw [h.globalCode]
    exact List.subset_append_right _ _
  case templates => exact fun table hash tpl htpl => h.exists_copy htpl
  case chunks => exact hchunks

/-- A cache without entries. -/
structure NoEntries (cache : Cache) : Prop where
  interfaces : ∀ name, cache.interfaces.get? name = none
  globalCode : cache.globalCode = []
  templates : ∀ table hash, cache.bucket table hash = []
  chunks : ∀ name, cache.chunkList name = []

theorem bucket_empty (table : TplTable) (hash : String) : Cache.empty.bucket table hash = [] := by
  cases table <;> rfl

theorem noEntries_empty : NoEntries Cache.empty where
  interfaces _ := rfl
  globalCode := rfl
  templates := bucket_empty
  chunks _ := rfl

/-- Nothing has to be there for a cache without entries. -/
theorem NoEntries.visible {cache : Cache} (h : NoEntries cache) (dst : Cache) : Visible cache dst := by
  constructor
  case interfaces =>
    intro name itf hget
    rw [h.interfaces name] at hget
    cases hget
  case globalCode =>
    rw [h.globalCode]
    exact List.nil_subset _
  case templates =>
    intro table hash tpl htpl
    rw [h.templates] at htpl
    cases htpl
  case chunks =>
    intro name
    rw [h.chunks]
    exact List.nil_subset _

/-- A cache file that is missing is as good as an empty cache. -/
theorem visible_getD_iff {file : Option Cache} {dst : Cache} :
    (∀ cache, file = some cache → Visible cache dst) ↔ Visible (file.getD Cache.empty) dst := by
  cases file with
  | none => exact ⟨fun _ => noEntries_empty.visible dst, fun _ cache h => (nomatch h)⟩
  | some cache =>
    constructor
    · intro h
      exact h cache rfl
    · rintro h _ ⟨⟩
      exact h

theorem visible_empty_iff {cache : Cache} : Visible cache Cache.empty ↔ NoEntries cache := by
  constructor
  · intro h
    constructor
    case interfaces =>
      intro name
      cases hget : cache.interfaces.get? name with
      | none => rfl
      | some itf =>
        obtain ⟨itf', hsome, -⟩ := h.interfaces name itf hget
        cases hsome
    case globalCode => exact List.eq_nil_of_subset_nil h.globalCode
    case templates =>
      intro table hash
      rw [List.eq_nil_iff_forall_not_mem]
      intro tpl htpl
      obtain ⟨refs, hmem⟩ := h.templates table hash tpl htpl
      rw [bucket_empty] at hmem
      cases hmem
    case chunks => exact fun name => List.eq_nil_of_subset_nil (h.chunks name)
  · intro h
    exact h.visible _

/-- The two caches do not conflict: no interface is defined in both, and no template of the local one
meets one of its hash and with-node, unless conflicts are ignored. -/
structure NoConflict (env : LinkEnv) (disk : Disk) : Prop where
  interfaces : InterfacesAgree disk.globalCache disk.localCache.interfaces.entries
  templates : ∀ table hash, ConflictFree env.ignoreConflicts (disk.globalCache.bucket table hash)
    (disk.localCache.bucket table hash)

/-- **What a loading run sees**: everything in the cache files that are present, exactly when the local
one is, or else the global one has nothing, and every chunk of the local one belongs to a template or is
in the global one too. -/
theorem loadCache_visible_iff (hconflict : NoConflict env disk) :
    (∃ b st, loadCache env disk = .ok (b, st) ∧
      (∀ cache, disk.cacheGlobal = some cache → Visible cache st.session.cache) ∧
      ∀ cache, disk.cacheLocal = some cache → Visible cache st.session.cache) ↔
    (disk.cacheLocal = none → NoEntries disk.globalCache) ∧ WellReferenced disk.localCache ∧
      ∀ name, ∀ c ∈ disk.localCache.chunkList name, c ∈ disk.globalCache.chunkList name ∨
        ∃ table hash, ∃ tpl ∈ disk.localCache.bucket table hash,
          c ∈ contribution disk.localCache tpl name := by
  simp only [visible_getD_iff]
  change (∃ b st, _ ∧ Visible disk.globalCache _ ∧ Visible disk.localCache _) ↔ _
  constructor
  · rintro ⟨b, st, hload, hglobal, hlocal⟩
    obtain ⟨-, -, -, ⟨hnone, hcache⟩ | ⟨hsome, hmerge⟩⟩ := loadCache_ok hload
    · -- the session is empty, and so is what the run takes for the local cache
      rw [hcache] at hglobal
      rw [Disk.localCache_of_none hnone]
      exact ⟨fun _ => visible_empty_iff.1 hglobal, by decide, fun name c hc => (nomatch hc)⟩
    · refine ⟨fun hnone => ?_, (mergeCaches_exists_iff.1 ⟨_, hmerge⟩).2.1, fun name c hc => ?_⟩
      · rw [hnone] at hsome
        cases hsome
      · exact (mergeOf_mergeCaches hmerge).mem_chunkList.1 (hlocal.chunks name hc)
  · rintro ⟨hnone, hrefs, hchunks⟩
    have hmerge := mergeCaches_exists_iff.2 ⟨hconflict.interfaces, hrefs, hconflict.templates⟩
    obtain ⟨b, st, hload⟩ := loadCache_exists fun _ => hmerge
    refine ⟨b, st, hload, ?_⟩
    obtain ⟨-, -, -, ⟨hlocal, hcache⟩ | ⟨-, hmerge⟩⟩ := loadCache_ok hload
    · rw [Disk.localCache_of_none hlocal]
      exact ⟨(hnone hlocal).visible _, noEntries_empty.visible _⟩
    · have hmerged := mergeOf_mergeCaches hmerge
      refine ⟨hmerged.visible_first, hmerged.visible_second fun name c hc => ?_⟩
      exact hmerged.mem_chunkList.2 (hchunks name c hc)

/-- The template `Open()` in the global cache and `Close()` in the local one. -/
def twoCaches : Disk := ⟨.ofFiles [], some (initCache ⟨"Open", .refl true⟩), some (initCache ⟨"Close", .refl true⟩)⟩

theorem loadCache_visible_two : ∃ b st, loadCache libEnv twoCaches = .ok (b, st) ∧
    (∀ cache, twoCaches.cacheGlobal = some cache → Visible cache st.session.cache) ∧
      ∀ cache, twoCaches.cacheLocal = some cache → Visible cache st.session.cache := by
  obtain ⟨hagree, hrefs, hfree⟩ := mergeCaches_exists_iff.1 (show ∃ dst,
    mergeCaches false (initCache ⟨"Open", rfl⟩) (initCache ⟨"Close", rfl⟩) = .ok dst from ⟨_, rfl⟩)
  have hconflict : NoConflict libEnv twoCaches := ⟨hagree, hfree⟩
  refine (loadCache_visible_iff hconflict).2 ⟨fun h => (nomatch h), hrefs, ?_⟩
  have hreferred : ChunksReferred (initCache ⟨"Close", rfl⟩) :=
    chunksReferred_empty.registerTemplate (t := initTemplate ⟨"Close", rfl⟩) Table.empty (by decide)
  exact fun name c hc => Or.inr (hreferred name c hc)

/-! ## Files that entries name -/

/-- The tree of an interface and those of its extensions. -/
def CachedInterface.fileNames (itf : CachedInterface) : List String :=
  itf.treeFile.toList ++ itf.extensions.map CachedExtension.treeFile

def GlobalCode.fileNames (glob : GlobalCode) : List String := [glob.scriptFile, glob.treeFile]

def CachedChunk.fileNames (chunk : CachedChunk) : List String := [chunk.scriptFile, chunk.treeFile]

/-- The files of the mapping and those of the methods. -/
def CachedTemplate.fileNames (tpl : CachedTemplate) : List String :=
  (tpl.mapping.toList.flatMap fun files => [files.scriptFile, files.treeFile]) ++
    tpl.methods.entries.flatMap fun m => [m.2.scriptFile, m.2.treeFile]

/-- The files that the entries of a cache name. -/
def Cache.fileNames (cache : Cache) : List String :=
  (cache.interfaces.entries.flatMap fun e => e.2.fileNames) ++
    cache.globalCode.flatMap GlobalCode.fileNames ++
    (cache.allFiled.flatMap fun f => f.tpl.fileNames) ++
    cache.chunks.entries.flatMap fun e => e.2.flatMap CachedChunk.fileNames

/-- A file that an entry names, by the kind of the entry. -/
theorem mem_fileNames {cache : Cache} {file : String} : file ∈ cache.fileNames ↔
    (∃ name itf, cache.interfaces.get? name = some itf ∧ file ∈ itf.fileNames) ∨
    (∃ glob ∈ cache.globalCode, file ∈ glob.fileNames) ∨
    (∃ table hash, ∃ tpl ∈ cache.bucket table hash, file ∈ tpl.fileNames) ∨
    ∃ name, ∃ c ∈ cache.chunkList name, file ∈ c.fileNames := by
  have hitfs : (∃ e ∈ cache.interfaces.entries, file ∈ e.2.fileNames) ↔
      ∃ name itf, cache.interfaces.get? name = some itf ∧ file ∈ itf.fileNames := by
    simp only [Prod.exists, Table.mem_entries_iff]
  have htpls : (∃ f ∈ cache.allFiled, file ∈ f.tpl.fileNames) ↔
      ∃ table hash, ∃ tpl ∈ cache.bucket table hash, file ∈ tpl.fileNames := by
    constructor
    · rintro ⟨f, hf, hfile⟩
      exact ⟨f.table, f.hash, f.tpl, Cache.mem_bucket_iff.2 hf, hfile⟩
    · rintro ⟨table, hash, tpl, htpl, hfile⟩
      exact ⟨_, Cache.mem_bucket_iff.1 htpl, hfile⟩
  have hchunks : (∃ e ∈ cache.chunks.entries, ∃ c ∈ e.2, file ∈ c.fileNames) ↔
      ∃ name, ∃ c ∈ cache.chunkList name, file ∈ c.fileNames := by
    simp only [Prod.exists, Table.mem_entries_iff, Cache.chunkList]
    constructor
    · rintro ⟨name, chunks, hget, c, hc, hfile⟩
      exact ⟨name, c, by rw [hget]; exact hc, hfile⟩
    · rintro ⟨name, c, hc, hfile⟩
      cases hget : cache.chunks.get? name with
      | none =>
        rw [hget] at hc
        cases hc
      | some chunks =>
        rw [hget] at hc
        exact ⟨name, chunks, hget, c, hc, hfile⟩
  simp only [Cache.fileNames, List.mem_append, List.mem_flatMap, hitfs, htpls, hchunks, or_assoc]

/-- A merged cache names no other files. -/
theorem MergeOf.mem_fileNames {cache1 cache2 dst : Cache} (h : MergeOf cache1 cache2 dst)
    {file : String} (hfile : file ∈ dst.fileNames) :
    file ∈ cache1.fileNames ∨ file ∈ cache2.fileNames := by
  rw [Link.mem_fileNames, Link.mem_fileNames]
  rcases Link.mem_fileNames.1 hfile with ⟨name, itf, hget, hfile⟩ | ⟨glob, hglob, hfile⟩ |
    ⟨table, hash, tpl, htpl, hfile⟩ | ⟨name, c, hc, hfile⟩
  · rw [h.interfaces] at hget
    cases hold : cache1.interfaces.get? name with
    | none =>
      rw [hold] at hget
      exact Or.inr (Or.inl ⟨name, itf, hget, hfile⟩)
    | some old =>
      rw [hold] at hget
      cases hnew : cache2.interfaces.get? name with
      | none =>
        rw [hnew] at hget
        exact Or.inl (Or.inl ⟨name, itf, hold.trans hget, hfile⟩)
      | some new =>
        -- the tree is that of the first cache, the extensions are those of both
        rw [hnew] at hget
        cases hget
        simp only [CachedInterface.fileNames, List.map_append, List.mem_append, ← or_assoc] at hfile
        rcases hfile with hfile | hfile
        · exact Or.inl (Or.inl ⟨name, old, hold, List.mem_append.2 hfile⟩)
        · exact Or.inr (Or.inl ⟨name, new, hnew, List.mem_append_right _ hfile⟩)
  · rw [h.globalCode, List.mem_append] at hglob
    rcases hglob with hglob | hglob
    · exact Or.inl (Or.inr (Or.inl ⟨glob, hglob, hfile⟩))
    · exact Or.inr (Or.inr (Or.inl ⟨glob, hglob, hfile⟩))
  · obtain ⟨copies, hbucket, hcopies⟩ := h.buckets table hash
    rw [hbucket, List.mem_append] at htpl
    rcases htpl with htpl | hcopy
    · exact Or.inl (Or.inr (Or.inr (Or.inl ⟨table, hash, tpl, htpl, hfile⟩)))
    · obtain ⟨original, htpl, hcopied⟩ := exists_left_of_forall₂ hcopies hcopy
      obtain ⟨refs, rfl⟩ := hcopied.template
      exact Or.inr (Or.inr (Or.inr (Or.inl ⟨table, hash, original, htpl, hfile⟩)))
  · rcases h.mem_chunkList.1 hc with hc | ⟨table, hash, tpl, -, hc⟩
    · exact Or.inl (Or.inr (Or.inr (Or.inr ⟨name, c, hc, hfile⟩)))
    · obtain ⟨id, -, hat⟩ := mem_contribution.1 hc
      exact Or.inr (Or.inr (Or.inr (Or.inr ⟨name, c, List.mem_of_getElem? hat, hfile⟩)))

/-! ## Moving the files of an entry -/

/-- The directory of the interfaces is not a file. -/
theorem isDirectory_interfaces (path : String) : isDirectory (path ++ "interfaces/" ++ "") = true := by
  unfold isDirectory
  simp

theorem moveFile_of_none {fs : FileSystem} {source : String} (h : fs.read source = none)
    (destination : String) : moveFile fs source destination = .error (copyFailed source) := by
  unfold moveFile
  rw [FileSystem.copyFile_of_none h]

/-- A script that was moved is gone. -/
theorem read_moveFile {fs fs' : FileSystem} {source destination : String}
    (h : moveFile fs source destination = .ok fs') : fs'.read source = none := by
  unfold moveFile at h
  cases hcopy : fs.copyFile source destination with
  | none =>
    rw [hcopy] at h
    cases h
  | some fs₁ =>
    rw [hcopy] at h
    cases h
    exact fs₁.read_deleteFile_self source

/-- An interface or an extension: with a tree and without a script, there is nothing that could be
moved. -/
theorem installItem_tree (treeFile : Option String) (fs fs' : FileSystem) :
    installItem env true none treeFile fs = .ok fs' ↔ treeFile = none ∧ fs' = fs := by
  cases treeFile with
  | none => simp [installItem, pure, Except.pure, bind, Except.bind, eq_comm]
  | some file =>
    have hread := fs.noFile _ (isDirectory_interfaces env.localBacklibPath)
    have herror : installItem env true none (some file) fs =
        moveFile fs (env.localBacklibPath ++ "interfaces/" ++ "") (env.backlibPath ++ "interfaces/" ++ "") :=
      rfl
    rw [herror, moveFile_of_none hread]
    simp

/-- An entry with both files: the script is moved first, and then it is no more there. -/
theorem installItem_both (files : Option MappingFiles) (fs fs' : FileSystem) :
    installItem env false (files.map MappingFiles.scriptFile) (files.map MappingFiles.treeFile) fs =
      .ok fs' ↔ files = none ∧ fs' = fs := by
  cases files with
  | none => simp [installItem, pure, Except.pure, bind, Except.bind, eq_comm]
  | some files =>
    have hmoves : installItem env false (some files.scriptFile) (some files.treeFile) fs =
        moveFile fs (env.localBacklibPath ++ files.scriptFile) (env.backlibPath ++ files.scriptFile) >>=
          fun fs => moveFile fs (env.localBacklibPath ++ files.scriptFile)
            (env.backlibPath ++ files.scriptFile) := rfl
    have hnever : ¬ installItem env false (some files.scriptFile) (some files.treeFile) fs = .ok fs' := by
      rw [hmoves, bind_eq_ok_iff]
      rintro ⟨fs₁, hfirst, hsecond⟩
      rw [moveFile_of_none (read_moveFile hfirst)] at hsecond
      cases hsecond
    simpa using hnever

/-! ## Moving all files -/

/-- No entry of a cache has a file that an installation moves. -/
structure NothingToMove (cache : Cache) : Prop where
  interfaces : ∀ e ∈ cache.interfaces.entries, e.2.treeFile = none ∧ e.2.extensions = []
  templates : ∀ f ∈ cache.allFiled, f.tpl.mapping = none
  chunks : ∀ e ∈ cache.chunks.entries, e.2 = []

instance (cache : Cache) : Decidable (NothingToMove cache) :=
  decidable_of_iff ((∀ e ∈ cache.interfaces.entries, e.2.treeFile = none ∧ e.2.extensions = []) ∧
      (∀ f ∈ cache.allFiled, f.tpl.mapping = none) ∧ ∀ e ∈ cache.chunks.entries, e.2 = [])
    ⟨fun h => ⟨h.1, h.2.1, h.2.2⟩, fun h => ⟨h.interfaces, h.templates, h.chunks⟩⟩

theorem NothingToMove.chunkList {cache : Cache} (h : NothingToMove cache) (name : String) :
    cache.chunkList name = [] := by
  unfold Cache.chunkList
  cases hget : cache.chunks.get? name with
  | none => rfl
  | some chunks => exact h.chunks (name, chunks) ((cache.chunks.mem_entries_iff name chunks).2 hget)

theorem guards_installInterface :
    Guards (installInterface env) fun e => e.2.treeFile = none ∧ e.2.extensions = [] := by
  intro fs e fs'
  have hext : Guards (fun fs (ext : CachedExtension) => installItem env true none (some ext.treeFile) fs)
      fun _ => False := by
    intro fs ext fs'
    rw [installItem_tree]
    simp
  unfold installInterface
  rw [bind_eq_ok_iff]
  simp only [installItem_tree]
  constructor
  · rintro ⟨fs₁, ⟨htree, rfl⟩, hloop⟩
    obtain ⟨hnone, hsame⟩ := (hext.foldlM _ _ _).1 hloop
    exact ⟨⟨htree, List.eq_nil_iff_forall_not_mem.2 hnone⟩, hsame⟩
  · rintro ⟨⟨htree, hnone⟩, hsame⟩
    exact ⟨fs, ⟨htree, rfl⟩, (hext.foldlM _ _ _).2 ⟨List.eq_nil_iff_forall_not_mem.1 hnone, hsame⟩⟩

theorem guards_installTemplates :
    Guards (installTemplates env) fun e => ∀ tpl ∈ e.2, tpl.mapping = none := by
  intro fs e fs'
  have htpl : Guards (fun fs (tpl : CachedTemplate) => installItem env false
      (tpl.mapping.map MappingFiles.scriptFile) (tpl.mapping.map MappingFiles.treeFile) fs)
      fun tpl => tpl.mapping = none := fun fs tpl fs' => installItem_both _ _ _
  exact htpl.foldlM fs e.2 fs'

theorem guards_installChunks : Guards (installChunks env) fun e => e.2 = [] := by
  intro fs e fs'
  have hchunk : Guards (fun fs (chunk : CachedChunk) => installItem env false (some chunk.scriptFile)
      (some chunk.treeFile) fs) fun _ => False := by
    intro fs chunk fs'
    have h := @installItem_both env (some ⟨chunk.scriptFile, chunk.treeFile⟩) fs fs'
    simpa using h
  refine (hchunk.foldlM fs e.2 fs').trans (and_congr_left fun _ => ?_)
  exact List.eq_nil_iff_forall_not_mem.symm

/-- **The loops of an installation** finish only when there is nothing to move. -/
theorem installFiles_ok_iff {cache : Cache} {fs fs' : FileSystem} :
    installFiles env fs cache = .ok fs' ↔ NothingToMove cache ∧ fs' = fs := by
  have htpls : (∀ f ∈ cache.allFiled, f.tpl.mapping = none) ↔
      (∀ e ∈ cache.sequences.entries, ∀ tpl ∈ e.2, tpl.mapping = none) ∧
        ∀ e ∈ cache.types.entries, ∀ tpl ∈ e.2, tpl.mapping = none := by
    simp only [Cache.allFiled, Cache.filed, List.forall_mem_append, List.forall_mem_flatMap,
      List.forall_mem_map, Cache.table]
  have hitfs := (@guards_installInterface env).foldlM
  have htables := (@guards_installTemplates env).foldlM
  have hchunks := (@guards_installChunks env).foldlM
  unfold installFiles
  simp only [bind_eq_ok_iff]
  constructor
  · rintro ⟨fs₁, h₁, fs₂, h₂, fs₃, h₃, fs₄, h₄, h₅⟩
    obtain ⟨hi, rfl⟩ := (hitfs _ _ _).1 h₁
    cases h₂
    obtain ⟨hs, rfl⟩ := (htables _ _ _).1 h₃
    obtain ⟨ht, rfl⟩ := (htables _ _ _).1 h₄
    obtain ⟨hc, rfl⟩ := (hchunks _ _ _).1 h₅
    exact ⟨⟨hi, htpls.2 ⟨hs, ht⟩, hc⟩, rfl⟩
  · rintro ⟨hnothing, rfl⟩
    obtain ⟨hs, ht⟩ := htpls.1 hnothing.templates
    exact ⟨fs', (hitfs _ _ _).2 ⟨hnothing.interfaces, rfl⟩, fs', rfl, fs', (htables _ _ _).2 ⟨hs, rfl⟩,
      fs', (htables _ _ _).2 ⟨ht, rfl⟩, (hchunks _ _ _).2 ⟨hnothing.chunks, rfl⟩⟩

/-! ## The installation -/

/-- With nothing in the differential cache, saving writes both caches as they are. -/
theorem saveCache_fresh {session : Session} (htemp : session.temp = Cache.empty) (cache : Cache) :
    saveCache env disk ⟨cache, Cache.empty, session⟩ false =
      .ok (some ⟨disk.files, some cache, some Cache.empty⟩) := by
  unfold saveCache
  rw [htemp]
  rfl

/-- When an installation finishes, and what it leaves. -/
theorem installLocalCache_ok_iff {disk' : Disk} : installLocalCache env disk = .ok disk' ↔
    NothingToMove disk.localCache ∧ ∃ cache,
      mergeCaches env.ignoreConflicts disk.globalCache disk.localCache = .ok cache ∧
        disk' = ⟨disk.files, some cache, some Cache.empty⟩ := by
  unfold installLocalCache
  rw [bind_eq_ok_iff]
  constructor
  · rintro ⟨⟨b, st⟩, hload, h⟩
    obtain ⟨hglobal, hlocal, htemp, -⟩ := loadCache_ok hload
    obtain ⟨files, hfiles, h⟩ := bind_eq_ok_iff.1 h
    obtain ⟨cache, hmerge, h⟩ := bind_eq_ok_iff.1 h
    rw [hlocal, installFiles_ok_iff] at hfiles
    obtain ⟨hnothing, rfl⟩ := hfiles
    rw [hglobal, hlocal] at hmerge
    obtain ⟨saved, hsaved, h⟩ := bind_eq_ok_iff.1 h
    rw [saveCache_fresh htemp] at hsaved
    cases hsaved
    cases h
    exact ⟨hnothing, cache, hmerge, rfl⟩
  · rintro ⟨hnothing, cache, hmerge, rfl⟩
    obtain ⟨b, st, hload⟩ := @loadCache_exists env disk fun _ => ⟨cache, hmerge⟩
    obtain ⟨hglobal, hlocal, htemp, -⟩ := loadCache_ok hload
    refine ⟨(b, st), hload, ?_⟩
    have hfiles : installFiles env disk.files st.cacheLocal = .ok disk.files := by
      rw [hlocal]
      exact installFiles_ok_iff.2 ⟨hnothing, rfl⟩
    rw [← hglobal, ← hlocal] at hmerge
    exact bind_eq_ok_iff.2 ⟨_, hfiles, bind_eq_ok_iff.2 ⟨cache, hmerge,
      bind_eq_ok_iff.2 ⟨_, saveCache_fresh htemp cache, rfl⟩⟩⟩

/-- A file holds after an operation what a file held before. -/
def Holds (files files' : FileSystem) (path path' : String) : Prop :=
  ∃ contents, files.read path = some contents ∧ files'.read path' = some contents

/-- The files of a new global cache: each is one that the old global cache or the local one names, and
it stands in the global library with its contents, those of the local library for a local entry. -/
def Installed (env : LinkEnv) (disk : Disk) (files' : FileSystem) (cache : Cache) : Prop :=
  ∀ file ∈ cache.fileNames,
    (file ∈ disk.globalCache.fileNames ∨ file ∈ disk.localCache.fileNames) ∧
    (file ∈ disk.globalCache.fileNames →
      Holds disk.files files' (env.backlibPath ++ file) (env.backlibPath ++ file)) ∧
    (file ∈ disk.localCache.fileNames →
      Holds disk.files files' (env.localBacklibPath ++ file) (env.backlibPath ++ file))

/-- What can be installed: nothing is to be moved, and what should be is there already. -/
structure Installable (env : LinkEnv) (disk : Disk) : Prop where
  nothing : NothingToMove disk.localCache
  references : WellReferenced disk.localCache
  templates : ∀ table hash, ConflictFree env.ignoreConflicts (disk.globalCache.bucket table hash)
    (disk.localCache.bucket table hash)
  there : ∀ file ∈ disk.localCache.fileNames,
    disk.files.read (env.backlibPath ++ file) = disk.files.read (env.localBacklibPath ++ file)

/-- The local files that need not be moved are named in the new cache. -/
theorem MergeOf.mem_fileNames_second {cache1 cache2 dst : Cache} (h : MergeOf cache1 cache2 dst)
    (hnothing : NothingToMove cache2) {file : String} (hfile : file ∈ cache2.fileNames) :
    file ∈ dst.fileNames := by
  rw [Link.mem_fileNames] at hfile ⊢
  rcases hfile with ⟨name, itf, hget, hfile⟩ | ⟨glob, hglob, hfile⟩ |
    ⟨table, hash, tpl, htpl, hfile⟩ | ⟨name, c, hc, hfile⟩
  · obtain ⟨htree, hext⟩ := hnothing.interfaces (name, itf)
      ((cache2.interfaces.mem_entries_iff name itf).2 hget)
    rw [CachedInterface.fileNames, htree, hext] at hfile
    cases hfile
  · rw [h.globalCode]
    exact Or.inr (Or.inl ⟨glob, List.mem_append_right _ hglob, hfile⟩)
  · obtain ⟨refs, hcopy⟩ := h.exists_copy htpl
    exact Or.inr (Or.inr (Or.inl ⟨table, hash, { tpl with chunks := refs }, hcopy, hfile⟩))
  · rw [hnothing.chunkList] at hc
    cases hc

/-- **An installation** finishes and leaves every file in its place exactly when no interface tree,
extension, mapping or chunk of the local cache is to be moved, nothing conflicts, and the files of its
global code and methods are in the global library already. -/
theorem installLocalCache_iff
    (hglobal : ∀ file ∈ disk.globalCache.fileNames, (disk.files.read (env.backlibPath ++ file)).isSome)
    (hlocal : ∀ file ∈ disk.localCache.fileNames,
      (disk.files.read (env.localBacklibPath ++ file)).isSome) :
    (∃ disk' cache, installLocalCache env disk = .ok disk' ∧ disk'.cacheGlobal = some cache ∧
      Installed env disk disk'.files cache) ↔ Installable env disk := by
  constructor
  · rintro ⟨disk', cache, hinstall, hcache, hinstalled⟩
    obtain ⟨hnothing, _, hmerge, rfl⟩ := installLocalCache_ok_iff.1 hinstall
    cases hcache
    obtain ⟨-, hrefs, htpls⟩ := mergeCaches_exists_iff.1 ⟨_, hmerge⟩
    refine ⟨hnothing, hrefs, htpls, fun file hfile => ?_⟩
    have hnew := (mergeOf_mergeCaches hmerge).mem_fileNames_second hnothing hfile
    obtain ⟨contents, hbefore, hafter⟩ := (hinstalled file hnew).2.2 hfile
    exact hafter.trans hbefore.symm
  · intro h
    have hagree : InterfacesAgree disk.globalCache disk.localCache.interfaces.entries :=
      fun e he _ => (h.nothing.interfaces e he).1
    obtain ⟨cache, hmerge⟩ := mergeCaches_exists_iff.2 ⟨hagree, h.references, h.templates⟩
    refine ⟨_, cache, installLocalCache_ok_iff.2 ⟨h.nothing, cache, hmerge, rfl⟩, rfl, ?_⟩
    intro file hfile
    refine ⟨(mergeOf_mergeCaches hmerge).mem_fileNames hfile, fun hold => ?_, fun hnew => ?_⟩
    · obtain ⟨contents, hread⟩ := Option.isSome_iff_exists.1 (hglobal file hold)
      exact ⟨contents, hread, hread⟩
    · obtain ⟨contents, hread⟩ := Option.isSome_iff_exists.1 (hlocal file hnew)
      exact ⟨contents, hread, (h.there file hnew).trans hread⟩

/-- The cache that holds the sequence template `Close()`, without chunks. -/
def bareCache : Cache :=
  Cache.empty.registerSequence { initTemplate ⟨"Close", .refl true⟩ with body := [] } Table.empty

/-- The library in `global/` with the files of `Open()`, whose cache is the global one; the local cache
holds the template `Close()`. -/
def bareDisk : Disk where
  files := .ofFiles [("global/Open.tree", "the tree"), ("global/Open.cws", "the script")]
  cacheGlobal := some (initCache ⟨"Open", .refl true⟩)
  cacheLocal := some bareCache

theorem installLocalCache_bare : ∃ disk' cache, installLocalCache libEnv bareDisk = .ok disk' ∧
    disk'.cacheGlobal = some cache ∧ Installed libEnv bareDisk disk'.files cache := by
  refine (installLocalCache_iff (by decide) (by decide)).2 ⟨by decide, by decide, ?_, by decide⟩
  exact (mergeCaches_exists_iff.1 (show ∃ dst, mergeCaches false (initCache ⟨"Open", rfl⟩) bareCache =
    .ok dst from ⟨_, rfl⟩)).2.2

/-- The local library with the files of `Open()`: the tree is never moved, and the script is looked for
a second time. -/
theorem script_moved_twice : ∃ disk : Disk,
    disk.cacheLocal = some (initCache ⟨"Open", rfl⟩) ∧ disk.cacheGlobal = none ∧
      (∀ file ∈ (initCache ⟨"Open", rfl⟩).fileNames, (disk.files.read ("lib/" ++ file)).isSome) ∧
      installLocalCache libEnv disk = .error (copyFailed "lib/Open.cws") :=
  ⟨⟨.ofFiles [("lib/Open.tree", "the tree"), ("lib/Open.cws", "the script")], none,
    some (initCache ⟨"Open", rfl⟩)⟩, rfl, rfl, by decide, rfl⟩

/-- The template `Close()` is installed, and a later run without a local cache does not see it. -/
theorem installed_template_hidden : ∃ disk' st, installLocalCache libEnv bareDisk = .ok disk' ∧
    (disk'.globalCache.bucket .sequences "Close()").length = 1 ∧
      loadCache libEnv { disk' with cacheLocal := none } = .ok (false, st) ∧
      st.session.cache.bucket .sequences "Close()" = [] :=
  ⟨_, _, rfl, by decide, rfl, by decide⟩

end Rathaxes.Link
