import Mathlib.Logic.Relation
import Rathaxes.Laws.Install
import Rathaxes.Link.Driver

/-!
# Histories of runs

What holds of the two cache files however often and with whatever arguments the compiler is run. `Change` says all that
a run that ends well can do to them; a run that ends with an error leaves them as they are.

Three things follow. Every operation begins by loading, so caches that cannot be loaded stay as they are: not even
`cache clear` gets them out of this state (`stuck_forever`). A registration leads there if one of its templates
conflicts with a template of the global cache, since neither the registration nor the merge into the local cache looks
at that one. Without a local cache file the session starts with nothing, and an interface of the global cache that is
registered again leads there too. There is no other way (`loads_after_register_iff`). And as long as the caches can be
loaded, nothing that a run has seen or has registered is lost to a later one, unless the local cache is cleared.
-/

set_option autoImplicit false

namespace Rathaxes.Link

open CodeWorker

/-! ## One run -/

section Runs

variable {env : LinkEnv} {passes : Passes} {disk disk' : Disk}

/-- A session that was registered and saved. -/
structure Registers (env : LinkEnv) (disk : Disk) (s : Session) (disk' : Disk) : Prop where
  run : ∃ b st items fs fs' cacheLocal, loadCache env disk = .ok (b, st) ∧
    sessionRegisterAll st.session Table.empty items = .ok s ∧
      validateDiff env fs s.temp st.cacheLocal = .ok (some (fs', cacheLocal)) ∧
        disk' = ⟨fs', disk.cacheGlobal, some cacheLocal⟩

/-- What a run that ends well can do to the cache files. -/
inductive Change (env : LinkEnv) (disk : Disk) : Operation → Disk → Prop
  | unchanged (op : Operation) (files : FileSystem) : Change env disk op { disk with files := files }
  | registered (op : Operation) (s : Session) (disk' : Disk) (h : Registers env disk s disk') :
    Change env disk op disk'
  | cleared : Change env disk .cacheClear ⟨disk.files, disk.cacheGlobal, some Cache.empty⟩
  | installed (cache : Cache)
    (hmerge : mergeCaches env.ignoreConflicts disk.globalCache disk.localCache = .ok cache) :
    Change env disk .cacheInstall ⟨disk.files, some cache, some Cache.empty⟩

/-- What the operations on an input file have done before they come to an end. -/
theorem compileFile_ok {op : Operation} {st : Linker} {files : FileSystem}
    (h : compileFile env passes op disk = .ok (st, files)) :
    ∃ b st₀ items, loadCache env disk = .ok (b, st₀) ∧
      sessionRegisterAll st₀.session Table.empty items = .ok st.session ∧ st.cacheLocal = st₀.cacheLocal := by
  obtain ⟨⟨b, st₀⟩, hload, h⟩ := bind_eq_ok_iff.1 h
  obtain ⟨⟨items, files'⟩, -, h⟩ := bind_eq_ok_iff.1 h
  obtain ⟨session, hregister, h⟩ := bind_eq_ok_iff.1 h
  cases h
  exact ⟨b, st₀, items, hload, hregister, rfl⟩

theorem saveCache_eq_some {st : Linker} (h : saveCache env disk st true = .ok (some disk')) :
    ∃ fs' cacheLocal, validateDiff env disk.files st.session.temp st.cacheLocal = .ok (some (fs', cacheLocal)) ∧
      disk' = ⟨fs', disk.cacheGlobal, some cacheLocal⟩ := by
  obtain ⟨validated, hvalidate, h⟩ := bind_eq_ok_iff.1 h
  cases validated with
  | none => cases h
  | some validated =>
    cases h
    exact ⟨validated.1, validated.2, hvalidate, rfl⟩

theorem registerFile_ok {op : Operation} (h : registerFile env passes op disk = .ok disk') :
    ∃ s, Registers env disk s disk' := by
  obtain ⟨⟨st, files⟩, hcompile, h⟩ := bind_eq_ok_iff.1 h
  obtain ⟨b, st₀, items, hload, hregister, hlocal⟩ := compileFile_ok hcompile
  obtain ⟨saved, hsave, h⟩ := bind_eq_ok_iff.1 h
  cases saved with
  | none => cases h
  | some saved =>
    cases h
    obtain ⟨fs', cacheLocal, hvalidate, rfl⟩ := saveCache_eq_some hsave
    rw [hlocal] at hvalidate
    exact ⟨st.session, b, st₀, items, files, fs', cacheLocal, hload, hregister, hvalidate, rfl⟩

/-- Clearing saves an empty local cache beside the global one. -/
theorem clearCache_ok (h : clearCache env disk = .ok disk') :
    disk' = ⟨disk.files, disk.cacheGlobal, some Cache.empty⟩ := by
  obtain ⟨⟨b, st⟩, hload, h⟩ := bind_eq_ok_iff.1 h
  obtain ⟨-, -, htemp, -⟩ := loadCache_ok hload
  have hsave : saveCache env disk { st with cacheLocal := Cache.empty } true =
      .ok (some ⟨disk.files, disk.cacheGlobal, some Cache.empty⟩) := by
    unfold saveCache
    rw [htemp]
    rfl
  obtain ⟨saved, hsaved, h⟩ := bind_eq_ok_iff.1 h
  obtain rfl := Except.ok.inj (hsave.symm.trans hsaved)
  cases h
  rfl

/-- **One run** that ends well has loaded the caches, and has changed them as its operation says. -/
theorem change_of_run {op : Operation} (h : op.run env passes disk = .ok disk') :
    (∃ r, loadCache env disk = .ok r) ∧ Change env disk op disk' := by
  have hcheck : ∀ {op : Operation}, checkFile env passes op disk = .ok disk' →
      (∃ r, loadCache env disk = .ok r) ∧ ∃ files, disk' = { disk with files := files } := by
    intro op h
    obtain ⟨⟨st, files⟩, hcompile, h⟩ := bind_eq_ok_iff.1 h
    obtain ⟨b, st₀, -, hload, -⟩ := compileFile_ok hcompile
    cases h
    exact ⟨⟨_, hload⟩, files, rfl⟩
  have hregister : ∀ {op op' : Operation}, registerFile env passes op disk = .ok disk' →
      (∃ r, loadCache env disk = .ok r) ∧ Change env disk op' disk' := by
    intro op op' h
    obtain ⟨s, hs⟩ := registerFile_ok h
    obtain ⟨b, st, _, _, _, _, hload, -⟩ := hs.run
    exact ⟨⟨_, hload⟩, .registered op' s disk' hs⟩
  cases op with
  | generate =>
    obtain ⟨⟨st, files⟩, hcompile, h⟩ := bind_eq_ok_iff.1 h
    obtain ⟨b, st₀, -, hload, -⟩ := compileFile_ok hcompile
    obtain ⟨files', -, h⟩ := bind_eq_ok_iff.1 h
    cases h
    exact ⟨⟨_, hload⟩, .unchanged _ files'⟩
  | bltCheck =>
    obtain ⟨hload, files, rfl⟩ := hcheck h
    exact ⟨hload, .unchanged _ files⟩
  | rtiCheck =>
    obtain ⟨hload, files, rfl⟩ := hcheck h
    exact ⟨hload, .unchanged _ files⟩
  | bltRegister => exact hregister h
  | rtiRegister => exact hregister h
  | cacheClear =>
    obtain ⟨r, hload, -⟩ := bind_eq_ok_iff.1 h
    rw [clearCache_ok h]
    exact ⟨⟨r, hload⟩, .cleared⟩
  | cacheInstall =>
    obtain ⟨r, hload, -⟩ := bind_eq_ok_iff.1 h
    obtain ⟨-, cache, hmerge, rfl⟩ := installLocalCache_ok_iff.1 h
    exact ⟨⟨r, hload⟩, .installed cache hmerge⟩

/-- Every operation begins by loading. -/
theorem run_of_loadCache_error {e : String} (h : loadCache env disk = .error e) (op : Operation) :
    op.run env passes disk = .error e := by
  have hcompile : ∀ op, compileFile env passes op disk = .error e := by
    intro op
    rw [compileFile, h]
    rfl
  cases op with
  | generate => rw [Operation.run, generateFile, hcompile]; rfl
  | bltCheck => rw [Operation.run, checkFile, hcompile]; rfl
  | rtiCheck => rw [Operation.run, checkFile, hcompile]; rfl
  | bltRegister => rw [Operation.run, registerFile, hcompile]; rfl
  | rtiRegister => rw [Operation.run, registerFile, hcompile]; rfl
  | cacheClear => rw [Operation.run, clearCache, h]; rfl
  | cacheInstall => rw [Operation.run, installLocalCache, h]; rfl

end Runs

/-! ## Histories -/

/-- One run with arguments of a kind. A run that ends with an error has not saved a cache; which other files it has
written until then is left open. -/
inductive Run (env : LinkEnv) (allowed : Option Operation → Prop) (disk : Disk) : Disk → Prop
  | done (passes : Passes) (operation subop : String) (disk' : Disk)
    (hallowed : allowed (readOperation operation subop))
    (h : rathaxes env passes operation subop disk = .ok disk') : Run env allowed disk disk'
  | failed (passes : Passes) (operation subop : String) (files : FileSystem) (e : String)
    (hallowed : allowed (readOperation operation subop))
    (h : rathaxes env passes operation subop disk = .error e) : Run env allowed disk { disk with files := files }

/-- Any number of runs, one after the other. -/
def History (env : LinkEnv) (allowed : Option Operation → Prop) : Disk → Disk → Prop :=
  Relation.ReflTransGen (Run env allowed)

section Histories

variable {env : LinkEnv} {allowed : Option Operation → Prop} {disk disk' : Disk}

/-- What one run can do. -/
theorem Run.cases_change (h : Run env allowed disk disk') :
    (∃ files, disk' = { disk with files := files }) ∨
      ∃ op, allowed (some op) ∧ (∃ r, loadCache env disk = .ok r) ∧ Change env disk op disk' := by
  cases h with
  | failed passes operation subop files e hallowed h => exact .inl ⟨files, rfl⟩
  | done passes operation subop disk' hallowed h =>
    unfold rathaxes at h
    cases hop : readOperation operation subop with
    | none =>
      rw [hop] at h
      cases h
    | some op =>
      rw [hop] at h hallowed
      exact .inr ⟨op, hallowed, change_of_run h⟩

/-- Caches that cannot be loaded are not changed by any number of runs. -/
theorem History.stuck {e : String} (hstuck : loadCache env disk = .error e) (h : History env allowed disk disk') :
    loadCache env disk' = .error e ∧ disk'.cacheGlobal = disk.cacheGlobal ∧ disk'.cacheLocal = disk.cacheLocal := by
  induction h with
  | refl => exact ⟨hstuck, rfl, rfl⟩
  | tail _ hrun ih =>
    obtain ⟨hload, hglobal, hlocal⟩ := ih
    rcases hrun.cases_change with ⟨files, rfl⟩ | ⟨op, -, ⟨r, hok⟩, -⟩
    · exact ⟨hload, hglobal, hlocal⟩
    · rw [hload] at hok
      cases hok

end Histories

/-- Passes that register these items, with these files in the working directory. -/
def itemPasses (items : List Item) (files : FileSystem) : Passes where
  compile _ _ _ := .ok (items, files)
  generate _ files := .ok files

/-- The template `Open()` in both caches. -/
def clashDisk : Disk :=
  ⟨.ofFiles [], some (initCache ⟨"Open", .refl true⟩), some (initCache ⟨"Open", .refl true⟩)⟩

section Register

variable {env : LinkEnv} {disk disk' : Disk}

/-- Loading comes to the merge, and the merge to its end. -/
theorem loadCache_eq_true_iff {st : Linker} : loadCache env disk = .ok (true, st) ↔
    disk.cacheLocal.isSome = true ∧
      mergeCaches env.ignoreConflicts disk.globalCache disk.localCache = .ok st.session.cache ∧
        st = ⟨disk.globalCache, disk.localCache, ⟨st.session.cache, Cache.empty, env.ignoreConflicts⟩⟩ := by
  unfold loadCache Disk.localCache
  cases hlocal : disk.cacheLocal with
  | none => simp
  | some cacheLocal =>
    constructor
    · intro h
      obtain ⟨merged, hmerge, h⟩ := bind_eq_ok_iff.1 h
      cases h
      exact ⟨rfl, hmerge, rfl⟩
    · rintro ⟨-, hmerge, hst⟩
      refine bind_eq_ok_iff.2 ⟨_, hmerge, ?_⟩
      rw [hst]
      rfl

/-- The interfaces of the differential cache that have a tree are not those the session began with. -/
structure FreshInterfaces (start s : Session) : Prop where
  kept : ∀ name, (start.cache.interfaces.get? name).isSome = true → (s.cache.interfaces.get? name).isSome = true
  fresh : ∀ name itf, s.temp.interfaces.get? name = some itf → itf.treeFile.isSome = true →
    start.cache.interfaces.get? name = none

/-- A step that changes no interface keeps it. -/
theorem FreshInterfaces.of_eq {start s s' : Session} (h : FreshInterfaces start s)
    (hcache : s'.cache.interfaces = s.cache.interfaces) (htemp : s'.temp.interfaces = s.temp.interfaces) :
    FreshInterfaces start s' := by
  constructor
  · intro name hname
    rw [hcache]
    exact h.kept name hname
  · intro name itf hget
    rw [htemp] at hget
    exact h.fresh name itf hget

/-- So does one that sets an interface, unless it gives a tree to one the session began with. -/
theorem FreshInterfaces.set {start s s' : Session} {itf temp : CachedInterface} (h : FreshInterfaces start s)
    (name : String) (hcache : s'.cache.interfaces = s.cache.interfaces.set name itf)
    (htemp : s'.temp.interfaces = s.temp.interfaces.set name temp)
    (hfresh : temp.treeFile.isSome = true → start.cache.interfaces.get? name = none) : FreshInterfaces start s' := by
  constructor
  · intro name' hname
    rw [hcache, Table.get?_set]
    split
    · rfl
    · exact h.kept name' hname
  · intro name' itf' hget htree
    rw [htemp, Table.get?_set] at hget
    split at hget
    · rename_i heq
      cases hget
      rw [heq]
      exact hfresh htree
    · exact h.fresh name' itf' hget htree

theorem interfaces_registerTemplate (cache : Cache) (t : Template) (withValues : WithConfig) :
    (cache.registerTemplate t withValues).interfaces = cache.interfaces := by
  obtain ⟨tpl, h⟩ := registerTemplate_spec cache t withValues
  obtain ⟨chunks, hfiled⟩ := h.filed
  rw [hfiled]
  cases t.table with
  | sequences => rfl
  | types => rfl

theorem freshInterfaces_preserved (start : Session) : Preserved (FreshInterfaces start) where
  globalCode s w cBlock files h := by
    unfold registerGlobalCode
    split
    · exact h
    · split
      · exact h
      · exact h.of_eq rfl rfl
  tpl s t withValues h := by
    rw [registerTpl_eq]
    split
    · exact h
    · exact h.of_eq (interfaces_registerTemplate _ _ _) (interfaces_registerTemplate _ _ _)
  chunk s c h := h.of_eq rfl rfl
  itf s s' name h hstep := by
    unfold registerItf at hstep
    split at hstep
    · split at hstep
      · cases hstep
        exact h
      · cases hstep
    · rename_i hnew
      cases hstep
      refine h.set name rfl rfl fun _ => ?_
      -- a name the session began with would have been found
      cases hstart : start.cache.interfaces.get? name with
      | none => rfl
      | some old => exact absurd (h.kept name (by rw [hstart]; rfl)) hnew
  itfExtension s s' name withValues h hstep := by
    unfold registerItfExtension at hstep
    split at hstep
    · cases hstep
    · cases hstep
      refine h.set name rfl rfl fun htree => ?_
      cases hold : s.temp.interfaces.get? name with
      | none =>
        rw [hold] at htree
        cases htree
      | some old =>
        rw [hold] at htree
        exact h.fresh name old hold htree

/-- No file has the empty name, so an interface that was only extended cannot be validated. -/
theorem treeFile_of_copies {fs fs' : FileSystem} {temp : Cache}
    (h : fs.copyAll (validateCopies env temp) = some fs') {name : String} {itf : CachedInterface}
    (hget : temp.interfaces.get? name = some itf) : itf.treeFile.isSome = true := by
  cases htree : itf.treeFile with
  | some file => rfl
  | none =>
    have hmem : itfCopy env "" ∈ validateCopies env temp := by
      refine List.mem_append_left _ (List.mem_append_left _ (List.mem_flatMap.2
        ⟨(name, itf), (Table.mem_entries_iff _ _ _).2 hget, ?_⟩))
      rw [interfaceCopies, htree]
      exact List.mem_cons_self
    rw [FileSystem.copyAll_eq_none rfl hmem] at h
    cases h

/-- What is filed in a bucket is not renamed. -/
theorem bucket_renamedTemp (env : LinkEnv) (temp : Cache) (table : TplTable) (hash : String) :
    (renamedTemp env temp).bucket table hash = temp.bucket table hash := by
  cases table with
  | sequences => rfl
  | types => rfl

/-- A merged cache refers to chunks it has. -/
theorem MergeOf.wellReferenced {cache1 cache2 dst : Cache} (h : MergeOf cache1 cache2 dst)
    (hrefs : WellReferenced cache1) : WellReferenced dst := by
  intro table hash tpl htpl name id hid
  obtain ⟨copies, hbucket, hcopies⟩ := h.buckets table hash
  rw [hbucket] at htpl
  rcases List.mem_append.1 htpl with hold | hnew
  · obtain ⟨c, hat⟩ := Option.isSome_iff_exists.1 (hrefs table hash tpl hold name id hid)
    rw [Cache.chunkAt_of_prefix ⟨_, (h.chunks name).symm⟩ hat]
    rfl
  · obtain ⟨orig, -, hcopy⟩ := exists_left_of_forall₂ hcopies hnew
    cases horig : orig.chunks.get? name with
    | none =>
      rw [hcopy.absent name horig] at hid
      cases hid
    | some id₀ =>
      obtain ⟨c, id', -, hget, hat⟩ := hcopy.resolved name id₀ horig
      rw [hid, Option.some.injEq] at hget
      rw [hget, hat]
      rfl

/-- The templates of a bucket, one part after the other. -/
theorem conflictFree_append {ignoreConflicts : Bool} {bucket new more : List CachedTemplate} :
    ConflictFree ignoreConflicts bucket (new ++ more) ↔ ConflictFree ignoreConflicts bucket new ∧
      ConflictFree ignoreConflicts new more ∧ ConflictFree ignoreConflicts bucket more := by
  unfold ConflictFree
  rw [List.map_append, List.nodup_append', List.disjoint_append_right]
  cases ignoreConflicts with
  | true => simp
  | false => simp only [Bool.false_eq_true, false_or]; tauto

theorem conflictFree_congr {ignoreConflicts : Bool} {bucket bucket' new new' : List CachedTemplate}
    (hbucket : bucket.map CachedTemplate.withConfig = bucket'.map CachedTemplate.withConfig)
    (hnew : new.map CachedTemplate.withConfig = new'.map CachedTemplate.withConfig) :
    ConflictFree ignoreConflicts bucket new ↔ ConflictFree ignoreConflicts bucket' new' := by
  unfold ConflictFree
  rw [hbucket, hnew]

/-- The with-nodes of a bucket after a merge. -/
theorem MergeOf.withConfigs {cache1 cache2 dst : Cache} (h : MergeOf cache1 cache2 dst) (table : TplTable)
    (hash : String) : ∃ copies, dst.bucket table hash = cache1.bucket table hash ++ copies ∧
      copies.map CachedTemplate.withConfig = (cache2.bucket table hash).map CachedTemplate.withConfig := by
  obtain ⟨copies, hbucket, hcopies⟩ := h.buckets table hash
  refine ⟨copies, hbucket, ?_⟩
  clear hbucket
  generalize cache2.bucket table hash = tpls at hcopies ⊢
  induction hcopies with
  | nil => rfl
  | cons hcopy _ ih =>
    obtain ⟨chunks, rfl⟩ := hcopy.template
    rw [List.map_cons, List.map_cons, ih]

/-- **The interfaces a run registers** are not in the caches it has loaded. -/
theorem Registers.interfaces_fresh {b : Bool} {st : Linker} {s : Session} (h : Registers env disk s disk')
    (hload : loadCache env disk = .ok (b, st)) {name : String} (hname : (s.temp.interfaces.get? name).isSome = true) :
    st.session.cache.interfaces.get? name = none := by
  obtain ⟨b₀, st₀, items, fs, fs', cacheLocal, hload₀, hregister, hvalidate, -⟩ := h.run
  obtain ⟨rfl, rfl⟩ := Prod.mk.inj (Except.ok.inj (hload.symm.trans hload₀))
  obtain ⟨-, -, htemp, -⟩ := loadCache_ok hload
  have hfresh : FreshInterfaces st.session s := by
    refine (freshInterfaces_preserved st.session).sessionRegisterAll items st.session s _ ⟨fun _ h => h, ?_⟩ hregister
    intro name itf hget
    rw [htemp] at hget
    cases hget
  obtain ⟨itf, hget⟩ := Option.isSome_iff_exists.1 hname
  exact hfresh.fresh name itf hget (treeFile_of_copies (validateDiff_eq_some hvalidate).1 hget)

theorem get?_interfaces_renamedTemp (env : LinkEnv) (temp : Cache) (name : String) :
    (renamedTemp env temp).interfaces.get? name = (temp.interfaces.get? name).map renamedInterface :=
  Table.get?_mapValues _ _ _

theorem mergedInterface_eq_none {old new : Option CachedInterface} :
    mergedInterface old new = none ↔ old = none ∧ new = none := by
  cases old with
  | none => simp [mergedInterface]
  | some old =>
    cases new with
    | none => simp [mergedInterface]
    | some new => simp [mergedInterface]

/-- Caches that were loaded can be merged, also where loading has left this out. -/
theorem mergeable_of_loadCache {b : Bool} {st : Linker} (h : loadCache env disk = .ok (b, st)) :
    ∃ merged, mergeCaches env.ignoreConflicts disk.globalCache disk.localCache = .ok merged := by
  obtain ⟨-, -, -, ⟨hnone, -⟩ | ⟨-, hmerge⟩⟩ := loadCache_ok h
  · rw [Disk.localCache_of_none hnone]
    have hbucket : ∀ table hash, Cache.empty.bucket table hash = [] := fun table _ => by cases table <;> rfl
    refine mergeCaches_exists_iff.2 ⟨fun _ he => absurd he List.not_mem_nil, fun table hash tpl htpl => ?_, ?_⟩
    · rw [hbucket] at htpl
      cases htpl
    · intro table hash
      rw [hbucket]
      exact conflictFree_nil _ _
  · exact ⟨_, hmerge⟩

/-- The templates a run has registered, after the merge into the local cache, conflict with those of the global cache
if they did before. -/
theorem conflictFree_registered {cacheLocal : Cache} {temp : Cache}
    (hmerge : ∃ merged, mergeCaches env.ignoreConflicts disk.globalCache disk.localCache = .ok merged)
    (hvalidated : mergeCaches env.ignoreConflicts disk.localCache (renamedTemp env temp) = .ok cacheLocal)
    (table : TplTable) (hash : String) :
    ConflictFree env.ignoreConflicts (disk.globalCache.bucket table hash) (cacheLocal.bucket table hash) ↔
      ConflictFree env.ignoreConflicts (disk.globalCache.bucket table hash) (temp.bucket table hash) := by
  obtain ⟨-, -, hfree⟩ := mergeCaches_exists_iff.1 hmerge
  obtain ⟨-, -, hown⟩ := mergeCaches_exists_iff.1 ⟨_, hvalidated⟩
  obtain ⟨copies, hbucket, hwith⟩ := (mergeOf_mergeCaches hvalidated).withConfigs table hash
  have hown := hown table hash
  rw [bucket_renamedTemp] at hwith hown
  rw [hbucket, conflictFree_append, conflictFree_congr rfl hwith, conflictFree_congr rfl hwith]
  exact ⟨fun h => h.2.2, fun h => ⟨hfree table hash, hown, h⟩⟩

/-- The interfaces after the merge into the local cache agree with the global cache if none that was registered is in
it. -/
theorem interfacesAgree_registered {cacheLocal : Cache} {temp : Cache}
    (hmerge : ∃ merged, mergeCaches env.ignoreConflicts disk.globalCache disk.localCache = .ok merged)
    (hvalidated : mergeCaches env.ignoreConflicts disk.localCache (renamedTemp env temp) = .ok cacheLocal)
    (hfresh : ∀ name, (temp.interfaces.get? name).isSome = true → disk.globalCache.interfaces.get? name = none) :
    InterfacesAgree disk.globalCache cacheLocal.interfaces.entries := by
  obtain ⟨hagree, -, -⟩ := mergeCaches_exists_iff.1 hmerge
  intro e he hglobal
  have hget := (Table.mem_entries_iff _ _ _).1 he
  have hnew : temp.interfaces.get? e.1 = none := by
    rw [← Option.not_isSome_iff_eq_none]
    intro hsome
    rw [hfresh e.1 hsome] at hglobal
    cases hglobal
  rw [(mergeOf_mergeCaches hvalidated).interfaces, get?_interfaces_renamedTemp, hnew] at hget
  refine hagree e ((Table.mem_entries_iff _ _ _).2 ?_) hglobal
  cases hold : disk.localCache.interfaces.get? e.1 with
  | none =>
    rw [hold] at hget
    cases hget
  | some old =>
    rw [hold] at hget
    exact hget

/-- Without a local cache the interfaces of the new one are those registered. They have trees, so the global cache must
not have them. -/
theorem fresh_of_interfacesAgree {cacheLocal : Cache} {temp : Cache} (hnone : disk.cacheLocal = none)
    (hvalidated : mergeCaches env.ignoreConflicts disk.localCache (renamedTemp env temp) = .ok cacheLocal)
    (hagree : InterfacesAgree disk.globalCache cacheLocal.interfaces.entries) (name : String)
    (hname : (temp.interfaces.get? name).isSome = true) : disk.globalCache.interfaces.get? name = none := by
  obtain ⟨itf, hget⟩ := Option.isSome_iff_exists.1 hname
  have hnew : cacheLocal.interfaces.get? name = some (renamedInterface itf) := by
    rw [(mergeOf_mergeCaches hvalidated).interfaces, get?_interfaces_renamedTemp, hget,
      Disk.localCache_of_none hnone]
    rfl
  rw [← Option.not_isSome_iff_eq_none]
  intro hglobal
  have htree := hagree (name, renamedInterface itf) ((Table.mem_entries_iff _ _ _).2 hnew) hglobal
  cases htree

/-- **When the caches can be loaded after a registration**: exactly if no template that was registered conflicts with
one of the global cache and, where there was no local cache file, no interface that was registered is in it. -/
theorem loads_after_register_iff {s : Session} (h : Registers env disk s disk') :
    (∃ st', loadCache env disk' = .ok (true, st')) ↔
      (∀ table hash, ConflictFree env.ignoreConflicts (disk.globalCache.bucket table hash)
        (s.temp.bucket table hash)) ∧
      (disk.cacheLocal = none → ∀ name, (s.temp.interfaces.get? name).isSome = true →
        disk.globalCache.interfaces.get? name = none) := by
  obtain ⟨b, st, items, fs, fs', cacheLocal, hload, -, hvalidate, hdisk⟩ := h.run
  subst hdisk
  obtain ⟨-, hvalidated⟩ := validateDiff_eq_some hvalidate
  obtain ⟨-, hlocal, -, hcache⟩ := loadCache_ok hload
  rw [hlocal] at hvalidated
  have hmerge := mergeable_of_loadCache hload
  constructor
  · rintro ⟨st', hload'⟩
    obtain ⟨-, hmerge', -⟩ := loadCache_eq_true_iff.1 hload'
    obtain ⟨hagree, -, hfree⟩ := mergeCaches_exists_iff.1 ⟨_, hmerge'⟩
    exact ⟨fun table hash => (conflictFree_registered hmerge hvalidated table hash).1 (hfree table hash),
      fun hnone => fresh_of_interfacesAgree hnone hvalidated hagree⟩
  · rintro ⟨hconflicts, hnone⟩
    have hfresh : ∀ name, (s.temp.interfaces.get? name).isSome = true →
        disk.globalCache.interfaces.get? name = none := by
      intro name hname
      rcases hcache with ⟨hlocalNone, -⟩ | ⟨-, hmerged⟩
      · exact hnone hlocalNone name hname
      · -- an interface of the global cache is one the session has seen
        have hnew := h.interfaces_fresh hload hname
        rw [(mergeOf_mergeCaches hmerged).interfaces, mergedInterface_eq_none] at hnew
        exact hnew.1
    obtain ⟨-, hrefs, -⟩ := mergeCaches_exists_iff.1 hmerge
    obtain ⟨merged, hmerge'⟩ := mergeCaches_exists_iff.2 ⟨interfacesAgree_registered hmerge hvalidated hfresh,
      (mergeOf_mergeCaches hvalidated).wellReferenced hrefs,
      fun table hash => (conflictFree_registered hmerge hvalidated table hash).2 (hconflicts table hash)⟩
    exact ⟨⟨_, _, ⟨merged, _, _⟩⟩, loadCache_eq_true_iff.2 ⟨rfl, hmerge', rfl⟩⟩

end Register

/-- The template `Open()` in the global cache, and an empty local one. -/
def openDisk : Disk := ⟨.ofFiles [], some (initCache ⟨"Open", .refl true⟩), some Cache.empty⟩

/-- The interface `LKM` in the global cache, and no local one. -/
def lkmDisk : Disk :=
  ⟨.ofFiles [], some { Cache.empty with interfaces := Table.empty.set "LKM" ⟨"LKM", some "LKM.tree", []⟩ }, none⟩

/-- Registered once more, the template makes the caches unusable, and so does the interface. -/
theorem loads_not_after_open :
    (∃ s disk', Registers libEnv openDisk s disk' ∧ ¬ ∃ st', loadCache libEnv disk' = .ok (true, st')) ∧
      ∃ s disk', Registers libEnv lkmDisk s disk' ∧ ¬ ∃ st', loadCache libEnv disk' = .ok (true, st') := by
  constructor
  · have hregisters : ∃ s disk', Registers libEnv openDisk s disk' ∧
        (s.temp.bucket .sequences "Open()").map CachedTemplate.withConfig =
          (openDisk.globalCache.bucket .sequences "Open()").map CachedTemplate.withConfig :=
      ⟨_, _, ⟨true, _, [initBlock ⟨"Open", rfl⟩], initFiles ⟨"Open", rfl⟩, _, _, rfl, rfl, rfl, rfl⟩, rfl⟩
    obtain ⟨s, disk', h, hsame⟩ := hregisters
    refine ⟨s, disk', h, fun hloads => ?_⟩
    rcases ((loads_after_register_iff h).1 hloads).1 .sequences "Open()" with hignore | ⟨-, hdisjoint⟩
    · cases hignore
    · rw [hsame] at hdisjoint
      exact hdisjoint (List.mem_singleton.2 rfl) (List.mem_singleton.2 rfl)
  · have hregisters : ∃ s disk', Registers libEnv lkmDisk s disk' ∧
        (s.temp.interfaces.get? "LKM").isSome = true :=
      ⟨_, _, ⟨false, _, [.itf "LKM"], .ofFiles [("LKM.tree", "the tree")], _, _, rfl, rfl, rfl, rfl⟩, rfl⟩
    obtain ⟨s, disk', h, hname⟩ := hregisters
    refine ⟨s, disk', h, fun hloads => ?_⟩
    have hnone := ((loads_after_register_iff h).1 hloads).2 rfl "LKM" hname
    cases hnone

/-! ## Nothing is lost -/

section Visible

variable {env : LinkEnv} {disk disk' : Disk}

theorem Visible.refl (cache : Cache) : Visible cache cache where
  interfaces _ itf h := ⟨itf, h, fun _ => rfl, List.Subset.refl _⟩
  globalCode := List.Subset.refl _
  templates _ _ tpl h := ⟨tpl.chunks, h⟩
  chunks _ := List.Subset.refl _

theorem Visible.trans {cache₁ cache₂ cache₃ : Cache} (h : Visible cache₁ cache₂) (h' : Visible cache₂ cache₃) :
    Visible cache₁ cache₃ where
  interfaces name itf hget := by
    obtain ⟨itf₂, hget₂, htree, hext⟩ := h.interfaces name itf hget
    obtain ⟨itf₃, hget₃, htree', hext'⟩ := h'.interfaces name itf₂ hget₂
    refine ⟨itf₃, hget₃, fun hsome => ?_, List.Subset.trans hext hext'⟩
    rw [htree' (by rw [htree hsome]; exact hsome), htree hsome]
  globalCode := List.Subset.trans h.globalCode h'.globalCode
  templates table hash tpl htpl := by
    obtain ⟨refs, hmem⟩ := h.templates table hash tpl htpl
    obtain ⟨refs', hmem'⟩ := h'.templates table hash _ hmem
    exact ⟨refs', hmem'⟩
  chunks name := List.Subset.trans (h.chunks name) (h'.chunks name)

/-- What a template contributes stays the same when the arrays of chunks grow at their ends. -/
theorem mem_contribution_of_prefix {cache cache' : Cache} {tpl : CachedTemplate} {name : String} {c : CachedChunk}
    (hgrow : cache.chunkList name <+: cache'.chunkList name) (h : c ∈ contribution cache tpl name) :
    c ∈ contribution cache' tpl name := by
  obtain ⟨id, hget, hat⟩ := mem_contribution.1 h
  exact mem_contribution.2 ⟨id, hget, Cache.chunkAt_of_prefix hgrow hat⟩

/-- Merging with a cache that has grown shows all that merging with the old one did. -/
theorem MergeOf.visible_grown {cache1 cache2 cache2' new dst dst' : Cache} (h : MergeOf cache1 cache2 dst)
    (hgrown : MergeOf cache2 new cache2') (h' : MergeOf cache1 cache2' dst') : Visible dst dst' := by
  constructor
  case interfaces =>
    intro name itf hget
    rw [h'.interfaces, hgrown.interfaces, ← mergedInterface_assoc, ← h.interfaces, hget]
    exact exists_mergedInterface itf _
  case globalCode =>
    rw [h.globalCode, h'.globalCode, hgrown.globalCode, ← List.append_assoc]
    exact List.subset_append_left _ _
  case templates =>
    intro table hash tpl htpl
    obtain ⟨copies, hbucket, hcopies⟩ := h.buckets table hash
    rw [hbucket] at htpl
    rcases List.mem_append.1 htpl with hold | hcopy
    · exact h'.visible_first.templates table hash tpl hold
    · obtain ⟨orig, horig, hcopyOf⟩ := exists_left_of_forall₂ hcopies hcopy
      obtain ⟨refs, rfl⟩ := hcopyOf.template
      obtain ⟨more, hmore, -⟩ := hgrown.buckets table hash
      have hmem : orig ∈ cache2'.bucket table hash := by
        rw [hmore]
        exact List.mem_append_left _ horig
      obtain ⟨refs', hdst⟩ := h'.exists_copy hmem
      exact ⟨refs', hdst⟩
  case chunks =>
    intro name c hc
    rcases h.mem_chunkList.1 hc with hold | ⟨table, hash, tpl, htpl, hcontribution⟩
    · exact h'.mem_chunkList.2 (.inl hold)
    · obtain ⟨more, hmore, -⟩ := hgrown.buckets table hash
      refine h'.mem_chunkList.2 (.inr ⟨table, hash, tpl, ?_, ?_⟩)
      · rw [hmore]
        exact List.mem_append_left _ htpl
      · exact mem_contribution_of_prefix ⟨_, (hgrown.chunks name).symm⟩ hcontribution

/-- **One run** other than `cache clear` hides nothing from a later one. -/
theorem Change.visible {op : Operation} {b b' : Bool} {st st' : Linker} (h : Change env disk op disk')
    (hop : op ≠ .cacheClear) (hload : loadCache env disk = .ok (b, st))
    (hload' : loadCache env disk' = .ok (b', st')) : Visible st.session.cache st'.session.cache := by
  obtain ⟨-, -, -, ⟨hnone, hcache⟩ | ⟨hsome, hmerge⟩⟩ := loadCache_ok hload
  · -- without a local cache the run has seen nothing
    rw [hcache]
    exact noEntries_empty.visible _
  · cases h with
    | unchanged op files =>
      have hsame : loadCache env { disk with files := files } = loadCache env disk := rfl
      rw [hsame, hload] at hload'
      cases hload'
      exact Visible.refl _
    | cleared => exact absurd rfl hop
    | installed cache hinstalled =>
      obtain ⟨-, -, -, ⟨hnone, -⟩ | ⟨-, hmerge'⟩⟩ := loadCache_ok hload'
      · cases hnone
      · obtain rfl : cache = st.session.cache := Except.ok.inj (hinstalled.symm.trans hmerge)
        exact (mergeOf_mergeCaches hmerge').visible_first
    | registered op s disk' hregisters =>
      obtain ⟨b₀, st₀, items, fs, fs', cacheLocal, hload₀, -, hvalidate, rfl⟩ := hregisters.run
      obtain ⟨rfl, rfl⟩ := Prod.mk.inj (Except.ok.inj (hload.symm.trans hload₀))
      obtain ⟨-, hlocal, -⟩ := loadCache_ok hload
      obtain ⟨-, -, -, ⟨hnone, -⟩ | ⟨-, hmerge'⟩⟩ := loadCache_ok hload'
      · cases hnone
      · have hvalidated := (validateDiff_eq_some hvalidate).2
        rw [hlocal] at hvalidated
        exact (mergeOf_mergeCaches hmerge).visible_grown (mergeOf_mergeCaches hvalidated)
          (mergeOf_mergeCaches hmerge')

/-- A run from a disk to one that can be loaded starts from one that can be loaded. -/
theorem Run.loads {allowed : Option Operation → Prop} (h : Run env allowed disk disk') {r : Bool × Linker}
    (hload : loadCache env disk' = .ok r) : ∃ r, loadCache env disk = .ok r := by
  rcases h.cases_change with ⟨files, rfl⟩ | ⟨op, -, hloaded, -⟩
  · exact ⟨r, hload⟩
  · exact hloaded

theorem History.loads {allowed : Option Operation → Prop} (h : History env allowed disk disk') {r : Bool × Linker}
    (hload : loadCache env disk' = .ok r) : ∃ r, loadCache env disk = .ok r := by
  induction h generalizing r with
  | refl => exact ⟨r, hload⟩
  | tail _ hrun ih =>
    obtain ⟨r', hload'⟩ := hrun.loads hload
    exact ih hload'

theorem History.visible {b b' : Bool} {st st' : Linker}
    (h : History env (fun op => op ≠ some .cacheClear) disk disk') (hload : loadCache env disk = .ok (b, st))
    (hload' : loadCache env disk' = .ok (b', st')) : Visible st.session.cache st'.session.cache := by
  induction h generalizing b' st' with
  | refl =>
    obtain ⟨rfl, rfl⟩ := Prod.mk.inj (Except.ok.inj (hload.symm.trans hload'))
    exact Visible.refl _
  | tail _ hrun ih =>
    obtain ⟨⟨bm, stm⟩, hmid⟩ := hrun.loads hload'
    refine (ih hmid).trans ?_
    rcases hrun.cases_change with ⟨files, rfl⟩ | ⟨op, hop, -, hchange⟩
    · exact (Change.unchanged .generate files).visible (by decide) hmid hload'
    · exact hchange.visible (fun heq => hop (congrArg some heq)) hmid hload'

/-- An interface that was registered is seen by a run that loads the caches next. -/
theorem Registers.interface_seen {s : Session} {b : Bool} {st : Linker} (h : Registers env disk s disk')
    (hload : loadCache env disk' = .ok (b, st)) {name : String} (hname : (s.temp.interfaces.get? name).isSome = true) :
    (st.session.cache.interfaces.get? name).isSome = true := by
  obtain ⟨b₀, st₀, items, fs, fs', cacheLocal, -, -, hvalidate, rfl⟩ := h.run
  obtain ⟨-, -, -, ⟨hnone, -⟩ | ⟨-, hmerge⟩⟩ := loadCache_ok hload
  · cases hnone
  · rw [Option.isSome_iff_ne_none, (mergeOf_mergeCaches hmerge).interfaces, ne_eq, mergedInterface_eq_none]
    rintro ⟨-, hnone⟩
    have hnone : cacheLocal.interfaces.get? name = none := hnone
    rw [(mergeOf_mergeCaches (validateDiff_eq_some hvalidate).2).interfaces, mergedInterface_eq_none,
      get?_interfaces_renamedTemp, Option.map_eq_none_iff] at hnone
    rw [hnone.2] at hname
    cases hname

/-- **Nothing is lost, and nothing is registered twice.** What a run sees of interfaces, global code, templates and
chunks, every later run sees that gets to load its caches, if `cache clear` was not asked for in between; and an
interface that a run has registered is not registered by any of them. -/
theorem kept_and_once {s s' : Session} {disk₁ disk₂ disk₃ : Disk} (h : Registers env disk s disk₁)
    (hhistory : History env (fun op => op ≠ some .cacheClear) disk₁ disk₂) :
    (∀ b b' st st', loadCache env disk₁ = .ok (b, st) → loadCache env disk₂ = .ok (b', st') →
      Visible st.session.cache st'.session.cache) ∧
    (Registers env disk₂ s' disk₃ → ∀ name, (s.temp.interfaces.get? name).isSome = true →
      s'.temp.interfaces.get? name = none) := by
  constructor
  · exact fun b b' st st' hload hload' => hhistory.visible hload hload'
  · intro h' name hname
    obtain ⟨b₂, st₂, _, _, _, _, hload₂, -⟩ := h'.run
    obtain ⟨⟨b₁, st₁⟩, hload₁⟩ := hhistory.loads hload₂
    obtain ⟨itf, hitf⟩ := Option.isSome_iff_exists.1 (h.interface_seen hload₁ hname)
    obtain ⟨itf', hitf', -⟩ := (hhistory.visible hload₁ hload₂).interfaces name itf hitf
    rw [← Option.not_isSome_iff_eq_none]
    intro hagain
    rw [h'.interfaces_fresh hload₂ hagain] at hitf'
    cases hitf'

end Visible

/-- Three runs: one registers an interface, one checks a file, and one registers another interface. The last one sees
the first interface and does not register it again. -/
theorem registers_lkm_then_net : ∃ s disk₁ s' disk₃,
    Registers libEnv ⟨.ofFiles [], none, some Cache.empty⟩ s disk₁ ∧
      rathaxes libEnv (itemPasses [] (.ofFiles [])) "rti-check" "" disk₁ = .ok { disk₁ with files := .ofFiles [] } ∧
        Registers libEnv { disk₁ with files := .ofFiles [] } s' disk₃ ∧
          (s.temp.interfaces.get? "LKM").isSome = true ∧ s'.temp.interfaces.get? "LKM" = none ∧
            ∃ b b' st st', loadCache libEnv disk₁ = .ok (b, st) ∧
              loadCache libEnv { disk₁ with files := .ofFiles [] } = .ok (b', st') ∧
                Visible st.session.cache st'.session.cache := by
  have hruns : ∃ s disk₁ s' disk₃ b b' st st',
      Registers libEnv ⟨.ofFiles [], none, some Cache.empty⟩ s disk₁ ∧
        rathaxes libEnv (itemPasses [] (.ofFiles [])) "rti-check" "" disk₁ = .ok { disk₁ with files := .ofFiles [] } ∧
          Registers libEnv { disk₁ with files := .ofFiles [] } s' disk₃ ∧
            (s.temp.interfaces.get? "LKM").isSome = true ∧ loadCache libEnv disk₁ = .ok (b, st) ∧
              loadCache libEnv { disk₁ with files := .ofFiles [] } = .ok (b', st') :=
    ⟨_, _, _, _, _, _, _, _, ⟨true, _, [.itf "LKM"], .ofFiles [("LKM.tree", "the tree")], _, _, rfl, rfl, rfl, rfl⟩,
      rfl, ⟨true, _, [.itf "Net"], .ofFiles [("Net.tree", "the tree")], _, _, rfl, rfl, rfl, rfl⟩, rfl, rfl, rfl⟩
  obtain ⟨s, disk₁, s', disk₃, b, b', st, st', h, hcheck, h', hname, hload, hload'⟩ := hruns
  have hhistory : History libEnv (fun op => op ≠ some .cacheClear) disk₁ { disk₁ with files := .ofFiles [] } :=
    .single (.done _ "rti-check" "" _ (by decide) hcheck)
  obtain ⟨hvisible, honce⟩ := kept_and_once h hhistory
  exact ⟨s, disk₁, s', disk₃, h, hcheck, h', hname, honce h' "LKM" hname, b, b', st, st', hload, hload',
    hvisible b b' st st' hload hload'⟩

end Rathaxes.Link
