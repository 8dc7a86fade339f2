import Mathlib.Data.List.Induction
import Rathaxes.Laws.Merge

/-!
# What registration leaves in the differential cache

A template is described by the chunks it registers: under each pointcut they are appended in the order
of the body, and the template refers to the last of them (`registerTemplate_spec`). A merge walks the
chunks through the templates, so the chunks no template refers to are those it loses: the chunks that
stand alone in a with-block, and of several chunks for one pointcut in one template all but the last.
Without these a merge keeps every chunk (`mergeCaches_keeps_chunks`).

Registration does not look for a template where templates are filed: every template registered is
added, whatever the session holds (`singleTpl_iff`).
-/

set_option autoImplicit false

namespace Rathaxes

open CodeWorker Link

/-! ## The chunks of a template -/

/-- The name a chunk is filed under. -/
def Chunk.pointcutName (c : Chunk) : String := c.pointcut.rtxRTypeFullQualifiedName

/-- The hash a template is filed under. -/
def Template.hash (t : Template) : String := t.prototype.rtxRTypeFullQualifiedName

/-- The table a template is filed in. -/
def Template.table (t : Template) : TplTable :=
  match t.tplType with
  | .sequence => .sequences
  | .type => .types
  | .builtintype => .types

/-- The chunks of a template that go to the table of chunks: all but the methods of a type. -/
def Template.registered (t : Template) : List Chunk :=
  match t.tplType with
  | .sequence => t.body
  | .type => t.body.filter fun c => c.chunkType ≠ .method
  | .builtintype => t.body.filter fun c => c.chunkType ≠ .method

/-- The methods of a type template, which stay with the template. -/
def Template.methods (t : Template) : List Chunk :=
  match t.tplType with
  | .sequence => []
  | .type => t.body.filter fun c => c.chunkType = .method
  | .builtintype => t.body.filter fun c => c.chunkType = .method

/-- The files recorded for a template: those of a type's mapping. -/
def Template.recordedMapping (t : Template) : Option MappingFiles :=
  match t.tplType with
  | .sequence => none
  | .type => mappingFiles t
  | .builtintype => mappingFiles t

namespace Link

/-- The chunks for one pointcut. -/
def namesakes (cs : List Chunk) (name : String) : List Chunk :=
  cs.filter fun c => c.pointcutName = name

theorem namesakes_concat (cs : List Chunk) (c : Chunk) (name : String) :
    namesakes (cs ++ [c]) name = namesakes cs name ++ if c.pointcutName = name then [c] else [] := by
  unfold namesakes
  rw [List.filter_append]
  by_cases h : c.pointcutName = name <;> simp [h]

theorem chunkList_registerChunk (cache : Cache) (c : Chunk) (hash name : String) :
    (cache.registerChunk c hash).chunkList name =
      cache.chunkList name ++ if c.pointcutName = name then [cachedChunk c hash] else [] := by
  refine (Cache.chunkList_pushChunk cache c.pointcutName name (cachedChunk c hash)).trans ?_
  by_cases h : c.pointcutName = name
  · simp [h]
  · simp [h, Ne.symm h]

/-- The entries of methods, one after the other. -/
def addMethods (methods : Table CachedMethod) (ms : List Chunk) : Table CachedMethod :=
  ms.foldl (fun t c => t.set c.pointcutName ⟨c.pointcutName, c.files.scriptFile, c.files.treeFile⟩)
    methods

/-- The loop over a template's body: where it started, the chunks and the methods registered so far,
where it stands. -/
structure BodyRegistered (hash : String) (start : Cache × CachedTemplate) (cs ms : List Chunk)
    (acc : Cache × CachedTemplate) : Prop where
  cache : ∃ chunks, acc.1 = { start.1 with chunks := chunks }
  withConfig : acc.2.withConfig = start.2.withConfig
  mapping : acc.2.mapping = start.2.mapping
  methods : acc.2.methods = addMethods start.2.methods ms
  lists : ∀ name, acc.1.chunkList name =
    start.1.chunkList name ++ (namesakes cs name).map fun c => cachedChunk c hash
  absent : ∀ name, namesakes cs name = [] → acc.2.chunks.get? name = start.2.chunks.get? name
  present : ∀ name, namesakes cs name ≠ [] →
    acc.2.chunks.get? name = some ((acc.1.chunkList name).length - 1)

namespace BodyRegistered

variable {hash : String} {start acc : Cache × CachedTemplate} {cs ms : List Chunk}

theorem start_nil (hash : String) (start : Cache × CachedTemplate) :
    BodyRegistered hash start [] [] start where
  cache := ⟨start.1.chunks, rfl⟩
  withConfig := rfl
  mapping := rfl
  methods := rfl
  lists _ := (List.append_nil _).symm
  absent _ _ := rfl
  present _ h := absurd rfl h

/-- One chunk more. -/
theorem chunk (h : BodyRegistered hash start cs ms acc) (c : Chunk) :
    BodyRegistered hash start (cs ++ [c]) ms (registerTplChunk hash acc c) := by
  have hlist : ∀ name, (registerTplChunk hash acc c).1.chunkList name =
      acc.1.chunkList name ++ if c.pointcutName = name then [cachedChunk c hash] else [] :=
    chunkList_registerChunk acc.1 c hash
  have hget : ∀ name, (registerTplChunk hash acc c).2.chunks.get? name =
      if name = c.pointcutName then some (acc.1.chunkList c.pointcutName).length
      else acc.2.chunks.get? name :=
    fun name => Table.get?_set acc.2.chunks c.pointcutName name _
  constructor
  case cache =>
    obtain ⟨chunks, hcache⟩ := h.cache
    exact ⟨_, by rw [registerTplChunk, Cache.registerChunk, hcache]⟩
  case withConfig => exact h.withConfig
  case mapping => exact h.mapping
  case methods => exact h.methods
  case lists =>
    intro name
    rw [hlist, h.lists, namesakes_concat, List.map_append, List.append_assoc]
    by_cases hname : c.pointcutName = name <;> simp [hname]
  case absent =>
    intro name hnone
    rw [namesakes_concat, List.append_eq_nil_iff] at hnone
    have hname : name ≠ c.pointcutName := by
      rintro rfl
      simp at hnone
    rw [hget, if_neg hname]
    exact h.absent name hnone.1
  case present =>
    intro name hsome
    rw [hget, hlist]
    by_cases hname : name = c.pointcutName
    · simp [hname]
    · rw [if_neg hname, if_neg (Ne.symm hname), List.append_nil]
      apply h.present
      intro hnone
      apply hsome
      simp [namesakes_concat, hnone, Ne.symm hname]

/-- One method more. -/
theorem method (h : BodyRegistered hash start cs ms acc) (c : Chunk) :
    BodyRegistered hash start cs (ms ++ [c]) (acc.1, { acc.2 with
      methods := addMethods acc.2.methods [c] }) where
  cache := h.cache
  withConfig := h.withConfig
  mapping := h.mapping
  methods := by
    rw [h.methods, addMethods, addMethods, addMethods, List.foldl_append]
  lists := h.lists
  absent := h.absent
  present := h.present

/-- A turn of the loop over a type template's body. -/
theorem typeChunk (h : BodyRegistered hash start cs ms acc) (c : Chunk) :
    BodyRegistered hash start (cs ++ [c].filter fun c => c.chunkType ≠ .method)
      (ms ++ [c].filter fun c => c.chunkType = .method) (registerTypeChunk hash acc c) := by
  unfold registerTypeChunk
  cases htype : c.chunkType with
  | chunk => simpa [htype] using h.chunk c
  | decl =>
    have hc := h.chunk c
    simp only [List.filter_singleton, htype, ne_eq, reduceCtorEq, not_false_eq_true, decide_true,
      decide_false, cond_true, cond_false, List.append_nil]
    exact ⟨hc.cache, hc.withConfig, hc.mapping, hc.methods, hc.lists, hc.absent, hc.present⟩
  | method => simpa [htype, addMethods, Chunk.pointcutName] using h.method c

/-- The whole body, of which each turn registers the chunks that pass one test and keeps the methods
that pass another. -/
theorem run {step : Cache × CachedTemplate → Chunk → Cache × CachedTemplate} {p q : Chunk → Bool}
    (hstep : ∀ cs ms acc c, BodyRegistered hash start cs ms acc →
      BodyRegistered hash start (cs ++ [c].filter p) (ms ++ [c].filter q) (step acc c)) :
    ∀ (body cs ms : List Chunk) (acc : Cache × CachedTemplate), BodyRegistered hash start cs ms acc →
      BodyRegistered hash start (cs ++ body.filter p) (ms ++ body.filter q) (body.foldl step acc)
  | [], cs, ms, acc, h => by simpa using h
  | c :: body, cs, ms, acc, h => by
    have hrest := run hstep body _ _ _ (hstep cs ms acc c h)
    rwa [List.append_assoc, List.append_assoc, ← List.filter_append, ← List.filter_append,
      List.singleton_append] at hrest

end BodyRegistered

/-! ## One template -/

/-- `rtxLink_SessionRegisterTpl<T>` on one of the two caches. -/
def Cache.registerTemplate (cache : Cache) (t : Template) (withValues : WithConfig) : Cache :=
  match t.tplType with
  | .sequence => cache.registerSequence t withValues
  | .type => cache.registerType t withValues
  | .builtintype => cache.registerType t withValues

theorem registerTpl_eq (s : Session) (t : Template) (withValues : WithConfig) :
    registerTpl s t withValues = if checkSingleTpl s.cache t.hash withValues then s
      else s.updateBoth fun cache => cache.registerTemplate t withValues := by
  unfold registerTpl Cache.registerTemplate
  cases t.tplType <;> rfl

theorem mem_contribution {cache : Cache} {tpl : CachedTemplate} {name : String} {c : CachedChunk} :
    c ∈ contribution cache tpl name ↔
      ∃ id, tpl.chunks.get? name = some id ∧ cache.chunkAt name id = some c := by
  unfold contribution
  rw [Option.mem_toList, Option.bind_eq_some_iff]

/-- What registering a template does: the chunks, and the template that is filed. -/
structure TplRegistered (cache : Cache) (t : Template) (withValues : WithConfig)
    (tpl : CachedTemplate) (cache' : Cache) : Prop where
  filed : ∃ chunks, cache' = Cache.setTable { cache with chunks := chunks } t.table
    (pushUnder (cache.table t.table) t.hash tpl)
  withConfig : tpl.withConfig = withValues
  mapping : tpl.mapping = t.recordedMapping
  methods : tpl.methods = addMethods Table.empty t.methods
  lists : ∀ name, cache'.chunkList name =
    cache.chunkList name ++ (namesakes t.registered name).map fun c => cachedChunk c t.hash
  references : ∀ name id, tpl.chunks.get? name = some id →
    (cache.chunkList name).length ≤ id ∧ (cache'.chunkAt name id).isSome
  contribution : ∀ name, contribution cache' tpl name =
    ((namesakes t.registered name).getLast?.map fun c => cachedChunk c t.hash).toList

/-- A body registered for a template that starts without chunks. -/
theorem BodyRegistered.tplRegistered {cache : Cache} {t : Template} {withValues : WithConfig}
    {acc : Cache × CachedTemplate}
    (h : BodyRegistered t.hash (cache, newTemplate t withValues t.recordedMapping) t.registered
      t.methods acc) :
    TplRegistered cache t withValues acc.2
      (acc.1.setTable t.table (pushUnder (acc.1.table t.table) t.hash acc.2)) := by
  have hget : ∀ name, namesakes t.registered name = [] → acc.2.chunks.get? name = none := by
    intro name hnone
    rw [h.absent name hnone]
    rfl
  constructor
  case filed =>
    obtain ⟨chunks, hcache⟩ := h.cache
    refine ⟨chunks, ?_⟩
    rw [hcache]
    cases t.table <;> rfl
  case withConfig => exact h.withConfig
  case mapping => exact h.mapping
  case methods => exact h.methods
  case lists =>
    intro name
    rw [Cache.chunkList_setTable]
    exact h.lists name
  case references =>
    intro name id hid
    by_cases hnone : namesakes t.registered name = []
    · rw [hget name hnone] at hid
      cases hid
    · rw [h.present name hnone, Option.some.injEq] at hid
      subst hid
      have hlength := List.length_pos_iff.2 hnone
      have hlists : (acc.1.chunkList name).length =
          (cache.chunkList name).length + (namesakes t.registered name).length := by
        rw [h.lists, List.length_append, List.length_map]
      refine ⟨by omega, ?_⟩
      unfold Cache.chunkAt
      rw [Cache.chunkList_setTable, Option.isSome_iff_ne_none, ne_eq, List.getElem?_eq_none_iff]
      omega
  case contribution =>
    intro name
    unfold Link.contribution Cache.chunkAt
    by_cases hnone : namesakes t.registered name = []
    · rw [hget name hnone, hnone]
      rfl
    · rw [h.present name hnone, Option.bind_some, Cache.chunkList_setTable, h.lists,
        ← List.getLast?_eq_getElem?, List.getLast?_append_of_ne_nil, List.getLast?_map]
      simpa using hnone

/-- **What registering a template does to a cache.** -/
theorem registerTemplate_spec (cache : Cache) (t : Template) (withValues : WithConfig) :
    ∃ tpl, TplRegistered cache t withValues tpl (cache.registerTemplate t withValues) := by
  have hstart := BodyRegistered.start_nil t.hash (cache, newTemplate t withValues t.recordedMapping)
  have htype := BodyRegistered.run (fun _ _ _ c h => h.typeChunk c) t.body [] [] _ hstart
  have hsequence := BodyRegistered.run (p := fun _ => true) (q := fun _ => false)
    (fun _ _ _ c h => by simpa using h.chunk c) t.body [] [] _ hstart
  rw [List.filter_true, List.filter_false] at hsequence
  rw [List.nil_append, List.nil_append] at htype hsequence
  have hspec := @BodyRegistered.tplRegistered cache t withValues
  unfold Cache.registerTemplate
  unfold Template.registered Template.methods Template.recordedMapping Template.table at *
  cases htplType : t.tplType with
  | sequence =>
    simp only [htplType] at hspec hsequence
    exact ⟨_, hspec hsequence⟩
  | type =>
    simp only [htplType] at hspec htype
    exact ⟨_, hspec htype⟩
  | builtintype =>
    simp only [htplType] at hspec htype
    exact ⟨_, hspec htype⟩

namespace TplRegistered

variable {cache cache' : Cache} {t : Template} {withValues : WithConfig} {tpl : CachedTemplate}

/-- The arrays of chunks grow at their ends. -/
theorem grow (h : TplRegistered cache t withValues tpl cache') (name : String) :
    cache.chunkList name <+: cache'.chunkList name :=
  ⟨_, (h.lists name).symm⟩

theorem bucket (h : TplRegistered cache t withValues tpl cache') (table : TplTable) (hash : String) :
    cache'.bucket table hash = if table = t.table ∧ hash = t.hash then
      cache.bucket t.table t.hash ++ [tpl] else cache.bucket table hash := by
  obtain ⟨chunks, heq⟩ := h.filed
  have hbucket : ∀ table hash,
      Cache.bucket { cache with chunks := chunks } table hash = cache.bucket table hash := by
    intro table hash
    cases table <;> rfl
  have htable : Cache.table { cache with chunks := chunks } t.table = cache.table t.table := by
    cases t.table <;> rfl
  rw [heq, ← htable, Cache.bucket_push, hbucket, hbucket]

/-- A template of the new cache is one of the old cache or the one registered. -/
theorem mem_bucket (h : TplRegistered cache t withValues tpl cache') {table : TplTable} {hash : String}
    {old : CachedTemplate} (hold : old ∈ cache'.bucket table hash) :
    old ∈ cache.bucket table hash ∨ old = tpl := by
  rw [h.bucket] at hold
  split at hold
  · rename_i hplace
    obtain ⟨rfl, rfl⟩ := hplace
    simpa using hold
  · exact Or.inl hold

/-- References stay good. -/
theorem wellReferenced (h : TplRegistered cache t withValues tpl cache')
    (hcache : WellReferenced cache) : WellReferenced cache' := by
  intro table hash old hold name id hid
  rcases h.mem_bucket hold with hold | rfl
  · obtain ⟨c, hat⟩ := Option.isSome_iff_exists.1 (hcache table hash old hold name id hid)
    rw [Cache.chunkAt_of_prefix (h.grow name) hat]
    rfl
  · exact (h.references name id hid).2

end TplRegistered

/-! ## The differential cache over a run -/

/-- The entry of an interface with one more extension. -/
def extendedBy (itf : Option CachedInterface) (ext : CachedExtension) : CachedInterface :=
  let itf := itf.getD ⟨"", none, []⟩
  { itf with extensions := itf.extensions ++ [ext] }

/-- What a registration can do to the differential cache. -/
inductive TempStep : Registration → Cache → Cache → Prop where
  | unchanged (r : Registration) (cache : Cache) : TempStep r cache cache
  | globalCode (w : WithNode) (cBlock : CBlock) (files : Files) (cache : Cache) :
    TempStep (.globalCode w cBlock files) cache
      { cache with globalCode := cache.globalCode ++ [globalCodeEntry w files] }
  | tpl (t : Template) (withValues : WithConfig) (cache : Cache) :
    TempStep (.tpl t withValues) cache (cache.registerTemplate t withValues)
  | chunk (c : Chunk) (cache : Cache) : TempStep (.chunk c) cache (cache.registerChunk c "")
  | itf (name : String) (cache : Cache) :
    TempStep (.itf name) cache
      { cache with interfaces := cache.interfaces.set name ⟨name, some (name ++ ".tree"), []⟩ }
  | itfExtension (name : String) (withValues : WithConfig) (idx : Nat) (cache : Cache) :
    TempStep (.itfExtension name withValues) cache
      { cache with
        interfaces := cache.interfaces.set name (extendedBy (cache.interfaces.get? name)
          ⟨withValues, name ++ "_ext_" ++ toString idx ++ ".tree"⟩) }

theorem tempStep_of_step {s s' : Session} {r : Registration} (h : r.step s = .ok s') :
    TempStep r s.temp s'.temp := by
  cases r with
  | globalCode w cBlock files =>
    cases h
    unfold registerGlobalCode
    split
    · exact .unchanged _ _
    · split
      · exact .unchanged _ _
      · exact .globalCode w cBlock files s.temp
  | tpl t withValues =>
    cases h
    rw [registerTpl_eq]
    split
    · exact .unchanged _ _
    · exact .tpl t withValues s.temp
  | chunk c =>
    cases h
    exact .chunk c s.temp
  | itf name =>
    simp only [Registration.step, registerItf] at h
    split at h
    · split at h
      · cases h
        exact .unchanged _ _
      · cases h
    · cases h
      exact .itf name s.temp
  | itfExtension name withValues =>
    simp only [Registration.step, registerItfExtension] at h
    split at h
    · cases h
    · cases h
      exact .itfExtension name withValues _ s.temp
  | unknown T => cases h

/-- What every step preserves holds of the differential cache after a run. -/
theorem temp_invariant {P : Cache → Prop} {items : List Item} {s s' : Session}
    {withValues : WithConfig} (hstep : ∀ r ∈ registrationsAll withValues items, ∀ cache cache',
      TempStep r cache cache' → P cache → P cache') (hs : P s.temp)
    (h : sessionRegisterAll s withValues items = .ok s') : P s'.temp := by
  rw [sessionRegisterAll_eq] at h
  refine foldlM_invariant (P := fun s => P s.temp) ?_ hs h
  intro s₁ r s₂ hr hs₁ hrun
  exact hstep r hr s₁.temp s₂.temp (tempStep_of_step hrun) hs₁

/-! ## Chunks that a template refers to -/

/-- Every chunk is one that a template refers to. -/
def ChunksReferred (cache : Cache) : Prop :=
  ∀ name, ∀ c ∈ cache.chunkList name, ∃ table hash, ∃ tpl ∈ cache.bucket table hash,
    c ∈ contribution cache tpl name

theorem chunksReferred_empty : ChunksReferred Cache.empty := by
  intro name c hc
  cases hc

/-- The registrations that leave no chunk without a reference. -/
def Registration.KeepsChunks : Registration → Prop
  | .globalCode _ _ _ => True
  | .tpl t _ => (t.registered.map Chunk.pointcutName).Nodup
  | .chunk _ => False
  | .itf _ => True
  | .itfExtension _ _ => True
  | .unknown _ => True

instance : (r : Registration) → Decidable r.KeepsChunks
  | .globalCode _ _ _ => inferInstanceAs (Decidable True)
  | .tpl t _ => inferInstanceAs (Decidable (t.registered.map Chunk.pointcutName).Nodup)
  | .chunk _ => inferInstanceAs (Decidable False)
  | .itf _ => inferInstanceAs (Decidable True)
  | .itfExtension _ _ => inferInstanceAs (Decidable True)
  | .unknown _ => inferInstanceAs (Decidable True)

/-- A chunk of a template without repeated pointcuts has no namesake. -/
theorem namesakes_of_nodup {cs : List Chunk} {c : Chunk}
    (hnodup : (cs.map Chunk.pointcutName).Nodup) (hc : c ∈ cs) : namesakes cs c.pointcutName = [c] := by
  induction cs with
  | nil => cases hc
  | cons c' cs ih =>
    rw [List.map_cons, List.nodup_cons] at hnodup
    unfold namesakes at ih ⊢
    rcases List.mem_cons.1 hc with rfl | hc
    · rw [List.filter_cons_of_pos (by simp), List.filter_eq_nil_iff.2]
      intro c'' hc''
      simp only [decide_eq_true_eq]
      intro heq
      exact hnodup.1 (heq ▸ List.mem_map_of_mem hc'')
    · rw [List.filter_cons_of_neg, ih hnodup.2 hc]
      simp only [decide_eq_true_eq]
      intro heq
      exact hnodup.1 (heq ▸ List.mem_map_of_mem hc)

/-- A template without repeated pointcuts refers to all its chunks. -/
theorem ChunksReferred.registerTemplate {cache : Cache} {t : Template} (withValues : WithConfig)
    (h : ChunksReferred cache) (hnodup : (t.registered.map Chunk.pointcutName).Nodup) :
    ChunksReferred (cache.registerTemplate t withValues) := by
  obtain ⟨tpl, htpl⟩ := registerTemplate_spec cache t withValues
  intro name c hc
  rw [htpl.lists, List.mem_append] at hc
  rcases hc with hold | hnew
  · obtain ⟨table, hash, old, hmem, hcontribution⟩ := h name c hold
    refine ⟨table, hash, old, ?_, ?_⟩
    · rw [htpl.bucket]
      split
      · rename_i hplace
        obtain ⟨rfl, rfl⟩ := hplace
        exact List.mem_append_left _ hmem
      · exact hmem
    · obtain ⟨id, hget, hat⟩ := mem_contribution.1 hcontribution
      exact mem_contribution.2 ⟨id, hget, Cache.chunkAt_of_prefix (htpl.grow name) hat⟩
  · obtain ⟨source, hsource, rfl⟩ := List.mem_map.1 hnew
    obtain ⟨hregistered, hname⟩ := List.mem_filter.1 hsource
    refine ⟨t.table, t.hash, tpl, ?_, ?_⟩
    · rw [htpl.bucket, if_pos ⟨rfl, rfl⟩]
      exact List.mem_append_right _ List.mem_cons_self
    · rw [htpl.contribution, ← of_decide_eq_true hname, namesakes_of_nodup hnodup hregistered]
      exact List.mem_cons_self

theorem ChunksReferred.step {r : Registration} {cache cache' : Cache} (h : ChunksReferred cache)
    (hkeeps : r.KeepsChunks) (hstep : TempStep r cache cache') : ChunksReferred cache' := by
  cases hstep with
  | unchanged => exact h
  | globalCode => exact h
  | tpl t withValues => exact h.registerTemplate withValues hkeeps
  | chunk => exact hkeeps.elim
  | itf => exact h
  | itfExtension => exact h

/-- A merge keeps the chunks of the first cache and those that a template of the second one refers
to. -/
theorem MergeOf.mem_chunkList {cache1 cache2 dst : Cache} (h : MergeOf cache1 cache2 dst)
    {name : String} {c : CachedChunk} : c ∈ dst.chunkList name ↔ c ∈ cache1.chunkList name ∨
      ∃ table hash, ∃ tpl ∈ cache2.bucket table hash, c ∈ contribution cache2 tpl name := by
  rw [h.chunks, List.mem_append, List.mem_flatMap]
  apply or_congr Iff.rfl
  constructor
  · rintro ⟨f, hf, hc⟩
    exact ⟨f.table, f.hash, f.tpl, Cache.mem_bucket_iff.2 hf, hc⟩
  · rintro ⟨table, hash, tpl, htpl, hc⟩
    exact ⟨_, Cache.mem_bucket_iff.1 htpl, hc⟩

/-- **No chunk is lost by a merge**, after any run that starts with an empty differential cache and in
which no chunk stands alone and no template has two chunks for one pointcut. -/
theorem mergeCaches_keeps_chunks {s s' : Session} {withValues : WithConfig} {items : List Item}
    {ignoreConflicts : Bool} {cache dst : Cache} (hstart : s.temp = Cache.empty)
    (hkeeps : ∀ r ∈ registrationsAll withValues items, r.KeepsChunks)
    (hrun : sessionRegisterAll s withValues items = .ok s')
    (hmerge : mergeCaches ignoreConflicts cache s'.temp = .ok dst) :
    ∀ name, ∀ c ∈ s'.temp.chunkList name, c ∈ dst.chunkList name := by
  have hreferred : ChunksReferred s'.temp := by
    refine temp_invariant ?_ (hstart ▸ chunksReferred_empty) hrun
    intro r hr cache cache' hstep h
    exact h.step (hkeeps r hr) hstep
  intro name c hc
  exact (mergeOf_mergeCaches hmerge).mem_chunkList.2 (Or.inr (hreferred name c hc))

/-- A with-block that holds the template of the given name. -/
def initBlock (name : Word) : Item :=
  .withBlock (rtxNodeWithOne ⟨"LKM", .refl true⟩ []) ⟨[], []⟩ Files.absent
    [.tpl (initTemplate name)]

theorem mergeCaches_keeps_open : ∃ s dst,
    sessionRegisterAll (Session.fresh false) Table.empty [initBlock ⟨"Open", rfl⟩] = .ok s ∧
      mergeCaches false Cache.empty s.temp = .ok dst ∧
      ∀ name, ∀ c ∈ s.temp.chunkList name, c ∈ dst.chunkList name := by
  have hkeeps : ∀ r ∈ registrationsAll Table.empty [initBlock ⟨"Open", rfl⟩], r.KeepsChunks := by
    decide
  have hrun : ∃ s dst,
      sessionRegisterAll (Session.fresh false) Table.empty [initBlock ⟨"Open", rfl⟩] = .ok s ∧
        mergeCaches false Cache.empty s.temp = .ok dst := ⟨_, _, rfl, rfl⟩
  obtain ⟨s, dst, hrun, hmerge⟩ := hrun
  exact ⟨s, dst, hrun, hmerge, mergeCaches_keeps_chunks rfl hkeeps hrun hmerge⟩

/-- A with-block that holds a chunk for `LKM::init()`, outside any template. -/
def chunkBlock : Item :=
  .withBlock (rtxNodeWithOne ⟨"LKM", .refl true⟩ []) ⟨[], []⟩ Files.absent
    [.chunk ⟨.chunk, ⟨rtxNodeIdentifier ⟨"init", .refl true⟩ ⟨"LKM", .refl true⟩, []⟩, Files.named "init"⟩]

/-- The chunk is in the differential cache and, merged into an empty cache, nowhere. -/
theorem standalone_chunk_lost : ∃ s dst,
    sessionRegisterAll (Session.fresh false) Table.empty [chunkBlock] = .ok s ∧
      mergeCaches false Cache.empty s.temp = .ok dst ∧
      (s.temp.chunkList "LKM::init()").length = 1 ∧ dst.chunkList "LKM::init()" = [] :=
  ⟨_, _, rfl, rfl, by decide, by decide⟩

/-! ## Templates registered twice -/

/-- A run of `rtxLink_SessionRegister<"__rtx_tpl__">` on an empty session. -/
def registerTpls (ignoreConflicts : Bool) (ts : List (Template × WithConfig)) : Session :=
  ts.foldl (fun s t => registerTpl s t.1 t.2) (Session.fresh ignoreConflicts)

theorem registerTpls_concat (ignoreConflicts : Bool) (ts : List (Template × WithConfig))
    (t : Template × WithConfig) :
    registerTpls ignoreConflicts (ts ++ [t]) = registerTpl (registerTpls ignoreConflicts ts) t.1 t.2 :=
  List.foldl_concat _ _ _ _

theorem templates_registerTemplate (cache : Cache) (t : Template) (withValues : WithConfig) :
    (cache.registerTemplate t withValues).templates = cache.templates := by
  obtain ⟨tpl, htpl⟩ := registerTemplate_spec cache t withValues
  obtain ⟨chunks, heq⟩ := htpl.filed
  rw [heq]
  cases t.table <;> rfl

/-- The array that the test for a template already registered looks at stays empty. -/
theorem templates_registerTpls (ignoreConflicts : Bool) (ts : List (Template × WithConfig)) :
    (registerTpls ignoreConflicts ts).cache.templates = Table.empty := by
  induction ts using List.reverseRecOn with
  | nil => rfl
  | append_singleton ts t ih =>
    rw [registerTpls_concat, registerTpl_eq]
    split
    · exact ih
    · rw [Session.cache_updateBoth, templates_registerTemplate, ih]

/-- So every template is added. -/
theorem registerTpl_registerTpls (ignoreConflicts : Bool) (ts : List (Template × WithConfig))
    (t : Template) (withValues : WithConfig) :
    registerTpl (registerTpls ignoreConflicts ts) t withValues =
      (registerTpls ignoreConflicts ts).updateBoth fun cache => cache.registerTemplate t withValues := by
  rw [registerTpl_eq, if_neg]
  unfold checkSingleTpl
  rw [templates_registerTpls]
  exact Bool.false_ne_true

/-- The with-nodes of a bucket are those of the templates registered for it, in order. -/
theorem withConfigs_registerTpls (ignoreConflicts : Bool) (ts : List (Template × WithConfig))
    (table : TplTable) (hash : String) :
    ((registerTpls ignoreConflicts ts).cache.bucket table hash).map CachedTemplate.withConfig =
      (ts.filter fun t => t.1.table = table ∧ t.1.hash = hash).map Prod.snd := by
  induction ts using List.reverseRecOn with
  | nil => cases table <;> rfl
  | append_singleton ts t ih =>
    rw [registerTpls_concat, registerTpl_registerTpls, Session.cache_updateBoth]
    obtain ⟨tpl, htpl⟩ := registerTemplate_spec (registerTpls ignoreConflicts ts).cache t.1 t.2
    rw [htpl.bucket, List.filter_append, List.map_append, ← ih]
    by_cases hplace : table = t.1.table ∧ hash = t.1.hash
    · obtain ⟨rfl, rfl⟩ := hplace
      simp [htpl.withConfig]
    · have hother : ¬ (t.1.table = table ∧ t.1.hash = hash) :=
        fun h => hplace ⟨h.1.symm, h.2.symm⟩
      simp [hplace, hother]

/-- Pairs are distinct if those with the same first part have distinct second parts. -/
theorem nodup_pairs_iff {α β γ : Type} [DecidableEq β] (f : α → β) (g : α → γ) (l : List α) :
    (l.map fun x => (f x, g x)).Nodup ↔ ∀ k, ((l.filter fun x => f x = k).map g).Nodup := by
  simp only [List.Nodup, List.pairwise_map, List.pairwise_filter, decide_eq_true_eq]
  constructor
  · intro h k
    apply h.imp
    intro a b hne ha hb heq
    exact hne (by rw [ha, hb, heq])
  · intro h
    rw [List.pairwise_iff_forall_sublist]
    intro a b hsub heq
    have hfst : f b = f a := (congrArg Prod.fst heq).symm
    exact List.pairwise_iff_forall_sublist.1 (h (f a)) hsub rfl hfst (congrArg Prod.snd heq)

/-- What tells templates apart: the table, the hash and the with-node. -/
def tplKey (t : Template × WithConfig) : (TplTable × String) × WithConfig :=
  ((t.1.table, t.1.hash), t.2)

/-- **Templates are single exactly when none is registered twice.** For any run from an empty session:
no two templates of a bucket have equal with-nodes and registering one again changes nothing, if and
only if no template is registered again. -/
theorem singleTpl_iff (ignoreConflicts : Bool) (ts : List (Template × WithConfig)) :
    ((∀ table hash, (((registerTpls ignoreConflicts ts).cache.bucket table hash).map
        CachedTemplate.withConfig).Nodup) ∧
      ∀ before t withValues after, ts = before ++ (t, withValues) :: after →
        withValues ∈ ((registerTpls ignoreConflicts before).cache.bucket t.table t.hash).map
          CachedTemplate.withConfig →
        registerTpl (registerTpls ignoreConflicts before) t withValues =
          registerTpls ignoreConflicts before) ↔
      (ts.map tplKey).Nodup := by
  have hkeys : (ts.map tplKey).Nodup ↔ ∀ table hash,
      (((registerTpls ignoreConflicts ts).cache.bucket table hash).map
        CachedTemplate.withConfig).Nodup := by
    unfold tplKey
    rw [nodup_pairs_iff (fun t : Template × WithConfig => (t.1.table, t.1.hash)) Prod.snd]
    simp only [withConfigs_registerTpls, Prod.forall, Prod.mk.injEq]
  constructor
  · rintro ⟨hsingle, -⟩
    exact hkeys.2 hsingle
  · intro hnodup
    refine ⟨hkeys.1 hnodup, ?_⟩
    intro before t withValues after hts hpresent
    -- a template with this key was registered before, so the keys were not distinct
    rw [withConfigs_registerTpls] at hpresent
    obtain ⟨t', ht', heq⟩ := List.mem_map.1 hpresent
    obtain ⟨hmem, hplace⟩ := List.mem_filter.1 ht'
    obtain ⟨htable, hhash⟩ := of_decide_eq_true hplace
    have hkey : tplKey t' = tplKey (t, withValues) := by
      unfold tplKey
      rw [htable, hhash, heq]
    rw [hts, List.map_append, List.map_cons] at hnodup
    exact absurd (List.mem_map.2 ⟨t', hmem, hkey⟩)
      fun h => List.disjoint_of_nodup_append hnodup h List.mem_cons_self

/-- A template registered twice stands twice in its bucket. -/
theorem template_registered_twice :
    ¬ (((registerTpls false [(initTemplate ⟨"Open", rfl⟩, Table.empty),
      (initTemplate ⟨"Open", rfl⟩, Table.empty)]).cache.bucket .sequences "Open()").map
        CachedTemplate.withConfig).Nodup := by
  decide

end Link

end Rathaxes
