import Rathaxes.CodeWorker.Pass
import Rathaxes.Laws.Session
import Rathaxes.Link.Merge

/-!
# What a merge leaves in the destination

A merge is described by what it does with one template: its chunks are appended, its copy is filed at
the end of its bucket, and the copy refers to the copies of the chunks (`Merged.step`). Everything
else grows at its end only, so what a template of the destination refers to stays where it is. The run
over both tables gives the merged cache as a whole (`mergeOf_mergeCaches`): under every pointcut the
chunks of the first cache, then one for each template of the second that has one, in the order of the
walk.
-/

set_option autoImplicit false

namespace Rathaxes.Link

open CodeWorker

/-! ## The parts of a cache -/

namespace Cache

theorem chunkList_pushChunk (cache : Cache) (name name' : String) (c : CachedChunk) :
    (cache.pushChunk name c).chunkList name' =
      if name' = name then cache.chunkList name ++ [c] else cache.chunkList name' := by
  unfold chunkList pushChunk
  rw [get?_pushUnder]
  split <;> rfl

@[simp] theorem chunkList_setTable (cache : Cache) (table : TplTable)
    (buckets : Table (List CachedTemplate)) (name : String) :
    (cache.setTable table buckets).chunkList name = cache.chunkList name := by
  cases table <;> rfl

theorem table_setTable (cache : Cache) (table table' : TplTable)
    (buckets : Table (List CachedTemplate)) :
    (cache.setTable table buckets).table table' =
      if table' = table then buckets else cache.table table' := by
  cases table <;> cases table' <;> rfl

@[simp] theorem interfaces_setTable (cache : Cache) (table : TplTable)
    (buckets : Table (List CachedTemplate)) :
    (cache.setTable table buckets).interfaces = cache.interfaces := by
  cases table <;> rfl

@[simp] theorem globalCode_setTable (cache : Cache) (table : TplTable)
    (buckets : Table (List CachedTemplate)) :
    (cache.setTable table buckets).globalCode = cache.globalCode := by
  cases table <;> rfl

/-- Filing a template at the end of its bucket. -/
theorem bucket_push (cache : Cache) (table table' : TplTable) (hash hash' : String)
    (tpl : CachedTemplate) :
    (cache.setTable table (pushUnder (cache.table table) hash tpl)).bucket table' hash' =
      if table' = table ∧ hash' = hash then cache.bucket table hash ++ [tpl]
      else cache.bucket table' hash' := by
  unfold bucket
  rw [table_setTable]
  by_cases htable : table' = table
  · subst htable
    rw [if_pos rfl, get?_pushUnder]
    by_cases hhash : hash' = hash
    · rw [if_pos hhash, if_pos ⟨rfl, hhash⟩]
      rfl
    · rw [if_neg hhash, if_neg (fun h => hhash h.2)]
  · rw [if_neg htable, if_neg (fun h => htable h.1)]

/-- A bucket that is created is empty, and reads as it did. -/
@[simp] theorem bucket_ensureBucket (cache : Cache) (table table' : TplTable) (hash hash' : String) :
    (cache.ensureBucket table hash).bucket table' hash' = cache.bucket table' hash' := by
  unfold ensureBucket
  show (((cache.setTable table _).table table').get? hash').getD [] = _
  rw [table_setTable]
  by_cases htable : table' = table
  · subst htable
    rw [if_pos rfl, Table.get?_set]
    by_cases hhash : hash' = hash
    · rw [if_pos hhash, hhash]
      rfl
    · rw [if_neg hhash]
      rfl
  · rw [if_neg htable]
    rfl

/-- A chunk that is there stays there when the arrays grow. -/
theorem chunkAt_of_prefix {cache cache' : Cache} {name : String} {id : Nat} {c : CachedChunk}
    (hgrow : cache.chunkList name <+: cache'.chunkList name) (h : cache.chunkAt name id = some c) :
    cache'.chunkAt name id = some c := by
  obtain ⟨added, hadded⟩ := hgrow
  have hid := (List.getElem?_eq_some_iff.1 h).1
  unfold chunkAt at h ⊢
  rw [← hadded, List.getElem?_append_left hid]
  exact h

end Cache

/-! ## The chunks of one template -/

/-- The chunk a template has for a pointcut, as a list of none or one. -/
def contribution (cache : Cache) (tpl : CachedTemplate) (name : String) : List CachedChunk :=
  ((tpl.chunks.get? name).bind (cache.chunkAt name)).toList

/-- The chunks that a list of references copies under a pointcut. -/
def copiesOf (source : Cache) (refs : List (String × Nat)) (name : String) : List CachedChunk :=
  refs.flatMap fun r => if r.1 = name then (source.chunkAt r.1 r.2).toList else []

/-- A turn of the loop copies a chunk that the source has. -/
theorem mergeChunk_eq_ok_iff {source : Cache} {acc acc' : Cache × CachedTemplate} {r : String × Nat} :
    mergeChunk source acc r = .ok acc' ↔ ∃ c, source.chunkAt r.1 r.2 = some c ∧
      acc' = (acc.1.pushChunk r.1 c,
        { acc.2 with chunks := acc.2.chunks.set r.1 (acc.1.chunkList r.1).length }) := by
  unfold mergeChunk
  rw [bind_eq_ok_iff]
  simp only [copyOf_eq_ok_iff, pure, Except.pure, Except.ok.injEq, eq_comm (b := acc')]

/-- The loop over a template's chunks: the references done so far, where it started, where it stands. -/
structure ChunksMerged (source : Cache) (start : Cache × CachedTemplate) (refs : List (String × Nat))
    (acc : Cache × CachedTemplate) : Prop where
  cache : ∃ chunks, acc.1 = { start.1 with chunks := chunks }
  template : ∃ chunks, acc.2 = { start.2 with chunks := chunks }
  lists : ∀ name, acc.1.chunkList name = start.1.chunkList name ++ copiesOf source refs name
  other : ∀ name, name ∉ refs.map Prod.fst → acc.2.chunks.get? name = start.2.chunks.get? name
  resolved : ∀ r ∈ refs, ∃ c id, source.chunkAt r.1 r.2 = some c ∧
    acc.2.chunks.get? r.1 = some id ∧ acc.1.chunkAt r.1 id = some c

namespace ChunksMerged

variable {source : Cache} {start acc acc' : Cache × CachedTemplate} {refs : List (String × Nat)}

theorem start_nil (source : Cache) (start : Cache × CachedTemplate) :
    ChunksMerged source start [] start where
  cache := ⟨start.1.chunks, rfl⟩
  template := ⟨start.2.chunks, rfl⟩
  lists _ := (List.append_nil _).symm
  other _ _ := rfl
  resolved r hr := by cases hr

/-- The lists after a chunk of the source has been pushed. -/
theorem chunkList_pushed {r : String × Nat} {c : CachedChunk} (hc : source.chunkAt r.1 r.2 = some c)
    (cache : Cache) (name : String) :
    (cache.pushChunk r.1 c).chunkList name = cache.chunkList name ++ copiesOf source [r] name := by
  rw [Cache.chunkList_pushChunk]
  unfold copiesOf
  rw [List.flatMap_singleton]
  by_cases hname : r.1 = name
  · rw [if_pos hname.symm, if_pos hname, hc, ← hname]
    rfl
  · rw [if_neg (Ne.symm hname), if_neg hname, List.append_nil]

/-- One chunk more, under a pointcut not met before. -/
theorem step {r : String × Nat} (h : ChunksMerged source start refs acc)
    (hnew : r.1 ∉ refs.map Prod.fst) (hstep : mergeChunk source acc r = .ok acc') :
    ChunksMerged source start (refs ++ [r]) acc' := by
  obtain ⟨c, hc, rfl⟩ := mergeChunk_eq_ok_iff.1 hstep
  have hlist := chunkList_pushed hc acc.1
  constructor
  case cache =>
    obtain ⟨chunks, hcache⟩ := h.cache
    exact ⟨_, by rw [Cache.pushChunk, hcache]⟩
  case template =>
    obtain ⟨chunks, htpl⟩ := h.template
    exact ⟨_, by rw [htpl]⟩
  case lists =>
    intro name
    rw [hlist, h.lists name, List.append_assoc]
    unfold copiesOf
    rw [List.flatMap_append]
  case other =>
    intro name hname
    rw [List.map_append, List.mem_append, not_or] at hname
    rw [Table.get?_set, if_neg, h.other name hname.1]
    intro heq
    exact hname.2 (heq ▸ List.mem_cons_self)
  case resolved =>
    intro r' hr'
    rcases List.mem_append.1 hr' with hr' | hr'
    · obtain ⟨c', id, hsource, hget, hat⟩ := h.resolved r' hr'
      refine ⟨c', id, hsource, ?_, ?_⟩
      · rw [Table.get?_set, if_neg, hget]
        intro heq
        exact hnew (heq ▸ List.mem_map_of_mem hr')
      · exact Cache.chunkAt_of_prefix ⟨_, (hlist _).symm⟩ hat
    · rw [List.mem_singleton.1 hr']
      refine ⟨c, (acc.1.chunkList r.1).length, hc, ?_, ?_⟩
      · rw [Table.get?_set, if_pos rfl]
      · show ((acc.1.pushChunk r.1 c).chunkList r.1)[(acc.1.chunkList r.1).length]? = some c
        rw [Cache.chunkList_pushChunk, if_pos rfl]
        exact List.getElem?_concat_length

/-- All the chunks. -/
theorem run : ∀ {rest refs : List (String × Nat)} {acc : Cache × CachedTemplate},
    ChunksMerged source start refs acc → ((refs ++ rest).map Prod.fst).Nodup →
      rest.foldlM (mergeChunk source) acc = .ok acc' → ChunksMerged source start (refs ++ rest) acc' := by
  intro rest
  induction rest with
  | nil =>
    intro refs acc h _ hrun
    cases hrun
    rw [List.append_nil]
    exact h
  | cons r rest ih =>
    intro refs acc h hnodup hrun
    rw [List.foldlM_cons] at hrun
    obtain ⟨acc₁, hstep, hrun⟩ := bind_eq_ok_iff.1 hrun
    have hnew : r.1 ∉ refs.map Prod.fst := by
      rw [List.map_append] at hnodup
      intro hmem
      exact List.disjoint_of_nodup_append hnodup hmem List.mem_cons_self
    rw [List.append_cons] at hnodup ⊢
    exact ih (h.step hnew hstep) hnodup hrun

end ChunksMerged

/-- A template names a pointcut once, so its references copy one chunk there, or none. -/
theorem copiesOf_entries (source : Cache) (tpl : CachedTemplate) (name : String) :
    copiesOf source tpl.chunks.entries name = contribution source tpl name := by
  unfold contribution Table.get?
  obtain ⟨entries, hnodup⟩ := tpl.chunks
  show copiesOf source entries name = ((entries.lookup name).bind (source.chunkAt name)).toList
  induction entries with
  | nil => rfl
  | cons e entries ih =>
    obtain ⟨key, id⟩ := e
    rw [List.map_cons, List.nodup_cons] at hnodup
    rw [lookup_cons_ite]
    show (if key = name then (source.chunkAt key id).toList else []) ++ copiesOf source entries name = _
    by_cases hkey : key = name
    · subst hkey
      rw [if_pos rfl, if_pos rfl]
      have hnone : copiesOf source entries key = [] := by
        rw [ih hnodup.2]
        rw [lookup_eq_none_of_not_mem hnodup.1]
        rfl
      rw [hnone, List.append_nil]
      rfl
    · rw [if_neg hkey, if_neg (Ne.symm hkey), ih hnodup.2]
      rfl

/-! ## One template -/

/-- A template of the destination is the copy of one of the source: it differs in the numbers of its
chunks, and these lead to the chunks the original has. -/
structure Copy (source dst : Cache) (tpl copy : CachedTemplate) : Prop where
  template : ∃ chunks, copy = { tpl with chunks := chunks }
  absent : ∀ name, tpl.chunks.get? name = none → copy.chunks.get? name = none
  resolved : ∀ name id, tpl.chunks.get? name = some id → ∃ c id', source.chunkAt name id = some c ∧
    copy.chunks.get? name = some id' ∧ dst.chunkAt name id' = some c

/-- A copy stays one when the arrays of the destination grow. -/
theorem Copy.grow {source dst dst' : Cache} {tpl copy : CachedTemplate}
    (h : Copy source dst tpl copy) (hgrow : ∀ name, dst.chunkList name <+: dst'.chunkList name) :
    Copy source dst' tpl copy where
  template := h.template
  absent := h.absent
  resolved name id hid := by
    obtain ⟨c, id', hsource, hget, hat⟩ := h.resolved name id hid
    exact ⟨c, id', hsource, hget, Cache.chunkAt_of_prefix (hgrow name) hat⟩

/-- A copy contributes what the original does. -/
theorem Copy.contribution_eq {source dst : Cache} {tpl copy : CachedTemplate}
    (h : Copy source dst tpl copy) (name : String) :
    contribution dst copy name = contribution source tpl name := by
  unfold contribution
  cases hget : tpl.chunks.get? name with
  | none =>
    rw [h.absent name hget]
    rfl
  | some id =>
    obtain ⟨c, id', hsource, hcopy, hat⟩ := h.resolved name id hget
    rw [hcopy, Option.bind_some, Option.bind_some, hsource, hat]

/-- **What merging one template does.** -/
theorem mergeTpl_ok {ignoreConflicts : Bool} {source dst dst' : Cache} {table : TplTable}
    {hash : String} {tpl : CachedTemplate}
    (h : mergeTpl ignoreConflicts source table hash dst tpl = .ok dst') :
    ∃ mid copy, (∃ chunks, mid = { dst with chunks := chunks }) ∧
      (∀ name, mid.chunkList name = dst.chunkList name ++ contribution source tpl name) ∧
      Copy source mid tpl copy ∧
      dst' = mid.setTable table (pushUnder (mid.table table) hash copy) := by
  unfold mergeTpl at h
  split at h
  · obtain ⟨⟨mid, copy⟩, hchunks, h⟩ := bind_eq_ok_iff.1 h
    cases h
    have hmerged := (ChunksMerged.start_nil source (dst, tpl)).run tpl.chunks.nodup hchunks
    rw [List.nil_append] at hmerged
    refine ⟨mid, copy, hmerged.cache, ?_, ⟨hmerged.template, ?_, ?_⟩, rfl⟩
    · intro name
      rw [← copiesOf_entries]
      exact hmerged.lists name
    · intro name hnone
      rw [← hnone]
      apply hmerged.other
      intro hmem
      obtain ⟨⟨key, id⟩, he, rfl⟩ := List.mem_map.1 hmem
      rw [(tpl.chunks.mem_entries_iff key id).1 he] at hnone
      cases hnone
    · intro name id hid
      exact hmerged.resolved (name, id) ((tpl.chunks.mem_entries_iff name id).2 hid)
  · cases h

/-! ## All templates -/

/-- A template with the place it is filed at. -/
structure Filed where
  table : TplTable
  hash : String
  tpl : CachedTemplate

/-- The templates among these that are filed at one place. -/
def filedAt (filed : List Filed) (table : TplTable) (hash : String) : List CachedTemplate :=
  (filed.filter fun f => f.table = table ∧ f.hash = hash).map Filed.tpl

/-- The destination while templates are merged: where it started, and the templates merged so far. -/
structure Merged (source start : Cache) (done : List Filed) (dst : Cache) : Prop where
  globalCode : dst.globalCode = start.globalCode
  interfaces : dst.interfaces = start.interfaces
  chunks : ∀ name, dst.chunkList name =
    start.chunkList name ++ done.flatMap fun f => contribution source f.tpl name
  buckets : ∀ table hash, ∃ copies, dst.bucket table hash = start.bucket table hash ++ copies ∧
    List.Forall₂ (Copy source dst) (filedAt done table hash) copies

namespace Merged

variable {source start dst dst' : Cache} {done : List Filed} {ignoreConflicts : Bool}
  {table : TplTable} {hash : String}

theorem start_nil (source start : Cache) : Merged source start [] start where
  globalCode := rfl
  interfaces := rfl
  chunks _ := (List.append_nil _).symm
  buckets _ _ := ⟨[], (List.append_nil _).symm, List.Forall₂.nil⟩

/-- Creating a bucket changes nothing that is looked at. -/
theorem ensureBucket (h : Merged source start done dst) (table : TplTable) (hash : String) :
    Merged source start done (dst.ensureBucket table hash) where
  globalCode := (Cache.globalCode_setTable _ _ _).trans h.globalCode
  interfaces := (Cache.interfaces_setTable _ _ _).trans h.interfaces
  chunks name := (Cache.chunkList_setTable _ _ _ name).trans (h.chunks name)
  buckets table' hash' := by
    obtain ⟨copies, hbucket, hcopies⟩ := h.buckets table' hash'
    refine ⟨copies, (Cache.bucket_ensureBucket _ _ _ _ _).trans hbucket, hcopies.imp ?_⟩
    intro tpl copy hcopy
    apply hcopy.grow
    intro name
    exact ⟨[], by simp [Cache.ensureBucket]⟩

/-- One template more. -/
theorem step {tpl : CachedTemplate} (h : Merged source start done dst)
    (hstep : mergeTpl ignoreConflicts source table hash dst tpl = .ok dst') :
    Merged source start (done ++ [⟨table, hash, tpl⟩]) dst' := by
  obtain ⟨mid, copy, ⟨chunks, hmid⟩, hlists, hcopy, rfl⟩ := mergeTpl_ok hstep
  have hlists' : ∀ name, (mid.setTable table (pushUnder (mid.table table) hash copy)).chunkList name =
      dst.chunkList name ++ contribution source tpl name := by
    intro name
    rw [Cache.chunkList_setTable, hlists]
  constructor
  case globalCode =>
    rw [Cache.globalCode_setTable, hmid]
    exact h.globalCode
  case interfaces =>
    rw [Cache.interfaces_setTable, hmid]
    exact h.interfaces
  case chunks =>
    intro name
    rw [hlists', h.chunks name, List.flatMap_append, List.append_assoc, List.flatMap_singleton]
  case buckets =>
    intro table' hash'
    have hbucket : ∀ table' hash', mid.bucket table' hash' = dst.bucket table' hash' := by
      intro table' hash'
      rw [hmid]
      cases table' <;> rfl
    obtain ⟨copies, hold, hcopies⟩ := h.buckets table' hash'
    have hcopies' : List.Forall₂
        (Copy source (mid.setTable table (pushUnder (mid.table table) hash copy)))
        (filedAt done table' hash') copies := by
      apply hcopies.imp
      intro _ _ hc
      exact hc.grow fun name => ⟨_, (hlists' name).symm⟩
    have hnew : Copy source (mid.setTable table (pushUnder (mid.table table) hash copy)) tpl copy := by
      apply hcopy.grow
      intro name
      exact ⟨[], by simp⟩
    unfold filedAt at hcopies' ⊢
    rw [Cache.bucket_push, List.filter_append, List.map_append]
    by_cases hplace : table' = table ∧ hash' = hash
    · obtain ⟨rfl, rfl⟩ := hplace
      refine ⟨copies ++ [copy], ?_, List.rel_append hcopies' ?_⟩
      · rw [if_pos ⟨rfl, rfl⟩, hbucket, hold, List.append_assoc]
      · simpa using hnew
    · refine ⟨copies, ?_, ?_⟩
      · rw [if_neg hplace, hbucket, hold]
      · have hnot : ¬ (table = table' ∧ hash = hash') := by
          rintro ⟨rfl, rfl⟩
          exact hplace ⟨rfl, rfl⟩
        simpa [hnot] using hcopies'

/-- All the templates of a hash. -/
theorem run : ∀ {tpls : List CachedTemplate} {done : List Filed} {dst : Cache},
    Merged source start done dst →
      tpls.foldlM (mergeTpl ignoreConflicts source table hash) dst = .ok dst' →
      Merged source start (done ++ tpls.map (Filed.mk table hash)) dst' := by
  intro tpls
  induction tpls with
  | nil =>
    intro done dst h hrun
    cases hrun
    rw [List.map_nil, List.append_nil]
    exact h
  | cons tpl tpls ih =>
    intro done dst h hrun
    rw [List.foldlM_cons] at hrun
    obtain ⟨dst₁, hstep, hrun⟩ := bind_eq_ok_iff.1 hrun
    rw [List.map_cons, List.append_cons]
    exact ih (h.step hstep) hrun

/-- All the hashes of a table. -/
theorem runTable : ∀ {buckets : List (String × List CachedTemplate)} {done : List Filed} {dst : Cache},
    Merged source start done dst →
      buckets.foldlM (mergeBucket ignoreConflicts source table) dst = .ok dst' →
      Merged source start (done ++ buckets.flatMap fun b => b.2.map (Filed.mk table b.1)) dst' := by
  intro buckets
  induction buckets with
  | nil =>
    intro done dst h hrun
    cases hrun
    rw [List.flatMap_nil, List.append_nil]
    exact h
  | cons b buckets ih =>
    intro done dst h hrun
    rw [List.foldlM_cons] at hrun
    obtain ⟨dst₁, hstep, hrun⟩ := bind_eq_ok_iff.1 hrun
    rw [List.flatMap_cons, ← List.append_assoc]
    exact ih ((h.ensureBucket table b.1).run hstep) hrun

end Merged

/-! ## The templates of a cache -/

namespace Cache

/-- The templates of one table, in the order they are walked in. -/
def filed (cache : Cache) (table : TplTable) : List Filed :=
  (cache.table table).entries.flatMap fun b => b.2.map (Filed.mk table b.1)

/-- All templates in the order they are merged in. -/
def allFiled (cache : Cache) : List Filed := cache.filed .sequences ++ cache.filed .types

theorem filedAt_filed_other (cache : Cache) {table table' : TplTable} (h : table' ≠ table)
    (hash : String) : filedAt (cache.filed table') table hash = [] := by
  unfold filedAt filed
  rw [List.map_eq_nil_iff, List.filter_eq_nil_iff]
  intro f hf
  obtain ⟨b, -, hb⟩ := List.mem_flatMap.1 hf
  obtain ⟨tpl, -, rfl⟩ := List.mem_map.1 hb
  simp [h]

/-- The templates filed at a place are those of its bucket. -/
theorem filedAt_filed (cache : Cache) (table : TplTable) (hash : String) :
    filedAt (cache.filed table) table hash = cache.bucket table hash := by
  unfold filed bucket Table.get?
  obtain ⟨entries, hnodup⟩ := cache.table table
  show filedAt (entries.flatMap fun b => b.2.map (Filed.mk table b.1)) table hash
    = (entries.lookup hash).getD []
  induction entries with
  | nil => rfl
  | cons b entries ih =>
    obtain ⟨key, tpls⟩ := b
    rw [List.map_cons, List.nodup_cons] at hnodup
    have hrest := ih hnodup.2
    rw [lookup_cons_ite]
    unfold filedAt at hrest ⊢
    rw [List.flatMap_cons, List.filter_append, List.map_append, hrest, List.filter_map,
      List.map_map]
    by_cases hkey : hash = key
    · subst hkey
      rw [if_pos rfl, lookup_eq_none_of_not_mem hnodup.1]
      simp [Function.comp_def]
    · rw [if_neg hkey]
      simp [Function.comp_def, Ne.symm hkey]

theorem filedAt_allFiled (cache : Cache) (table : TplTable) (hash : String) :
    filedAt cache.allFiled table hash = cache.bucket table hash := by
  have happend : filedAt cache.allFiled table hash =
      filedAt (cache.filed .sequences) table hash ++ filedAt (cache.filed .types) table hash := by
    unfold filedAt allFiled
    rw [List.filter_append, List.map_append]
  rw [happend]
  cases table with
  | sequences => rw [filedAt_filed, filedAt_filed_other cache (by decide), List.append_nil]
  | types => rw [filedAt_filed, filedAt_filed_other cache (by decide), List.nil_append]

theorem mem_bucket_iff {cache : Cache} {table : TplTable} {hash : String} {tpl : CachedTemplate} :
    tpl ∈ cache.bucket table hash ↔ Filed.mk table hash tpl ∈ cache.allFiled := by
  rw [← filedAt_allFiled]
  constructor
  · intro htpl
    obtain ⟨f, hf, rfl⟩ := List.mem_map.1 htpl
    obtain ⟨hfiled, hplace⟩ := List.mem_filter.1 hf
    obtain ⟨rfl, rfl⟩ := of_decide_eq_true hplace
    exact hfiled
  · intro hf
    exact List.mem_map.2 ⟨_, List.mem_filter.2 ⟨hf, by simp⟩, rfl⟩

end Cache

/-! ## Interfaces -/

/-- What a merge makes of the entries of one interface. -/
def mergedInterface : Option CachedInterface → Option CachedInterface → Option CachedInterface
  | none, new => new
  | some old, none => some old
  | some old, some new => some { old with extensions := old.extensions ++ new.extensions }

theorem mergedInterface_assoc (first second third : Option CachedInterface) :
    mergedInterface (mergedInterface first second) third = mergedInterface first (mergedInterface second third) := by
  cases first with
  | none => rfl
  | some first =>
    cases second with
    | none => rfl
    | some second =>
      cases third with
      | none => rfl
      | some third => simp [mergedInterface]

/-- No interface of the entries has a tree if the cache has the interface. -/
def InterfacesAgree (cache : Cache) (entries : List (String × CachedInterface)) : Prop :=
  ∀ e ∈ entries, (cache.interfaces.get? e.1).isSome → e.2.treeFile = none

/-- One interface. -/
theorem mergeInterface_ok {dst dst' : Cache} {e : String × CachedInterface}
    (h : mergeInterface dst e = .ok dst') :
    ((dst.interfaces.get? e.1).isSome → e.2.treeFile = none) ∧
      ∃ itfs, dst' = { dst with interfaces := itfs } ∧ ∀ name, itfs.get? name =
        if name = e.1 then mergedInterface (dst.interfaces.get? e.1) (some e.2)
        else dst.interfaces.get? name := by
  unfold mergeInterface at h
  cases hget : dst.interfaces.get? e.1 with
  | none =>
    rw [hget] at h
    cases h
    exact ⟨fun hsome => (nomatch hsome), _, rfl, fun name => Table.get?_set _ _ _ _⟩
  | some itf =>
    rw [hget] at h
    cases htree : e.2.treeFile with
    | some file =>
      rw [htree] at h
      cases h
    | none =>
      rw [htree] at h
      cases h
      exact ⟨fun _ => rfl, _, rfl, fun name => Table.get?_set _ _ _ _⟩

theorem mergeInterface_exists {dst : Cache} {e : String × CachedInterface}
    (h : (dst.interfaces.get? e.1).isSome → e.2.treeFile = none) :
    ∃ dst', mergeInterface dst e = .ok dst' := by
  unfold mergeInterface
  cases hget : dst.interfaces.get? e.1 with
  | none => exact ⟨_, rfl⟩
  | some itf =>
    rw [hget] at h
    rw [h rfl]
    exact ⟨_, rfl⟩

/-- The entries behind the first one meet the same interfaces: no key occurs twice. -/
theorem get?_behind {e : String × CachedInterface} {entries : List (String × CachedInterface)}
    {old new : Table CachedInterface} (hnodup : ((e :: entries).map Prod.fst).Nodup)
    (hnew : ∀ name, new.get? name =
      if name = e.1 then mergedInterface (old.get? e.1) (some e.2) else old.get? name) :
    ∀ e' ∈ entries, new.get? e'.1 = old.get? e'.1 := by
  intro e' he'
  rw [List.map_cons, List.nodup_cons] at hnodup
  rw [hnew, if_neg]
  intro heq
  exact hnodup.1 (heq ▸ List.mem_map_of_mem he')

/-- **What merging interfaces does.** -/
theorem mergeInterfaces_ok {dst : Cache} : ∀ {entries : List (String × CachedInterface)}
    {cache : Cache}, (entries.map Prod.fst).Nodup → entries.foldlM mergeInterface cache = .ok dst →
      InterfacesAgree cache entries ∧ ∃ itfs, dst = { cache with interfaces := itfs } ∧
        ∀ name, itfs.get? name = mergedInterface (cache.interfaces.get? name) (entries.lookup name) := by
  intro entries
  induction entries with
  | nil =>
    intro cache _ h
    cases h
    refine ⟨fun e he => (nomatch he), dst.interfaces, rfl, ?_⟩
    intro name
    cases dst.interfaces.get? name <;> rfl
  | cons e entries ih =>
    intro cache hnodup h
    rw [List.foldlM_cons] at h
    obtain ⟨cache₁, hstep, h⟩ := bind_eq_ok_iff.1 h
    obtain ⟨hfirst, itfs₁, rfl, hitfs₁⟩ := mergeInterface_ok hstep
    have hbehind := get?_behind hnodup hitfs₁
    rw [List.map_cons, List.nodup_cons] at hnodup
    obtain ⟨hrest, itfs, rfl, hitfs⟩ := ih hnodup.2 h
    constructor
    · intro e' he' hsome
      rcases List.mem_cons.1 he' with rfl | he'
      · exact hfirst hsome
      · apply hrest e' he'
        show (itfs₁.get? e'.1).isSome
        rw [hbehind e' he']
        exact hsome
    · refine ⟨itfs, rfl, ?_⟩
      intro name
      obtain ⟨key, new⟩ := e
      rw [hitfs name, lookup_cons_ite]
      show mergedInterface (itfs₁.get? name) _ = _
      rw [hitfs₁ name]
      by_cases hname : name = key
      · subst hname
        rw [if_pos rfl, if_pos rfl, lookup_eq_none_of_not_mem hnodup.1]
        cases cache.interfaces.get? name <;> rfl
      · rw [if_neg hname, if_neg hname]

/-- Interfaces that agree are merged. -/
theorem mergeInterfaces_exists : ∀ {entries : List (String × CachedInterface)} {cache : Cache},
    (entries.map Prod.fst).Nodup → InterfacesAgree cache entries →
      ∃ dst, entries.foldlM mergeInterface cache = .ok dst := by
  intro entries
  induction entries with
  | nil =>
    intro cache _ _
    exact ⟨cache, rfl⟩
  | cons e entries ih =>
    intro cache hnodup hagree
    obtain ⟨cache₁, hstep⟩ := mergeInterface_exists (hagree e List.mem_cons_self)
    obtain ⟨-, itfs₁, rfl, hitfs₁⟩ := mergeInterface_ok hstep
    have hbehind := get?_behind hnodup hitfs₁
    rw [List.map_cons, List.nodup_cons] at hnodup
    obtain ⟨dst, hrest⟩ := @ih { cache with interfaces := itfs₁ } hnodup.2 (by
      intro e' he' hsome
      apply hagree e' (List.mem_cons_of_mem _ he')
      rw [← hbehind e' he']
      exact hsome)
    refine ⟨dst, ?_⟩
    rw [List.foldlM_cons]
    exact bind_eq_ok_iff.2 ⟨_, hstep, hrest⟩

/-! ## The whole merge -/

/-- **The merged cache.** -/
structure MergeOf (cache1 cache2 dst : Cache) : Prop where
  agree : InterfacesAgree cache1 cache2.interfaces.entries
  interfaces : ∀ name, dst.interfaces.get? name =
    mergedInterface (cache1.interfaces.get? name) (cache2.interfaces.get? name)
  globalCode : dst.globalCode = cache1.globalCode ++ cache2.globalCode
  chunks : ∀ name, dst.chunkList name =
    cache1.chunkList name ++ cache2.allFiled.flatMap fun f => contribution cache2 f.tpl name
  buckets : ∀ table hash, ∃ copies, dst.bucket table hash = cache1.bucket table hash ++ copies ∧
    List.Forall₂ (Copy cache2 dst) (cache2.bucket table hash) copies

theorem mergeOf_mergeCaches {ignoreConflicts : Bool} {cache1 cache2 dst : Cache}
    (h : mergeCaches ignoreConflicts cache1 cache2 = .ok dst) : MergeOf cache1 cache2 dst := by
  unfold mergeCaches at h
  obtain ⟨dst₁, hitfs, h⟩ := bind_eq_ok_iff.1 h
  obtain ⟨hagree, itfs, rfl, hget⟩ := mergeInterfaces_ok cache2.interfaces.nodup hitfs
  obtain ⟨dst₂, hsequences, htypes⟩ := bind_eq_ok_iff.1 h
  have hmerged := ((Merged.start_nil cache2 _).runTable hsequences).runTable htypes
  rw [List.nil_append] at hmerged
  constructor
  case agree => exact hagree
  case interfaces =>
    intro name
    rw [hmerged.interfaces]
    exact hget name
  case globalCode => exact hmerged.globalCode
  case chunks => exact hmerged.chunks
  case buckets =>
    intro table hash
    obtain ⟨copies, hbucket, hcopies⟩ := hmerged.buckets table hash
    refine ⟨copies, ?_, ?_⟩
    · rw [hbucket]
      cases table <;> rfl
    · rw [← Cache.filedAt_allFiled]
      exact hcopies

/-! ## References -/

/-- Every template refers to chunks that the cache has. -/
def WellReferenced (cache : Cache) : Prop :=
  ∀ table hash, ∀ tpl ∈ cache.bucket table hash, ∀ name id, tpl.chunks.get? name = some id →
    (cache.chunkAt name id).isSome

/-- It is enough to look at the entries of the templates' tables. -/
theorem wellReferenced_iff {cache : Cache} : WellReferenced cache ↔
    ∀ f ∈ cache.allFiled, ∀ e ∈ f.tpl.chunks.entries, (cache.chunkAt e.1 e.2).isSome := by
  constructor
  · intro h f hf e he
    exact h f.table f.hash f.tpl (Cache.mem_bucket_iff.2 hf) e.1 e.2
      ((f.tpl.chunks.mem_entries_iff e.1 e.2).1 he)
  · intro h table hash tpl htpl name id hid
    exact h _ (Cache.mem_bucket_iff.1 htpl) (name, id) ((tpl.chunks.mem_entries_iff name id).2 hid)

instance (cache : Cache) : Decidable (WellReferenced cache) :=
  decidable_of_iff _ wellReferenced_iff.symm

/-- A template selects the same chunk for every pointcut in two caches. -/
def SelectsAlike (cache : Cache) (tpl : CachedTemplate) (cache' : Cache) (tpl' : CachedTemplate) :
    Prop :=
  ∀ name, selectChunkFromTemplate cache tpl name = selectChunkFromTemplate cache' tpl' name

theorem Copy.selectsAlike {source dst : Cache} {tpl copy : CachedTemplate}
    (h : Copy source dst tpl copy) : SelectsAlike source tpl dst copy := by
  intro name
  unfold selectChunkFromTemplate
  cases hget : tpl.chunks.get? name with
  | none => rw [h.absent name hget]
  | some id =>
    obtain ⟨c', id', hsource, hcopy, hat⟩ := h.resolved name id hget
    rw [hcopy]
    simp only [hsource, hat]

/-- A template whose references are good selects the same when the arrays grow. -/
theorem selectsAlike_of_prefix {cache cache' : Cache} {tpl : CachedTemplate}
    (href : ∀ name id, tpl.chunks.get? name = some id → (cache.chunkAt name id).isSome)
    (hgrow : ∀ name, cache.chunkList name <+: cache'.chunkList name) :
    SelectsAlike cache tpl cache' tpl := by
  intro name
  unfold selectChunkFromTemplate
  cases hget : tpl.chunks.get? name with
  | none => rfl
  | some id =>
    obtain ⟨c', hat⟩ := Option.isSome_iff_exists.1 (href name id hget)
    simp only [hat, Cache.chunkAt_of_prefix (hgrow name) hat]

/-- **A merge renumbers references consistently.** Every reference of the merged cache leads to a
chunk, the templates of the first cache select what they selected there, and those of the second, which
follow them in every bucket, what they selected in the second. -/
theorem mergeCaches_references {ignoreConflicts : Bool} {cache1 cache2 dst : Cache}
    (h1 : WellReferenced cache1) (h : mergeCaches ignoreConflicts cache1 cache2 = .ok dst) :
    WellReferenced dst ∧ ∀ table hash, ∃ copies,
      dst.bucket table hash = cache1.bucket table hash ++ copies ∧
      (∀ tpl ∈ cache1.bucket table hash, SelectsAlike cache1 tpl dst tpl) ∧
      List.Forall₂ (fun tpl copy => (∃ chunks, copy = { tpl with chunks := chunks }) ∧
        SelectsAlike cache2 tpl dst copy) (cache2.bucket table hash) copies := by
  have hmerge := mergeOf_mergeCaches h
  have hgrow : ∀ name, cache1.chunkList name <+: dst.chunkList name :=
    fun name => ⟨_, (hmerge.chunks name).symm⟩
  constructor
  · intro table hash tpl htpl name id hid
    obtain ⟨copies, hbucket, hcopies⟩ := hmerge.buckets table hash
    rw [hbucket] at htpl
    rcases List.mem_append.1 htpl with htpl | htpl
    · obtain ⟨c, hat⟩ := Option.isSome_iff_exists.1 (h1 table hash tpl htpl name id hid)
      rw [Cache.chunkAt_of_prefix (hgrow name) hat]
      rfl
    · obtain ⟨orig, -, hcopy⟩ := exists_left_of_forall₂ hcopies htpl
      cases horig : orig.chunks.get? name with
      | none =>
        rw [hcopy.absent name horig] at hid
        cases hid
      | some id₀ =>
        obtain ⟨c, id', -, hget, hat⟩ := hcopy.resolved name id₀ horig
        rw [hid, Option.some.injEq] at hget
        rw [hget, hat]
        rfl
  · intro table hash
    obtain ⟨copies, hbucket, hcopies⟩ := hmerge.buckets table hash
    refine ⟨copies, hbucket, ?_, ?_⟩
    · intro tpl htpl
      exact selectsAlike_of_prefix (h1 table hash tpl htpl) hgrow
    · apply hcopies.imp
      intro tpl copy hcopy
      exact ⟨hcopy.template, hcopy.selectsAlike⟩

/-- A sequence template of the given name with one chunk, for the pointcut `LKM::init()`. -/
def initTemplate (name : Word) : Template where
  tplType := .sequence
  prototype := ⟨rtxNodeIdentifier name, []⟩
  hasMapping := false
  body := [⟨.chunk, ⟨rtxNodeIdentifier ⟨"init", .refl true⟩ ⟨"LKM", .refl true⟩, []⟩, Files.named name.text⟩]
  files := Files.absent

/-- The cache that holds this template and its chunk. -/
def initCache (name : Word) : Cache :=
  Cache.empty.registerSequence (initTemplate name) Table.empty

/-- Both templates refer to their chunk by the number 0; merged, the second one refers to number 1 and
selects the chunk it selected before. -/
theorem mergeCaches_references_init : ∃ dst,
    mergeCaches false (initCache ⟨"Open", rfl⟩) (initCache ⟨"Close", rfl⟩) = .ok dst ∧
      WellReferenced dst ∧
      (dst.bucket .sequences "Close()").map (fun tpl => tpl.chunks.entries) = [[("LKM::init()", 1)]] := by
  have href : WellReferenced (initCache ⟨"Open", rfl⟩) := by decide
  have hmerge : ∃ dst,
      mergeCaches false (initCache ⟨"Open", rfl⟩) (initCache ⟨"Close", rfl⟩) = .ok dst ∧
        (dst.bucket .sequences "Close()").map (fun tpl => tpl.chunks.entries) =
          [[("LKM::init()", 1)]] := ⟨_, rfl, by decide⟩
  obtain ⟨dst, hmerge, hnumber⟩ := hmerge
  exact ⟨dst, hmerge, (mergeCaches_references href hmerge).1, hnumber⟩

end Rathaxes.Link
