import Rathaxes.Laws.Merge

/-!
# When a merge finishes

A merge raises an error when an interface with a tree is in both caches, when a template refers to a
chunk the second cache does not have, and, unless conflicts are ignored, when a template meets one of
its hash and with-node. The last may be a template of the first cache or an earlier one of the second.
These are all (`mergeCaches_exists_iff`).
-/

set_option autoImplicit false

namespace Rathaxes.Link

open CodeWorker

/-! ## One template -/

/-- The templates of a bucket can be added to another: none meets one with its with-node. -/
def ConflictFree (ignoreConflicts : Bool) (bucket new : List CachedTemplate) : Prop :=
  ignoreConflicts = true ∨ (new.map CachedTemplate.withConfig).Nodup ∧
    (bucket.map CachedTemplate.withConfig).Disjoint (new.map CachedTemplate.withConfig)

/-- A template refers to chunks that the cache has. -/
def GoodReferences (source : Cache) (tpl : CachedTemplate) : Prop :=
  ∀ e ∈ tpl.chunks.entries, (source.chunkAt e.1 e.2).isSome

variable {ignoreConflicts : Bool} {source : Cache} {table : TplTable} {hash : String}

theorem conflictFree_nil (ignoreConflicts : Bool) (bucket : List CachedTemplate) :
    ConflictFree ignoreConflicts bucket [] :=
  Or.inr ⟨List.nodup_nil, List.disjoint_nil_right _⟩

/-- One template, then the others. -/
theorem conflictFree_cons {bucket new : List CachedTemplate} {tpl copy : CachedTemplate}
    (hcopy : copy.withConfig = tpl.withConfig) : ConflictFree ignoreConflicts bucket (tpl :: new) ↔
      (checkTplConflict bucket tpl.withConfig = false ∨ ignoreConflicts = true) ∧
        ConflictFree ignoreConflicts (bucket ++ [copy]) new := by
  have hconflict : checkTplConflict bucket tpl.withConfig = false ↔
      tpl.withConfig ∉ bucket.map CachedTemplate.withConfig := by
    simp [checkTplConflict]
  unfold ConflictFree
  rw [hconflict]
  cases ignoreConflicts with
  | true => simp
  | false =>
    simp only [Bool.false_eq_true, false_or, or_false, List.map_cons, List.nodup_cons, List.map_append,
      List.map_nil, List.disjoint_append_left, List.disjoint_cons_right, List.singleton_disjoint, hcopy]
    tauto

theorem foldlM_mergeChunk_exists : ∀ (refs : List (String × Nat)) (acc : Cache × CachedTemplate),
    (∃ acc', refs.foldlM (mergeChunk source) acc = .ok acc') ↔
      ∀ e ∈ refs, (source.chunkAt e.1 e.2).isSome := by
  intro refs
  induction refs with
  | nil =>
    intro acc
    exact ⟨fun _ e he => (nomatch he), fun _ => ⟨acc, rfl⟩⟩
  | cons e refs ih =>
    intro acc
    rw [List.foldlM_cons, List.forall_mem_cons]
    constructor
    · rintro ⟨acc', h⟩
      obtain ⟨acc₁, hstep, hrest⟩ := bind_eq_ok_iff.1 h
      obtain ⟨c, hat, -⟩ := mergeChunk_eq_ok_iff.1 hstep
      exact ⟨Option.isSome_iff_exists.2 ⟨c, hat⟩, (ih acc₁).1 ⟨acc', hrest⟩⟩
    · rintro ⟨hfirst, hrest⟩
      obtain ⟨c, hat⟩ := Option.isSome_iff_exists.1 hfirst
      have hstep : mergeChunk source acc e = .ok _ := mergeChunk_eq_ok_iff.2 ⟨c, hat, rfl⟩
      obtain ⟨acc', h⟩ := (ih _).2 hrest
      exact ⟨acc', bind_eq_ok_iff.2 ⟨_, hstep, h⟩⟩

/-- When a template is merged. -/
theorem mergeTpl_exists_iff {dst : Cache} {tpl : CachedTemplate} :
    (∃ dst', mergeTpl ignoreConflicts source table hash dst tpl = .ok dst') ↔
      GoodReferences source tpl ∧
        (checkTplConflict (dst.bucket table hash) tpl.withConfig = false ∨ ignoreConflicts = true) := by
  unfold mergeTpl
  split
  · rename_i hconflict
    have hchunks := @foldlM_mergeChunk_exists source tpl.chunks.entries (dst, tpl)
    constructor
    · rintro ⟨dst', h⟩
      obtain ⟨acc, hacc, -⟩ := bind_eq_ok_iff.1 h
      exact ⟨hchunks.1 ⟨acc, hacc⟩, hconflict⟩
    · rintro ⟨hrefs, -⟩
      obtain ⟨acc, hacc⟩ := hchunks.2 hrefs
      exact ⟨_, bind_eq_ok_iff.2 ⟨acc, hacc, rfl⟩⟩
  · rename_i hconflict
    exact ⟨fun ⟨_, h⟩ => (nomatch h), fun h => absurd h.2 hconflict⟩

/-! ## All templates -/

/-- A merged template stands at the end of its bucket, with its with-node. -/
theorem bucket_mergeTpl {dst dst' : Cache} {tpl : CachedTemplate}
    (h : mergeTpl ignoreConflicts source table hash dst tpl = .ok dst') :
    ∃ copy : CachedTemplate, copy.withConfig = tpl.withConfig ∧
      dst'.bucket table hash = dst.bucket table hash ++ [copy] := by
  obtain ⟨mid, copy, ⟨chunks, rfl⟩, -, hcopy, rfl⟩ := mergeTpl_ok h
  obtain ⟨refs, rfl⟩ := hcopy.template
  refine ⟨{ tpl with chunks := refs }, rfl, ?_⟩
  rw [Cache.bucket_push, if_pos ⟨rfl, rfl⟩]
  cases table <;> rfl

/-- When the templates of a hash are merged. -/
theorem foldlM_mergeTpl_exists : ∀ (tpls : List CachedTemplate) (dst : Cache),
    (∃ dst', tpls.foldlM (mergeTpl ignoreConflicts source table hash) dst = .ok dst') ↔
      (∀ tpl ∈ tpls, GoodReferences source tpl) ∧
        ConflictFree ignoreConflicts (dst.bucket table hash) tpls := by
  intro tpls
  induction tpls with
  | nil =>
    intro dst
    exact ⟨fun _ => ⟨fun _ h => (nomatch h), conflictFree_nil _ _⟩, fun _ => ⟨dst, rfl⟩⟩
  | cons tpl tpls ih =>
    intro dst
    rw [List.forall_mem_cons]
    constructor
    · rintro ⟨dst', h⟩
      rw [List.foldlM_cons] at h
      obtain ⟨dst₁, hstep, h⟩ := bind_eq_ok_iff.1 h
      obtain ⟨hrefs, hconflict⟩ := mergeTpl_exists_iff.1 ⟨dst₁, hstep⟩
      obtain ⟨copy, hcopy, hbucket⟩ := bucket_mergeTpl hstep
      obtain ⟨hrest, hfree⟩ := (ih dst₁).1 ⟨dst', h⟩
      rw [hbucket] at hfree
      exact ⟨⟨hrefs, hrest⟩, (conflictFree_cons hcopy).2 ⟨hconflict, hfree⟩⟩
    · rintro ⟨⟨hrefs, hrest⟩, hfree⟩
      have hconflict := ((conflictFree_cons rfl).1 hfree).1
      obtain ⟨dst₁, hstep⟩ := mergeTpl_exists_iff.2 ⟨hrefs, hconflict⟩
      obtain ⟨copy, hcopy, hbucket⟩ := bucket_mergeTpl hstep
      have hfree := ((conflictFree_cons hcopy).1 hfree).2
      rw [← hbucket] at hfree
      obtain ⟨dst', h⟩ := (ih dst₁).2 ⟨hrest, hfree⟩
      exact ⟨dst', by rw [List.foldlM_cons]; exact bind_eq_ok_iff.2 ⟨dst₁, hstep, h⟩⟩

/-- A merged bucket leaves the other buckets alone. -/
theorem bucket_mergeBucket_other {dst dst' : Cache} {tpls : String × List CachedTemplate}
    (h : mergeBucket ignoreConflicts source table dst tpls = .ok dst') {table' : TplTable}
    {hash' : String} (hne : ¬ (table' = table ∧ hash' = tpls.1)) :
    dst'.bucket table' hash' = dst.bucket table' hash' := by
  have hmerged := ((Merged.start_nil source dst).ensureBucket table tpls.1).run h
  obtain ⟨copies, hbucket, hcopies⟩ := hmerged.buckets table' hash'
  have hnone : filedAt ([] ++ tpls.2.map (Filed.mk table tpls.1)) table' hash' = [] := by
    unfold filedAt
    rw [List.map_eq_nil_iff, List.filter_eq_nil_iff]
    intro f hf
    obtain ⟨tpl, -, rfl⟩ := List.mem_map.1 hf
    simp only [decide_eq_true_eq]
    rintro ⟨rfl, rfl⟩
    exact hne ⟨rfl, rfl⟩
  rw [hnone, List.forall₂_nil_left_iff] at hcopies
  rw [hbucket, hcopies, List.append_nil]

/-- When the buckets of a table are merged. -/
theorem foldlM_mergeBucket_exists : ∀ (buckets : List (String × List CachedTemplate)) (dst : Cache),
    (buckets.map Prod.fst).Nodup →
    ((∃ dst', buckets.foldlM (mergeBucket ignoreConflicts source table) dst = .ok dst') ↔
      ∀ b ∈ buckets, (∀ tpl ∈ b.2, GoodReferences source tpl) ∧
        ConflictFree ignoreConflicts (dst.bucket table b.1) b.2) := by
  intro buckets
  induction buckets with
  | nil =>
    intro dst _
    exact ⟨fun _ b hb => (nomatch hb), fun _ => ⟨dst, rfl⟩⟩
  | cons b buckets ih =>
    intro dst hnodup
    rw [List.map_cons, List.nodup_cons] at hnodup
    rw [List.forall_mem_cons]
    have hfirst := @foldlM_mergeTpl_exists ignoreConflicts source table b.1 b.2
      (dst.ensureBucket table b.1)
    rw [Cache.bucket_ensureBucket] at hfirst
    have hrest : ∀ dst₁, mergeBucket ignoreConflicts source table dst b = .ok dst₁ →
        ((∃ dst', buckets.foldlM (mergeBucket ignoreConflicts source table) dst₁ = .ok dst') ↔
          ∀ b' ∈ buckets, (∀ tpl ∈ b'.2, GoodReferences source tpl) ∧
            ConflictFree ignoreConflicts (dst.bucket table b'.1) b'.2) := by
      intro dst₁ hstep
      rw [ih dst₁ hnodup.2]
      apply forall₂_congr
      intro b' hb'
      rw [bucket_mergeBucket_other hstep]
      rintro ⟨-, heq⟩
      exact hnodup.1 (heq ▸ List.mem_map_of_mem hb')
    constructor
    · rintro ⟨dst', h⟩
      rw [List.foldlM_cons] at h
      obtain ⟨dst₁, hstep, h⟩ := bind_eq_ok_iff.1 h
      exact ⟨hfirst.1 ⟨dst₁, hstep⟩, (hrest dst₁ hstep).1 ⟨dst', h⟩⟩
    · rintro ⟨hb, hbuckets⟩
      obtain ⟨dst₁, hstep⟩ := hfirst.2 hb
      obtain ⟨dst', h⟩ := (hrest dst₁ hstep).2 hbuckets
      exact ⟨dst', by rw [List.foldlM_cons]; exact bind_eq_ok_iff.2 ⟨dst₁, hstep, h⟩⟩

/-! ## The whole merge -/

/-- The condition on the buckets of a table, read by hash. -/
theorem forall_entries_iff (cache : Cache) (table : TplTable)
    {P : String → List CachedTemplate → Prop} (hnil : ∀ hash, P hash []) :
    (∀ b ∈ (cache.table table).entries, P b.1 b.2) ↔ ∀ hash, P hash (cache.bucket table hash) := by
  constructor
  · intro h hash
    unfold Cache.bucket
    cases hget : (cache.table table).get? hash with
    | none => exact hnil hash
    | some tpls => exact h (hash, tpls) (((cache.table table).mem_entries_iff hash tpls).2 hget)
  · intro h b hb
    have hget := ((cache.table table).mem_entries_iff b.1 b.2).1 hb
    have hP := h b.1
    unfold Cache.bucket at hP
    rwa [hget] at hP

theorem mergeTable_exists_iff (dst : Cache) :
    (∃ dst', mergeTable ignoreConflicts source table dst = .ok dst') ↔
      ∀ hash, (∀ tpl ∈ source.bucket table hash, GoodReferences source tpl) ∧
        ConflictFree ignoreConflicts (dst.bucket table hash) (source.bucket table hash) := by
  unfold mergeTable
  rw [foldlM_mergeBucket_exists _ _ (source.table table).nodup]
  exact forall_entries_iff source table (P := fun hash tpls =>
    (∀ tpl ∈ tpls, GoodReferences source tpl) ∧
      ConflictFree ignoreConflicts (dst.bucket table hash) tpls)
    fun hash => ⟨fun _ h => (nomatch h), conflictFree_nil _ _⟩

theorem goodReferences_iff {cache : Cache} : WellReferenced cache ↔
    ∀ table hash, ∀ tpl ∈ cache.bucket table hash, GoodReferences cache tpl := by
  unfold WellReferenced GoodReferences
  constructor
  · intro h table hash tpl htpl e he
    exact h table hash tpl htpl e.1 e.2 ((tpl.chunks.mem_entries_iff e.1 e.2).1 he)
  · intro h table hash tpl htpl name id hid
    exact h table hash tpl htpl (name, id) ((tpl.chunks.mem_entries_iff name id).2 hid)

/-- Merging the sequences leaves the types alone. -/
theorem bucket_mergeTable_other {dst dst' : Cache}
    (h : mergeTable ignoreConflicts source .sequences dst = .ok dst') (hash : String) :
    dst'.bucket .types hash = dst.bucket .types hash := by
  have hmerged := (Merged.start_nil source dst).runTable h
  obtain ⟨copies, hbucket, hcopies⟩ := hmerged.buckets .types hash
  change List.Forall₂ _ (filedAt (source.filed .sequences) .types hash) copies at hcopies
  rw [Cache.filedAt_filed_other source (by decide), List.forall₂_nil_left_iff] at hcopies
  rw [hbucket, hcopies, List.append_nil]

/-- **When a merge finishes.** -/
theorem mergeCaches_exists_iff {cache1 cache2 : Cache} :
    (∃ dst, mergeCaches ignoreConflicts cache1 cache2 = .ok dst) ↔
      InterfacesAgree cache1 cache2.interfaces.entries ∧ WellReferenced cache2 ∧
        ∀ table hash, ConflictFree ignoreConflicts (cache1.bucket table hash)
          (cache2.bucket table hash) := by
  rw [goodReferences_iff]
  unfold mergeCaches
  constructor
  · rintro ⟨dst, h⟩
    obtain ⟨dst₁, hitfs, h⟩ := bind_eq_ok_iff.1 h
    obtain ⟨hagree, itfs, rfl, -⟩ := mergeInterfaces_ok cache2.interfaces.nodup hitfs
    obtain ⟨dst₂, hsequences, htypes⟩ := bind_eq_ok_iff.1 h
    have hseq := (mergeTable_exists_iff _).1 ⟨dst₂, hsequences⟩
    have htype := (mergeTable_exists_iff _).1 ⟨dst, htypes⟩
    simp only [bucket_mergeTable_other hsequences] at htype
    refine ⟨hagree, fun table hash => ?_, fun table hash => ?_⟩
    · cases table with
      | sequences => exact (hseq hash).1
      | types => exact (htype hash).1
    · cases table with
      | sequences => exact (hseq hash).2
      | types => exact (htype hash).2
  · rintro ⟨hagree, hrefs, hfree⟩
    obtain ⟨dst₁, hitfs⟩ := mergeInterfaces_exists cache2.interfaces.nodup hagree
    obtain ⟨-, itfs, rfl, -⟩ := mergeInterfaces_ok cache2.interfaces.nodup hitfs
    obtain ⟨dst₂, hsequences⟩ := (mergeTable_exists_iff
      { cache1 with interfaces := itfs, globalCode := cache1.globalCode ++ cache2.globalCode }).2
      fun hash => ⟨hrefs .sequences hash, hfree .sequences hash⟩
    obtain ⟨dst, htypes⟩ := (mergeTable_exists_iff dst₂).2 fun hash =>
      ⟨hrefs .types hash, by
        rw [bucket_mergeTable_other hsequences]
        exact hfree .types hash⟩
    exact ⟨dst, bind_eq_ok_iff.2 ⟨_, hitfs, bind_eq_ok_iff.2 ⟨dst₂, hsequences, htypes⟩⟩⟩

end Rathaxes.Link
