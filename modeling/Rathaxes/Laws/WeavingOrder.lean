import Rathaxes.CodeWorker.Grouping
import Rathaxes.Laws.Registration

/-!
# The order of chunks before and after a merge

In the session the chunks of a pointcut stand in the order of their registration; that is the order
they are woven in. A merge walks over the templates instead: sequences before types, hash by hash, in
the order in which each hash was first registered, one chunk for each template. The two orders agree
for a pointcut when no template has two chunks for it and the templates that have one were registered
in the order of the walk (`sameOrder_of_walk`); when the entries are distinct, only then.

A second merge finds the templates under the same keys in the same order, so a cache that is loaded
back has the order it was saved with (`contributions_mergeCaches`).
-/

set_option autoImplicit false

namespace Rathaxes.Link

open CodeWorker

/-! ## The walk over the templates of a cache -/

/-- What the templates of a cache contribute to a pointcut, in the order they are merged in. -/
def Cache.contributions (cache : Cache) (name : String) : List CachedChunk :=
  cache.allFiled.flatMap fun f => contribution cache f.tpl name

/-- The places of a cache in the order of the walk. -/
def Cache.places (cache : Cache) : List (TplTable × String) :=
  (cache.table .sequences).keys.map (Prod.mk .sequences) ++
    (cache.table .types).keys.map (Prod.mk .types)

theorem Cache.filed_eq (cache : Cache) (table : TplTable) :
    cache.filed table =
      (cache.table table).keys.flatMap fun k => (cache.bucket table k).map (Filed.mk table k) := by
  unfold filed
  rw [Table.entries_eq (cache.table table) [], List.flatMap_map]
  rfl

/-- The walk goes place by place. -/
theorem Cache.contributions_eq (cache : Cache) (name : String) :
    cache.contributions name = cache.places.flatMap fun k =>
      (cache.bucket k.1 k.2).flatMap fun tpl => contribution cache tpl name := by
  unfold contributions allFiled places
  simp only [filed_eq, List.flatMap_append, List.flatMap_assoc, List.flatMap_map]

/-! ## The keys of a merged table -/

theorem keys_pushUnder {α : Type} (t : Table (List α)) (k : String) (v : α) :
    (pushUnder t k v).keys = addKey t.keys k := Table.keys_set t k _

/-- The keys of a table when a bucket is pushed onto, or created. -/
theorem Cache.keys_setTable (cache : Cache) (table table' : TplTable)
    (buckets : Table (List CachedTemplate)) :
    ((cache.setTable table buckets).table table').keys =
      if table' = table then buckets.keys else (cache.table table').keys := by
  rw [table_setTable]
  split <;> rfl

theorem keys_mergeTpl {ignoreConflicts : Bool} {source dst dst' : Cache} {table : TplTable}
    {hash : String} {tpl : CachedTemplate}
    (h : mergeTpl ignoreConflicts source table hash dst tpl = .ok dst')
    (hmem : hash ∈ (dst.table table).keys) (table' : TplTable) :
    (dst'.table table').keys = (dst.table table').keys := by
  obtain ⟨mid, copy, ⟨chunks, rfl⟩, -, -, rfl⟩ := mergeTpl_ok h
  rw [Cache.keys_setTable, keys_pushUnder]
  have htables : ∀ table, Cache.table { dst with chunks := chunks } table = dst.table table := by
    intro table
    cases table <;> rfl
  rw [htables, htables, addKey_of_mem hmem]
  split
  · rename_i heq
    rw [heq]
  · rfl

/-- Merging a bucket adds its hash to the keys of its table, unless it is there. -/
theorem keys_mergeBucket {ignoreConflicts : Bool} {source dst dst' : Cache} {table : TplTable}
    {tpls : String × List CachedTemplate}
    (h : mergeBucket ignoreConflicts source table dst tpls = .ok dst') (table' : TplTable) :
    (dst'.table table').keys =
      if table' = table then addKey (dst.table table).keys tpls.1 else (dst.table table').keys := by
  unfold mergeBucket at h
  have hstart : ∀ table', ((dst.ensureBucket table tpls.1).table table').keys =
      if table' = table then addKey (dst.table table).keys tpls.1 else (dst.table table').keys := by
    intro table'
    rw [Cache.ensureBucket, Cache.keys_setTable, Table.keys_set]
  refine foldlM_invariant (P := fun dst' => ∀ table', (dst'.table table').keys =
    if table' = table then addKey (dst.table table).keys tpls.1 else (dst.table table').keys)
    ?_ hstart h table'
  intro dst₁ tpl dst₂ _ hkeys hstep table'
  have hmem : tpls.1 ∈ (dst₁.table table).keys := by
    rw [hkeys, if_pos rfl, mem_addKey]
    exact Or.inr rfl
  rw [keys_mergeTpl hstep hmem, hkeys]

theorem keys_mergeBuckets {ignoreConflicts : Bool} {source dst' : Cache} {table : TplTable} :
    ∀ {buckets : List (String × List CachedTemplate)} {dst : Cache},
      buckets.foldlM (mergeBucket ignoreConflicts source table) dst = .ok dst' →
      ∀ table', (dst'.table table').keys =
        if table' = table then (buckets.map Prod.fst).foldl addKey (dst.table table).keys
        else (dst.table table').keys := by
  intro buckets
  induction buckets with
  | nil =>
    intro dst h table'
    cases h
    split
    · rename_i heq
      rw [heq]
      rfl
    · rfl
  | cons b buckets ih =>
    intro dst h table'
    rw [List.foldlM_cons] at h
    obtain ⟨dst₁, hstep, h⟩ := bind_eq_ok_iff.1 h
    rw [ih h table', keys_mergeBucket hstep, keys_mergeBucket hstep, if_pos rfl]
    split <;> rfl

/-- Merged into an empty cache, a table keeps the order of its keys. -/
theorem keys_mergeCaches_empty {ignoreConflicts : Bool} {source dst : Cache}
    (h : mergeCaches ignoreConflicts Cache.empty source = .ok dst) (table : TplTable) :
    (dst.table table).keys = (source.table table).keys := by
  unfold mergeCaches at h
  obtain ⟨dst₁, hitfs, h⟩ := bind_eq_ok_iff.1 h
  obtain ⟨-, itfs, rfl, -⟩ := mergeInterfaces_ok source.interfaces.nodup hitfs
  obtain ⟨dst₂, hsequences, htypes⟩ := bind_eq_ok_iff.1 h
  have hkeys : ∀ table, (source.table table).keys.foldl addKey [] = (source.table table).keys :=
    fun table => foldl_addKey_of_nodup (source.table table).nodup
  unfold mergeTable at hsequences htypes
  rw [keys_mergeBuckets htypes]
  cases table with
  | sequences =>
    rw [if_neg (by decide), keys_mergeBuckets hsequences, if_pos rfl]
    exact hkeys .sequences
  | types =>
    rw [if_pos rfl, keys_mergeBuckets hsequences, if_neg (by decide)]
    exact hkeys .types

theorem flatMap_contribution_copies {source dst : Cache} {tpls copies : List CachedTemplate}
    (h : List.Forall₂ (Copy source dst) tpls copies) (name : String) :
    (copies.flatMap fun tpl => contribution dst tpl name) =
      tpls.flatMap fun tpl => contribution source tpl name := by
  induction h with
  | nil => rfl
  | cons hcopy _ ih => rw [List.flatMap_cons, List.flatMap_cons, ih, hcopy.contribution_eq]

/-- **A merge into an empty cache keeps the walk**: what the templates contribute, and its order. -/
theorem contributions_mergeCaches {ignoreConflicts : Bool} {source dst : Cache}
    (h : mergeCaches ignoreConflicts Cache.empty source = .ok dst) (name : String) :
    dst.contributions name = source.contributions name := by
  have hmerge := mergeOf_mergeCaches h
  have hplaces : dst.places = source.places := by
    unfold Cache.places
    rw [keys_mergeCaches_empty h, keys_mergeCaches_empty h]
  rw [Cache.contributions_eq, Cache.contributions_eq, hplaces]
  congr 1
  funext k
  obtain ⟨copies, hbucket, hcopies⟩ := hmerge.buckets k.1 k.2
  have hnil : Cache.empty.bucket k.1 k.2 = [] := by cases k.1 <;> rfl
  rw [hbucket, hnil, List.nil_append]
  exact flatMap_contribution_copies hcopies name

/-! ## A run of template registrations -/

/-- The place a template is filed at. -/
def place (t : Template × WithConfig) : TplTable × String := (t.1.table, t.1.hash)

/-- The entries a template registers for a pointcut. -/
def entriesAt (name : String) (t : Template × WithConfig) : List CachedChunk :=
  (namesakes t.1.registered name).map fun c => cachedChunk c t.1.hash

/-- The last of them, the one the template refers to. -/
def lastEntryAt (name : String) (t : Template × WithConfig) : List CachedChunk :=
  (entriesAt name t).getLast?.toList

/-- The places of a run in the order in which a merge walks over them: sequences before types, each
place where its hash was first registered. -/
def walkOrder (ts : List (Template × WithConfig)) : List (TplTable × String) :=
  let hashes := fun table => firsts ((ts.filter fun t => t.1.table = table).map fun t => t.1.hash)
  (hashes .sequences).map (Prod.mk .sequences) ++ (hashes .types).map (Prod.mk .types)

/-- What a run of template registrations leaves in a cache. -/
structure TplsRegistered (ts : List (Template × WithConfig)) (cache : Cache) : Prop where
  references : WellReferenced cache
  keys : ∀ table, (cache.table table).keys =
    firsts ((ts.filter fun t => t.1.table = table).map fun t => t.1.hash)
  contributions : ∀ table hash name,
    (cache.bucket table hash).map (fun tpl => contribution cache tpl name) =
      (ts.filter fun t => place t = (table, hash)).map (lastEntryAt name)
  lists : ∀ name, cache.chunkList name = ts.flatMap (entriesAt name)

theorem tplsRegistered_nil : TplsRegistered [] Cache.empty where
  references := by decide
  keys table := by cases table <;> rfl
  contributions table _ _ := by cases table <;> rfl
  lists _ := rfl

/-- A template whose references are good contributes the same when the arrays grow. -/
theorem contribution_of_prefix {cache cache' : Cache} {tpl : CachedTemplate} {name : String}
    (href : ∀ id, tpl.chunks.get? name = some id → (cache.chunkAt name id).isSome)
    (hgrow : cache.chunkList name <+: cache'.chunkList name) :
    contribution cache' tpl name = contribution cache tpl name := by
  unfold contribution
  cases hget : tpl.chunks.get? name with
  | none => rfl
  | some id =>
    obtain ⟨c, hat⟩ := Option.isSome_iff_exists.1 (href id hget)
    rw [Option.bind_some, Option.bind_some, hat, Cache.chunkAt_of_prefix hgrow hat]

/-- One template more. -/
theorem TplsRegistered.step {ts : List (Template × WithConfig)} {cache : Cache}
    (h : TplsRegistered ts cache) (t : Template × WithConfig) :
    TplsRegistered (ts ++ [t]) (cache.registerTemplate t.1 t.2) := by
  obtain ⟨tpl, htpl⟩ := registerTemplate_spec cache t.1 t.2
  have hold : ∀ table hash name, (cache.bucket table hash).map (fun tpl =>
      contribution (cache.registerTemplate t.1 t.2) tpl name) =
        (cache.bucket table hash).map fun tpl => contribution cache tpl name := by
    intro table hash name
    apply List.map_congr_left
    intro old hmem
    exact contribution_of_prefix (h.references table hash old hmem name) (htpl.grow name)
  constructor
  case references => exact htpl.wellReferenced h.references
  case keys =>
    intro table
    obtain ⟨chunks, heq⟩ := htpl.filed
    rw [heq, Cache.keys_setTable, keys_pushUnder, List.filter_append, List.map_append]
    by_cases htable : table = t.1.table
    · subst htable
      simp [h.keys, firsts_concat]
    · have hsame : (Cache.table { cache with chunks := chunks } table).keys = (cache.table table).keys := by
        cases table <;> rfl
      simp [htable, Ne.symm htable, hsame, h.keys]
  case contributions =>
    intro table hash name
    have hlast : contribution (cache.registerTemplate t.1 t.2) tpl name = lastEntryAt name t := by
      rw [htpl.contribution, lastEntryAt, entriesAt, List.getLast?_map]
    rw [htpl.bucket, List.filter_append, List.map_append, ← h.contributions, ← hold]
    by_cases hplace : table = t.1.table ∧ hash = t.1.hash
    · obtain ⟨rfl, rfl⟩ := hplace
      simp [place, hlast]
    · have hother : ¬ (place t = (table, hash)) := by
        intro heq
        exact hplace ⟨(congrArg Prod.fst heq).symm, (congrArg Prod.snd heq).symm⟩
      simp [hplace, hother]
  case lists =>
    intro name
    rw [htpl.lists, h.lists, List.flatMap_append, List.flatMap_singleton]
    rfl

/-- The session and its differential cache after a run from an empty session: they are the same. -/
theorem tplsRegistered_registerTpls (ignoreConflicts : Bool) (ts : List (Template × WithConfig)) :
    TplsRegistered ts (registerTpls ignoreConflicts ts).temp ∧
      (registerTpls ignoreConflicts ts).cache = (registerTpls ignoreConflicts ts).temp := by
  induction ts using List.reverseRecOn with
  | nil => exact ⟨tplsRegistered_nil, rfl⟩
  | append_singleton ts t ih =>
    obtain ⟨hregistered, hsame⟩ := ih
    rw [registerTpls_concat, registerTpl_registerTpls]
    refine ⟨hregistered.step t, ?_⟩
    show Cache.registerTemplate _ _ _ = Cache.registerTemplate _ _ _
    rw [hsame]

/-! ## When the two orders agree -/

theorem nodup_walkOrder (ts : List (Template × WithConfig)) : (walkOrder ts).Nodup := by
  have hmap : ∀ (table : TplTable) (ks : List String), ks.Nodup → (ks.map (Prod.mk table)).Nodup :=
    fun table ks h => h.map fun _ _ heq => (Prod.mk.inj heq).2
  refine (hmap _ _ (nodup_firsts _)).append (hmap _ _ (nodup_firsts _)) ?_
  intro k hseq htype
  obtain ⟨_, -, rfl⟩ := List.mem_map.1 hseq
  obtain ⟨_, -, heq⟩ := List.mem_map.1 htype
  cases heq

theorem place_mem_walkOrder {ts : List (Template × WithConfig)} {t : Template × WithConfig}
    (h : t ∈ ts) : place t ∈ walkOrder ts := by
  have hhash : ∀ table, t.1.table = table →
      t.1.hash ∈ firsts ((ts.filter fun t => t.1.table = table).map fun t => t.1.hash) := by
    intro table htable
    rw [mem_firsts]
    exact List.mem_map.2 ⟨t, List.mem_filter.2 ⟨h, decide_eq_true htable⟩, rfl⟩
  unfold walkOrder place
  rw [List.mem_append]
  cases htable : t.1.table with
  | sequences => exact Or.inl (List.mem_map.2 ⟨_, hhash _ htable, rfl⟩)
  | types => exact Or.inr (List.mem_map.2 ⟨_, hhash _ htable, rfl⟩)

/-- After a run, the walk meets the templates regrouped by their places. -/
theorem TplsRegistered.contributions_eq {ts : List (Template × WithConfig)} {cache : Cache}
    (h : TplsRegistered ts cache) (name : String) :
    cache.contributions name = (regroup (walkOrder ts) place ts).flatMap (lastEntryAt name) := by
  have hplaces : cache.places = walkOrder ts := by
    unfold Cache.places walkOrder
    rw [h.keys, h.keys]
  rw [Cache.contributions_eq, hplaces, regroup, List.flatMap_assoc]
  congr 1
  funext k
  have hbucket := congrArg List.flatten (h.contributions k.1 k.2 name)
  rwa [← List.flatMap_def, ← List.flatMap_def] at hbucket

/-- The templates of a run that have a chunk for a pointcut. -/
def weaversOf (name : String) (ts : List (Template × WithConfig)) : List (Template × WithConfig) :=
  ts.filter fun t => entriesAt name t ≠ []

/-- The order of registration is that of the walk, as far as a pointcut goes: no template has two
chunks for it, and the templates that have one were registered place by place. -/
structure InWalkOrder (ts : List (Template × WithConfig)) (name : String) : Prop where
  single : ∀ t ∈ ts, (entriesAt name t).length ≤ 1
  sorted : (weaversOf name ts).Pairwise fun a b =>
    rank (walkOrder ts) (place a) ≤ rank (walkOrder ts) (place b)

instance (ts : List (Template × WithConfig)) (name : String) : Decidable (InWalkOrder ts name) :=
  decidable_of_iff ((∀ t ∈ ts, (entriesAt name t).length ≤ 1) ∧ (weaversOf name ts).Pairwise fun a b =>
      rank (walkOrder ts) (place a) ≤ rank (walkOrder ts) (place b))
    ⟨fun h => ⟨h.1, h.2⟩, fun h => ⟨h.single, h.sorted⟩⟩

theorem length_lastEntryAt (name : String) (t : Template × WithConfig) :
    (lastEntryAt name t).length = min 1 (entriesAt name t).length := by
  unfold lastEntryAt
  cases h : entriesAt name t with
  | nil => rfl
  | cons e es =>
    rw [List.getLast?_eq_some_getLast (List.cons_ne_nil e es)]
    simp

/-- A template with one chunk at most refers to all it has. -/
theorem lastEntryAt_of_single {name : String} {t : Template × WithConfig}
    (h : (entriesAt name t).length ≤ 1) : lastEntryAt name t = entriesAt name t := by
  unfold lastEntryAt
  match hentries : entriesAt name t, h with
  | [], _ => rfl
  | [e], _ => rfl

/-- Only the templates that have a chunk for the pointcut matter. -/
theorem flatMap_entriesAt (name : String) (ts : List (Template × WithConfig)) :
    ts.flatMap (entriesAt name) = (weaversOf name ts).flatMap (entriesAt name) := by
  induction ts with
  | nil => rfl
  | cons t ts ih =>
    unfold weaversOf at ih ⊢
    by_cases h : entriesAt name t = []
    · simp [h, ih]
    · simp [h, ih]

/-- If no template has two chunks for the pointcut, the walk meets the chunks of the regrouped
templates. -/
theorem TplsRegistered.contributions_of_single {ts : List (Template × WithConfig)} {cache : Cache}
    {name : String} (h : TplsRegistered ts cache)
    (hsingle : ∀ t ∈ ts, (entriesAt name t).length ≤ 1) :
    cache.contributions name =
      (regroup (walkOrder ts) place (weaversOf name ts)).flatMap (entriesAt name) := by
  have hperm := regroup_perm (nodup_walkOrder ts) fun t (ht : t ∈ ts) => place_mem_walkOrder ht
  rw [h.contributions_eq, weaversOf, ← filter_regroup]
  change _ = (weaversOf name (regroup (walkOrder ts) place ts)).flatMap (entriesAt name)
  rw [← flatMap_entriesAt]
  apply List.flatMap_congr
  intro t ht
  exact lastEntryAt_of_single (hsingle t (hperm.mem_iff.1 ht))

theorem length_flatMap_le {α β : Type} {f g : α → List β} : ∀ {l : List α},
    (∀ a ∈ l, (f a).length ≤ (g a).length) → (l.flatMap f).length ≤ (l.flatMap g).length := by
  intro l
  induction l with
  | nil => simp
  | cons b l ih =>
    intro hle
    have hb := hle b List.mem_cons_self
    have hl := ih fun a ha => hle a (List.mem_cons_of_mem b ha)
    rw [List.flatMap_cons, List.flatMap_cons, List.length_append, List.length_append]
    omega

/-- Lists of lists with equal total length, one inside the other, have equal lengths. -/
theorem length_eq_of_flatMap {α β : Type} {f g : α → List β} : ∀ {l : List α},
    (∀ a ∈ l, (f a).length ≤ (g a).length) → (l.flatMap f).length = (l.flatMap g).length →
      ∀ a ∈ l, (f a).length = (g a).length := by
  intro l
  induction l with
  | nil =>
    intro _ _ a ha
    cases ha
  | cons b l ih =>
    intro hle hlength
    have hb := hle b List.mem_cons_self
    have htail : ∀ a ∈ l, (f a).length ≤ (g a).length := fun a ha => hle a (List.mem_cons_of_mem b ha)
    have hsum := length_flatMap_le htail
    rw [List.flatMap_cons, List.flatMap_cons, List.length_append, List.length_append] at hlength
    intro a ha
    rcases List.mem_cons.1 ha with rfl | ha
    · omega
    · exact ih htail (by omega) a ha

/-- If the walk meets as many chunks as were registered, no template has two. -/
theorem TplsRegistered.single_of_eq {ts : List (Template × WithConfig)} {cache : Cache}
    {name : String} (h : TplsRegistered ts cache)
    (heq : cache.contributions name = cache.chunkList name) :
    ∀ t ∈ ts, (entriesAt name t).length ≤ 1 := by
  have hperm := regroup_perm (nodup_walkOrder ts) fun t (ht : t ∈ ts) => place_mem_walkOrder ht
  have hlength : (ts.flatMap (lastEntryAt name)).length = (ts.flatMap (entriesAt name)).length := by
    rw [← h.lists, ← heq, h.contributions_eq]
    exact ((hperm.flatMap_right (lastEntryAt name)).length_eq).symm
  intro t ht
  have hle : ∀ t ∈ ts, (lastEntryAt name t).length ≤ (entriesAt name t).length := by
    intro t _
    rw [length_lastEntryAt]
    omega
  have heq := length_eq_of_flatMap hle hlength t ht
  rw [length_lastEntryAt] at heq
  omega

/-- A list is known by the images of its items, if these are distinct. -/
theorem eq_of_map_eq {α β : Type} {f : α → β} {l l' : List α} (hnodup : (l.map f).Nodup)
    (hsub : l' ⊆ l) (h : l'.map f = l.map f) : l' = l := by
  have hlength : l'.length = l.length := by simpa using congrArg List.length h
  apply List.ext_getElem hlength
  intro i hi' hi
  apply List.inj_on_of_nodup_map hnodup (hsub (List.getElem_mem hi')) (List.getElem_mem hi)
  have hat := List.getElem_of_eq h (i := i) (by simpa using hi')
  simpa using hat

/-- The same for lists of one item each. -/
theorem eq_of_flatMap_eq {α β : Type} {f : α → List β} {l l' : List α}
    (hone : ∀ a ∈ l, (f a).length = 1) (hnodup : (l.flatMap f).Nodup) (hsub : l' ⊆ l)
    (h : l'.flatMap f = l.flatMap f) : l' = l := by
  have hmap : ∀ l', l' ⊆ l → (l'.flatMap f).map some = l'.map fun a => (f a).head? := by
    intro l' hsub
    induction l' with
    | nil => rfl
    | cons a l' ih =>
      rw [List.cons_subset] at hsub
      obtain ⟨e, he⟩ := List.length_eq_one_iff.1 (hone a hsub.1)
      rw [List.flatMap_cons, List.map_append, List.map_cons, ih hsub.2, he]
      rfl
  apply eq_of_map_eq (f := fun a => (f a).head?) _ hsub
  · rw [← hmap l' hsub, ← hmap l (List.Subset.refl l), h]
  · rw [← hmap l (List.Subset.refl l)]
    exact hnodup.map fun _ _ heq => Option.some.inj heq

/-- **The order of weaving survives saving and loading** for a pointcut when the templates were
registered in the order of the walk, and only then if the entries of the pointcut are distinct. -/
theorem weavingOrder_stable {ignoreConflicts : Bool} {ts : List (Template × WithConfig)}
    {cacheLocal loaded : Cache}
    (hlocal : mergeCaches ignoreConflicts Cache.empty (registerTpls ignoreConflicts ts).temp =
      .ok cacheLocal)
    (hload : mergeCaches ignoreConflicts Cache.empty cacheLocal = .ok loaded) (name : String) :
    (InWalkOrder ts name →
      loaded.chunkList name = (registerTpls ignoreConflicts ts).cache.chunkList name) ∧
    (((registerTpls ignoreConflicts ts).cache.chunkList name).Nodup →
      loaded.chunkList name = (registerTpls ignoreConflicts ts).cache.chunkList name →
      InWalkOrder ts name) := by
  obtain ⟨hrun, hsame⟩ := tplsRegistered_registerTpls ignoreConflicts ts
  -- loaded back, the pointcut has what the walk over the differential cache meets
  have hloaded : loaded.chunkList name = (registerTpls ignoreConflicts ts).temp.contributions name := by
    rw [(mergeOf_mergeCaches hload).chunks]
    exact contributions_mergeCaches hlocal name
  have hmem : ∀ t ∈ weaversOf name ts, place t ∈ walkOrder ts :=
    fun t ht => place_mem_walkOrder (List.mem_of_mem_filter ht)
  have hwalk := regroup_eq_iff (nodup_walkOrder ts) hmem
  rw [hloaded, hsame]
  constructor
  · intro horder
    rw [hrun.contributions_of_single horder.single, hwalk.2 horder.sorted, hrun.lists,
      flatMap_entriesAt name ts]
  · intro hnodup heq
    have hsingle := hrun.single_of_eq heq
    refine ⟨hsingle, hwalk.1 ?_⟩
    rw [hrun.lists, flatMap_entriesAt name ts] at hnodup
    rw [hrun.contributions_of_single hsingle, hrun.lists, flatMap_entriesAt name ts] at heq
    refine eq_of_flatMap_eq ?_ hnodup (regroup_perm (nodup_walkOrder ts) hmem).subset heq
    intro t ht
    obtain ⟨hmem, hsome⟩ := List.mem_filter.1 ht
    have hpos := List.length_pos_iff.2 (of_decide_eq_true hsome)
    have hle := hsingle t hmem
    omega

/-- The two sequences with a chunk for `LKM::init()`, registered one after the other. -/
theorem weavingOrder_two_sequences : ∃ cacheLocal loaded,
    mergeCaches false Cache.empty (registerTpls false [(initTemplate ⟨"Open", rfl⟩, Table.empty),
      (initTemplate ⟨"Close", rfl⟩, Table.empty)]).temp = .ok cacheLocal ∧
    mergeCaches false Cache.empty cacheLocal = .ok loaded ∧
    loaded.chunkList "LKM::init()" = (registerTpls false [(initTemplate ⟨"Open", rfl⟩, Table.empty),
      (initTemplate ⟨"Close", rfl⟩, Table.empty)]).cache.chunkList "LKM::init()" := by
  have horder : InWalkOrder [(initTemplate ⟨"Open", rfl⟩, Table.empty),
      (initTemplate ⟨"Close", rfl⟩, Table.empty)] "LKM::init()" := by decide
  have hmerge : ∃ cacheLocal loaded,
      mergeCaches false Cache.empty (registerTpls false [(initTemplate ⟨"Open", rfl⟩, Table.empty),
        (initTemplate ⟨"Close", rfl⟩, Table.empty)]).temp = .ok cacheLocal ∧
      mergeCaches false Cache.empty cacheLocal = .ok loaded := ⟨_, _, rfl, rfl⟩
  obtain ⟨cacheLocal, loaded, hlocal, hload⟩ := hmerge
  exact ⟨cacheLocal, loaded, hlocal, hload, (weavingOrder_stable hlocal hload _).1 horder⟩

/-- A type is registered before a sequence; loaded back, the sequence's chunk comes first. -/
theorem type_before_sequence_reordered : ∃ cacheLocal loaded,
    mergeCaches false Cache.empty (registerTpls false
      [({ initTemplate ⟨"Buffer", rfl⟩ with tplType := .type }, Table.empty),
        (initTemplate ⟨"Open", rfl⟩, Table.empty)]).temp = .ok cacheLocal ∧
    mergeCaches false Cache.empty cacheLocal = .ok loaded ∧
    ((registerTpls false [({ initTemplate ⟨"Buffer", rfl⟩ with tplType := .type }, Table.empty),
      (initTemplate ⟨"Open", rfl⟩, Table.empty)]).cache.chunkList "LKM::init()").map
        CachedChunk.tplId = ["Buffer()", "Open()"] ∧
    (loaded.chunkList "LKM::init()").map CachedChunk.tplId = ["Open()", "Buffer()"] :=
  ⟨_, _, rfl, rfl, by decide, by decide⟩

end Rathaxes.Link
