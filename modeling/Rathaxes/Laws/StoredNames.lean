import Rathaxes.CodeWorker.Text
import Rathaxes.Laws.Validate

/-!
# The names of stored files over several runs

A validation names the files of an entry after a key: of a piece of global code its position in the run
and its with-node, of a chunk its template, its pointcut and its position there. The key can be read back
from its text (`globText_inj`, `chunkText_inj`), and within one run all keys are different. Positions
start again at 0 in every run, so two entries of different runs may have one key, and then one file. The
names in the local cache are distinct exactly when no two runs share a key
(`distinctNames_iff`).
-/

set_option autoImplicit false

namespace Rathaxes

open CodeWorker

/-! ## Full names -/

/-- A full name has one closing parenthesis, its last character. -/
theorem RType.fullName_eq (t : RType) :
    ∃ a : String, t.rtxRTypeFullQualifiedName = a ++ ")" ∧ ')' ∉ a.toList := by
  refine ⟨_, rfl, ?_⟩
  have hparams : ')' ∉ (String.intercalate "," (t.params.map Ident.rtxRTypeName)).toList := by
    rw [String.toList_intercalate]
    apply not_mem_intercalate (by decide)
    intro p hp
    obtain ⟨text, htext, rfl⟩ := List.mem_map.1 hp
    obtain ⟨i, -, rfl⟩ := List.mem_map.1 htext
    exact i.not_mem_rtxRTypeName (by decide) (by decide)
  simp only [String.toList_append, List.mem_append, not_or]
  exact ⟨⟨t.name.not_mem_rtxRTypeName (by decide) (by decide), by decide⟩, hparams⟩

namespace Link

/-! ## Keys can be read back -/

theorem not_mem_position (i : Nat) : '_' ∉ (toString i).toList := by
  intro h
  rw [Nat.toString_eq_repr, Nat.toList_repr] at h
  have hdigit := Nat.isDigit_of_mem_toDigits (by decide) (by decide) h
  revert hdigit
  decide

/-- A position behind the last underscore can be read back. -/
theorem append_position_inj {a b : String} {i j : Nat}
    (h : a ++ "_" ++ toString i = b ++ "_" ++ toString j) : a = b ∧ i = j := by
  have hlist := congrArg String.toList h
  simp only [String.toList_append, List.append_assoc] at hlist
  obtain ⟨hhead, hpos⟩ := split_last_unique (not_mem_position i) (not_mem_position j) hlist
  exact ⟨String.toList_injective hhead,
    Table.positionKey_injective (String.toList_injective hpos)⟩

/-- The text whose digest names the files of a piece of global code. -/
def globText (key : Nat × String) : String := globKey key.1 ++ "_" ++ key.2

/-- The text whose digest names the files of a chunk: its with-node is always empty. -/
def chunkText (env : LinkEnv) (pointcut : String) (key : String × Nat) : String :=
  chunkKey key.1 pointcut key.2 ++ "_" ++ env.withText Table.empty

theorem globText_inj {key key' : Nat × String} (h : globText key = globText key') : key = key' := by
  have hlist := congrArg String.toList h
  simp only [globText, globKey, String.toList_append, List.append_assoc, List.append_cancel_left_eq]
    at hlist
  obtain ⟨hpos, htext⟩ := split_first_unique (not_mem_position key.1) (not_mem_position key'.1) hlist
  exact Prod.ext (Table.positionKey_injective (String.toList_injective hpos))
    (String.toList_injective htext)

theorem chunkText_inj {env : LinkEnv} {pointcut pointcut' : RType} {key key' : String × Nat}
    (hkey : ClosedBy ')' key.1) (hkey' : ClosedBy ')' key'.1)
    (h : chunkText env pointcut.rtxRTypeFullQualifiedName key =
      chunkText env pointcut'.rtxRTypeFullQualifiedName key') :
    pointcut.rtxRTypeFullQualifiedName = pointcut'.rtxRTypeFullQualifiedName ∧ key = key' := by
  unfold chunkText chunkKey at h
  rw [String.append_left_inj, String.append_left_inj] at h
  obtain ⟨hhead, hpos⟩ := append_position_inj h
  obtain ⟨a, ha, hmem⟩ := pointcut.fullName_eq
  obtain ⟨a', ha', hmem'⟩ := pointcut'.fullName_eq
  -- without the closing parenthesis of the pointcut, the last one is that of the template
  rw [ha, ha', ← String.append_assoc, ← String.append_assoc, String.append_left_inj,
    String.append_assoc, String.append_assoc, String.append_assoc, String.append_assoc,
    String.append_right_inj] at hhead
  obtain ⟨htpl, hrest⟩ := append_inj_of_closedBy hkey hkey' (by simp [hmem]) (by simp [hmem']) hhead
  rw [String.append_right_inj] at hrest
  exact ⟨by rw [ha, ha', hrest], Prod.ext htpl hpos⟩

theorem globText_ne_chunkText (env : LinkEnv) (pointcut : String) (key : Nat × String)
    (key' : String × Nat) : globText key ≠ chunkText env pointcut key' := by
  intro h
  have hlist := congrArg String.toList h
  simp [globText, globKey, chunkText, chunkKey] at hlist

/-! ## The differential cache of a run -/

/-- Pushing under a key appends to the items of that key, wherever it stands. -/
theorem flatMap_assign_perm {α β : Type} (g : String → α → β) (k : String) (v : α) :
    ∀ es : List (String × List α),
      ((assign k ((es.lookup k).getD [] ++ [v]) es).flatMap fun e => e.2.map (g e.1)).Perm
        ((es.flatMap fun e => e.2.map (g e.1)) ++ [g k v])
  | [] => by simp [assign]
  | (key, vs) :: es => by
    by_cases hk : key = k
    · subst hk
      simp only [assign, if_pos, lookup_cons_ite, Option.getD_some, List.flatMap_cons, List.map_append,
        List.append_assoc]
      exact List.perm_append_comm.append_left _
    · simp only [assign, if_neg hk, lookup_cons_ite, if_neg (Ne.symm hk), List.flatMap_cons,
        List.append_assoc]
      exact (flatMap_assign_perm g k v es).append_left _

/-- A registered template is one more among the templates, wherever it is filed. -/
theorem TplRegistered.allFiled_perm {cache cache' : Cache} {t : Template} {withValues : WithConfig}
    {tpl : CachedTemplate} (h : TplRegistered cache t withValues tpl cache') :
    cache'.allFiled.Perm (cache.allFiled ++ [⟨t.table, t.hash, tpl⟩]) := by
  obtain ⟨chunks, heq⟩ := h.filed
  have hpush : ∀ table, ((pushUnder (cache.table table) t.hash tpl).entries.flatMap fun b =>
      b.2.map (Filed.mk table b.1)).Perm (cache.filed table ++ [⟨table, t.hash, tpl⟩]) :=
    fun table => flatMap_assign_perm (Filed.mk table) t.hash tpl (cache.table table).entries
  rw [heq]
  unfold Cache.allFiled
  cases htable : t.table with
  | sequences =>
    refine ((hpush .sequences).append_right _).trans ?_
    rw [List.append_assoc, List.append_assoc]
    exact List.perm_append_comm.append_left _
  | types =>
    rw [List.append_assoc]
    exact (hpush .types).append_left _

/-- What holds of the differential cache after any run: references are good, no two templates refer to
one chunk, every chunk stands under a full name, has a full name or nothing for its template, and an
empty with-node. -/
structure WellKeyed (cache : Cache) : Prop where
  references : WellReferenced cache
  distinct : ∀ name, (cache.allFiled.filterMap fun f => f.tpl.chunks.get? name).Nodup
  entries : ∀ name, ∀ c ∈ cache.chunkList name,
    (∃ pointcut : RType, name = pointcut.rtxRTypeFullQualifiedName) ∧ ClosedBy ')' c.tplId ∧
      c.withConfig = Table.empty

namespace WellKeyed

variable {cache cache' : Cache}

theorem empty : WellKeyed Cache.empty where
  references := by decide
  distinct _ := List.nodup_nil
  entries _ c hc := by cases hc

theorem wellKeyed_cachedChunk (c : Chunk) {hash : String} (hhash : ClosedBy ')' hash) :
    (∃ pointcut : RType, c.pointcutName = pointcut.rtxRTypeFullQualifiedName) ∧
      ClosedBy ')' (cachedChunk c hash).tplId ∧ (cachedChunk c hash).withConfig = Table.empty :=
  ⟨⟨c.pointcut, rfl⟩, hhash, rfl⟩

theorem chunk (h : WellKeyed cache) (c : Chunk) : WellKeyed (cache.registerChunk c "") where
  references := by
    intro table hash tpl htpl name id hid
    have hbucket : (cache.registerChunk c "").bucket table hash = cache.bucket table hash := by
      cases table <;> rfl
    rw [hbucket] at htpl
    obtain ⟨c', hat⟩ := Option.isSome_iff_exists.1 (h.references table hash tpl htpl name id hid)
    have hgrow : cache.chunkList name <+: (cache.registerChunk c "").chunkList name :=
      ⟨_, (chunkList_registerChunk cache c "" name).symm⟩
    rw [Cache.chunkAt_of_prefix hgrow hat]
    rfl
  distinct := h.distinct
  entries name c' hc' := by
    rw [chunkList_registerChunk, List.mem_append] at hc'
    rcases hc' with hold | hnew
    · exact h.entries name c' hold
    · split at hnew
      · rename_i hname
        rw [← hname, List.mem_singleton.1 hnew]
        exact wellKeyed_cachedChunk c (closedBy_empty ')')
      · cases hnew

theorem tpl (h : WellKeyed cache) (t : Template) (withValues : WithConfig) :
    WellKeyed (cache.registerTemplate t withValues) := by
  obtain ⟨tpl, htpl⟩ := registerTemplate_spec cache t withValues
  constructor
  case references => exact htpl.wellReferenced h.references
  case distinct =>
    intro name
    rw [(htpl.allFiled_perm.filterMap _).nodup_iff, List.filterMap_append]
    refine (h.distinct name).append ?_ ?_
    · cases hget : tpl.chunks.get? name <;> simp [hget]
    · -- the references of the template lie behind those of the others
      intro id hold hnew
      obtain ⟨f, hf, hid⟩ := List.mem_filterMap.1 hold
      have hnew : tpl.chunks.get? name = some id := by simpa using hnew
      have hsome := h.references f.table f.hash f.tpl (Cache.mem_bucket_iff.2 hf) name id hid
      have hlt : id < (cache.chunkList name).length := by
        obtain ⟨c, hat⟩ := Option.isSome_iff_exists.1 hsome
        exact (List.getElem?_eq_some_iff.1 hat).1
      have hge := (htpl.references name id hnew).1
      omega
  case entries =>
    intro name c hc
    rw [htpl.lists, List.mem_append] at hc
    rcases hc with hold | hnew
    · exact h.entries name c hold
    · obtain ⟨source, hsource, rfl⟩ := List.mem_map.1 hnew
      obtain ⟨-, hname⟩ := List.mem_filter.1 hsource
      rw [← of_decide_eq_true hname]
      exact wellKeyed_cachedChunk source (Or.inr t.prototype.toList_rtxRTypeFullQualifiedName)

theorem step {r : Registration} (h : WellKeyed cache) (hstep : TempStep r cache cache') :
    WellKeyed cache' := by
  cases hstep with
  | unchanged => exact h
  | globalCode => exact ⟨h.references, h.distinct, h.entries⟩
  | tpl t withValues => exact h.tpl t withValues
  | chunk c => exact h.chunk c
  | itf => exact ⟨h.references, h.distinct, h.entries⟩
  | itfExtension => exact ⟨h.references, h.distinct, h.entries⟩

end WellKeyed

/-- **The differential cache of any run is well keyed.** -/
theorem wellKeyed_of_run {s s' : Session} {withValues : WithConfig} {items : List Item}
    (hstart : s.temp = Cache.empty) (hrun : sessionRegisterAll s withValues items = .ok s') :
    WellKeyed s'.temp := by
  refine temp_invariant ?_ (hstart ▸ WellKeyed.empty) hrun
  intro r _ cache cache' hstep hcache
  exact hcache.step hstep

/-! ## The keys of a run -/

/-- The keys of the global code a run registers: positions and texts of the with-nodes. -/
def globKeys (env : LinkEnv) (temp : Cache) : List (Nat × String) :=
  temp.globalCode.zipIdx.map fun glob => (glob.2, env.withText glob.1.withConfig)

/-- The keys of the chunks of a pointcut that a merge copies: templates and positions. -/
def chunkKeys (temp : Cache) (name : String) : List (String × Nat) :=
  (temp.allFiled.filterMap fun f => f.tpl.chunks.get? name).filterMap fun id =>
    (temp.chunkAt name id).map fun c => (c.tplId, id)

/-- The two files named after a digest. -/
def storedFiles (base : String) : String × String := (base ++ ".tree", base ++ ".cws")

/-- The files of a piece of global code. -/
def GlobalCode.filePair (glob : GlobalCode) : String × String := (glob.treeFile, glob.scriptFile)

/-- The files of a chunk. -/
def CachedChunk.filePair (c : CachedChunk) : String × String := (c.treeFile, c.scriptFile)

theorem nodup_globKeys (env : LinkEnv) (temp : Cache) : (globKeys env temp).Nodup := by
  apply List.Nodup.of_map Prod.fst
  unfold globKeys
  rw [List.map_map]
  show (temp.globalCode.zipIdx.map Prod.snd).Nodup
  rw [List.zipIdx_map_snd]
  exact List.nodup_range'

theorem WellKeyed.nodup_chunkKeys {temp : Cache} (h : WellKeyed temp) (name : String) :
    (chunkKeys temp name).Nodup := by
  apply List.Nodup.filterMap _ (h.distinct name)
  intro id id' key hid hid'
  obtain ⟨c, -, rfl⟩ := Option.map_eq_some_iff.1 hid
  obtain ⟨c', -, heq⟩ := Option.map_eq_some_iff.1 hid'
  exact (congrArg Prod.snd heq).symm

/-- The files of renamed global code are named after its keys. -/
theorem filePair_renamedGlob (env : LinkEnv) (temp : Cache) :
    (renamedTemp env temp).globalCode.map GlobalCode.filePair =
      (globKeys env temp).map fun key => storedFiles (env.computeMD5 (globText key)) := by
  unfold renamedTemp globKeys
  rw [List.map_map, List.map_map]
  rfl

theorem chunkAt_renamedTemp (env : LinkEnv) (temp : Cache) (name : String) (id : Nat) :
    (renamedTemp env temp).chunkAt name id =
      (temp.chunkAt name id).map fun c => renamedChunk env name (c, id) := by
  unfold Cache.chunkAt
  rw [chunkList_renamedTemp, List.getElem?_map, List.getElem?_zipIdx, Option.map_map, Nat.zero_add]
  rfl

/-- The files of the renamed chunks that a merge copies are named after their keys. -/
theorem filePair_contributions {temp : Cache} (h : WellKeyed temp) (env : LinkEnv) (name : String) :
    ((renamedTemp env temp).allFiled.flatMap fun f =>
      contribution (renamedTemp env temp) f.tpl name).map CachedChunk.filePair =
      (chunkKeys temp name).map fun key => storedFiles (env.computeMD5 (chunkText env name key)) := by
  have hfiles : ∀ id, ((renamedTemp env temp).chunkAt name id).map CachedChunk.filePair =
      ((temp.chunkAt name id).map fun c => (c.tplId, id)).map fun key =>
        storedFiles (env.computeMD5 (chunkText env name key)) := by
    intro id
    rw [chunkAt_renamedTemp, Option.map_map, Option.map_map]
    cases hat : temp.chunkAt name id with
    | none => rfl
    | some c =>
      have hempty := (h.entries name c (List.mem_of_getElem? hat)).2.2
      simp [renamedChunk, CachedChunk.filePair, storedFiles, validName, chunkText, hempty]
  unfold chunkKeys
  show (temp.allFiled.flatMap _).map _ = _
  induction temp.allFiled with
  | nil => rfl
  | cons f fs ih =>
    rw [List.flatMap_cons, List.map_append, ih, contribution]
    cases hget : f.tpl.chunks.get? name with
    | none => simp [hget]
    | some id =>
      have hid := hfiles id
      cases hat : temp.chunkAt name id with
      | none =>
        rw [hat] at hid
        simp only [Option.map_none, Option.map_eq_none_iff] at hid
        simp [hget, hat, hid]
      | some c =>
        rw [hat] at hid
        obtain ⟨c', hc', hpair⟩ := Option.map_eq_some_iff.1 hid
        simp [hget, hat, hc', hpair]

/-! ## Runs -/

/-- Successive runs of the compiler on one local cache, which is empty at first: the differential caches
of the runs, and the local cache they leave. A run registers items in a session whose differential cache
is fresh, and validates it. -/
inductive Runs (env : LinkEnv) : List Cache → Cache → Prop where
  | start : Runs env [] Cache.empty
  | run {temps : List Cache} {cacheLocal cacheLocal' : Cache} {s s' : Session}
    {withValues : WithConfig} {items : List Item} {fs fs' : FileSystem} :
    Runs env temps cacheLocal → s.temp = Cache.empty →
      sessionRegisterAll s withValues items = .ok s' →
      validateDiff env fs s'.temp cacheLocal = .ok (some (fs', cacheLocal')) →
      Runs env (temps ++ [s'.temp]) cacheLocal'

/-- The entries of a local cache are named after the keys of the runs. -/
structure NamedAfter (env : LinkEnv) (temps : List Cache) (cacheLocal : Cache) : Prop where
  wellKeyed : ∀ temp ∈ temps, WellKeyed temp
  globalCode : cacheLocal.globalCode.map GlobalCode.filePair =
    (temps.flatMap (globKeys env)).map fun key => storedFiles (env.computeMD5 (globText key))
  chunks : ∀ name, (cacheLocal.chunkList name).map CachedChunk.filePair =
    (temps.flatMap fun temp => chunkKeys temp name).map fun key =>
      storedFiles (env.computeMD5 (chunkText env name key))

/-- One run more. -/
theorem NamedAfter.step {env : LinkEnv} {temps : List Cache} {cacheLocal cacheLocal' temp : Cache}
    {fs fs' : FileSystem} (h : NamedAfter env temps cacheLocal) (htemp : WellKeyed temp)
    (hrun : validateDiff env fs temp cacheLocal = .ok (some (fs', cacheLocal'))) :
    NamedAfter env (temps ++ [temp]) cacheLocal' := by
  have hmerge := mergeOf_mergeCaches (validateDiff_eq_some hrun).2
  constructor
  case wellKeyed =>
    intro temp' htemp'
    rcases List.mem_append.1 htemp' with hold | hnew
    · exact h.wellKeyed temp' hold
    · rw [List.mem_singleton.1 hnew]
      exact htemp
  case globalCode =>
    rw [hmerge.globalCode, List.map_append, h.globalCode, filePair_renamedGlob, List.flatMap_append,
      List.map_append, List.flatMap_singleton]
  case chunks =>
    intro name
    rw [hmerge.chunks, List.map_append, h.chunks, filePair_contributions htemp, List.flatMap_append,
      List.map_append, List.flatMap_singleton]

/-- All runs. -/
theorem namedAfter_of_runs {env : LinkEnv} {temps : List Cache} {cacheLocal : Cache}
    (h : Runs env temps cacheLocal) : NamedAfter env temps cacheLocal := by
  induction h with
  | start => exact ⟨fun _ htemp => (nomatch htemp), rfl, fun _ => rfl⟩
  | run _ hstart hregister hvalidate ih => exact ih.step (wellKeyed_of_run hstart hregister) hvalidate

/-! ## Distinct names -/

/-- A piece of global code or a chunk of a cache, by its position. -/
inductive EntryRef where
  | globalCode (i : Nat)
  | chunk (name : String) (id : Nat)
deriving DecidableEq

/-- The two files an entry names, the tree first. -/
def Cache.filesAt (cache : Cache) : EntryRef → Option (String × String)
  | .globalCode i => cache.globalCode[i]?.map GlobalCode.filePair
  | .chunk name id => (cache.chunkAt name id).map CachedChunk.filePair

/-- No two entries name one tree, and no two name one script. -/
def DistinctNames (cache : Cache) : Prop :=
  ∀ r r' files files', cache.filesAt r = some files → cache.filesAt r' = some files' → r ≠ r' →
    files.1 ≠ files'.1 ∧ files.2 ≠ files'.2

/-- Two runs have no key in common. -/
def Apart (env : LinkEnv) (temp temp' : Cache) : Prop :=
  (globKeys env temp).Disjoint (globKeys env temp') ∧
    ∀ name, (chunkKeys temp name).Disjoint (chunkKeys temp' name)

theorem nodup_iff_getElem? {α : Type} {l : List α} :
    l.Nodup ↔ ∀ (i j : Nat) (a : α), l[i]? = some a → l[j]? = some a → i = j := by
  constructor
  · intro h i j a hi hj
    exact (List.getElem?_inj (List.getElem?_eq_some_iff.1 hi).1 h).1 (hi.trans hj.symm)
  · intro h
    rw [List.nodup_iff_pairwise_ne, List.pairwise_iff_getElem]
    intro i j hi hj hlt heq
    have := h i j l[i] (List.getElem?_eq_getElem hi) (by rw [heq]; exact List.getElem?_eq_getElem hj)
    omega

theorem pairwise_forall {α β : Type} {R : β → α → α → Prop} {l : List α} :
    (l.Pairwise fun a b => ∀ x, R x a b) ↔ ∀ x, l.Pairwise (R x) := by
  simp only [List.pairwise_iff_forall_sublist]
  exact ⟨fun h x a b hsub => h hsub x, fun h a b hsub x => h x hsub⟩

namespace NamedAfter

variable {env : LinkEnv} {temps : List Cache} {cacheLocal : Cache}

/-- The text behind the names of an entry. -/
def textAt (env : LinkEnv) (temps : List Cache) : EntryRef → Option String
  | .globalCode i => (temps.flatMap (globKeys env))[i]?.map globText
  | .chunk name id => (temps.flatMap fun temp => chunkKeys temp name)[id]?.map (chunkText env name)

theorem filesAt_eq (h : NamedAfter env temps cacheLocal) (r : EntryRef) :
    cacheLocal.filesAt r = (textAt env temps r).map fun text => storedFiles (env.computeMD5 text) := by
  cases r with
  | globalCode i =>
    have hat := congrArg (fun l => l[i]?) h.globalCode
    simp only [List.getElem?_map] at hat
    rw [Cache.filesAt, hat, textAt, Option.map_map]
    rfl
  | chunk name id =>
    have hat := congrArg (fun l => l[id]?) (h.chunks name)
    simp only [List.getElem?_map] at hat
    rw [Cache.filesAt, Cache.chunkAt, hat, textAt, Option.map_map]
    rfl

/-- Names are distinct exactly when the texts behind them are. -/
theorem distinctNames_iff_texts (h : NamedAfter env temps cacheLocal)
    (hmd5 : Function.Injective env.computeMD5) : DistinctNames cacheLocal ↔
      ∀ r r' text, textAt env temps r = some text → textAt env temps r' = some text → r = r' := by
  constructor
  · intro hdistinct r r' text hr hr'
    by_contra hne
    refine (hdistinct r r' (storedFiles (env.computeMD5 text)) (storedFiles (env.computeMD5 text))
      ?_ ?_ hne).1 rfl
    · rw [h.filesAt_eq, hr]
      rfl
    · rw [h.filesAt_eq, hr']
      rfl
  · intro htexts r r' files files' hfiles hfiles' hne
    rw [h.filesAt_eq] at hfiles hfiles'
    obtain ⟨text, hr, rfl⟩ := Option.map_eq_some_iff.1 hfiles
    obtain ⟨text', hr', rfl⟩ := Option.map_eq_some_iff.1 hfiles'
    have hbase : env.computeMD5 text ≠ env.computeMD5 text' := by
      intro heq
      exact hne (htexts r r' text hr (by rw [hr', hmd5 heq]))
    constructor
    · intro heq
      exact hbase ((String.append_left_inj _).1 heq)
    · intro heq
      exact hbase ((String.append_left_inj _).1 heq)

/-- The key of a chunk stands under a full name and has a full name or nothing for its template. -/
theorem wellFormed_chunkKey (h : NamedAfter env temps cacheLocal) {name : String} {key : String × Nat}
    (hkey : key ∈ temps.flatMap fun temp => chunkKeys temp name) :
    (∃ pointcut : RType, name = pointcut.rtxRTypeFullQualifiedName) ∧ ClosedBy ')' key.1 := by
  obtain ⟨temp, htemp, hkey⟩ := List.mem_flatMap.1 hkey
  obtain ⟨id, -, hid⟩ := List.mem_filterMap.1 hkey
  obtain ⟨c, hat, rfl⟩ := Option.map_eq_some_iff.1 hid
  obtain ⟨hname, htpl, -⟩ := (h.wellKeyed temp htemp).entries name c (List.mem_of_getElem? hat)
  exact ⟨hname, htpl⟩

/-- The texts are distinct exactly when the keys are, under each pointcut and of the global code. -/
theorem texts_distinct_iff (h : NamedAfter env temps cacheLocal) :
    (∀ r r' text, textAt env temps r = some text → textAt env temps r' = some text → r = r') ↔
      (temps.flatMap (globKeys env)).Nodup ∧
        ∀ name, (temps.flatMap fun temp => chunkKeys temp name).Nodup := by
  constructor
  · intro htexts
    constructor
    · rw [nodup_iff_getElem?]
      intro i j key hi hj
      have heq := htexts (.globalCode i) (.globalCode j) (globText key) (by rw [textAt, hi]; rfl)
        (by rw [textAt, hj]; rfl)
      exact EntryRef.globalCode.inj heq
    · intro name
      rw [nodup_iff_getElem?]
      intro i j key hi hj
      have heq := htexts (.chunk name i) (.chunk name j) (chunkText env name key)
        (by rw [textAt, hi]; rfl) (by rw [textAt, hj]; rfl)
      exact (EntryRef.chunk.inj heq).2
  · intro hnodup r r' text hr hr'
    cases r with
    | globalCode i =>
      obtain ⟨key, hi, rfl⟩ := Option.map_eq_some_iff.1 hr
      cases r' with
      | globalCode j =>
        obtain ⟨key', hj, heq⟩ := Option.map_eq_some_iff.1 hr'
        rw [globText_inj heq] at hj
        rw [nodup_iff_getElem?.1 hnodup.1 i j key hi hj]
      | chunk name id =>
        obtain ⟨key', -, heq⟩ := Option.map_eq_some_iff.1 hr'
        exact absurd heq.symm (globText_ne_chunkText env name key key')
    | chunk name id =>
      obtain ⟨key, hid, rfl⟩ := Option.map_eq_some_iff.1 hr
      cases r' with
      | globalCode j =>
        obtain ⟨key', -, heq⟩ := Option.map_eq_some_iff.1 hr'
        exact absurd heq (globText_ne_chunkText env name key' key)
      | chunk name' id' =>
        obtain ⟨key', hid', heq⟩ := Option.map_eq_some_iff.1 hr'
        obtain ⟨⟨pointcut, rfl⟩, hclosed⟩ := h.wellFormed_chunkKey (List.mem_of_getElem? hid)
        obtain ⟨⟨pointcut', rfl⟩, hclosed'⟩ := h.wellFormed_chunkKey (List.mem_of_getElem? hid')
        obtain ⟨hname, rfl⟩ := chunkText_inj hclosed' hclosed heq
        rw [hname] at hid'
        rw [hname, nodup_iff_getElem?.1 (hnodup.2 _) id id' key' hid hid']

end NamedAfter

/-- **Stored names are distinct exactly when no two runs have a key in common.** For any number of runs
on one local cache, with an injective digest. -/
theorem distinctNames_iff {env : LinkEnv} (hmd5 : Function.Injective env.computeMD5)
    {temps : List Cache} {cacheLocal : Cache} (h : Runs env temps cacheLocal) :
    DistinctNames cacheLocal ↔ temps.Pairwise (Apart env) := by
  have hnamed := namedAfter_of_runs h
  rw [hnamed.distinctNames_iff_texts hmd5, hnamed.texts_distinct_iff]
  -- within one run keys are distinct, so only pairs of runs matter
  have hglob : (temps.flatMap (globKeys env)).Nodup ↔ temps.Pairwise fun temp temp' =>
      (globKeys env temp).Disjoint (globKeys env temp') := by
    rw [List.nodup_flatMap]
    exact ⟨fun h => h.2, fun h => ⟨fun temp _ => nodup_globKeys env temp, h⟩⟩
  have hchunk : ∀ name, (temps.flatMap fun temp => chunkKeys temp name).Nodup ↔
      temps.Pairwise fun temp temp' => (chunkKeys temp name).Disjoint (chunkKeys temp' name) := by
    intro name
    rw [List.nodup_flatMap]
    exact ⟨fun h => h.2,
      fun h => ⟨fun temp htemp => (hnamed.wellKeyed temp htemp).nodup_chunkKeys name, h⟩⟩
  simp only [hglob, hchunk]
  unfold Apart
  rw [List.pairwise_and_iff, pairwise_forall]

/-- The key of a chunk names the template of one of the chunks. -/
theorem exists_of_mem_chunkKeys {temp : Cache} {name : String} {key : String × Nat}
    (h : key ∈ chunkKeys temp name) : ∃ e ∈ temp.chunks.entries, ∃ c ∈ e.2, c.tplId = key.1 := by
  obtain ⟨id, -, hid⟩ := List.mem_filterMap.1 h
  obtain ⟨c, hat, rfl⟩ := Option.map_eq_some_iff.1 hid
  have hc := List.mem_of_getElem? hat
  unfold Cache.chunkList at hc
  cases hget : temp.chunks.get? name with
  | none =>
    rw [hget] at hc
    cases hc
  | some chunks =>
    rw [hget] at hc
    exact ⟨(name, chunks), (temp.chunks.mem_entries_iff name chunks).2 hget, c, hc, rfl⟩

/-- Runs without global code whose chunks belong to different templates. -/
theorem apart_of_tplIds {env : LinkEnv} {temp temp' : Cache} (hglob : temp.globalCode = [])
    (h : ∀ e ∈ temp.chunks.entries, ∀ c ∈ e.2, ∀ e' ∈ temp'.chunks.entries, ∀ c' ∈ e'.2,
      c.tplId ≠ c'.tplId) : Apart env temp temp' := by
  constructor
  · unfold globKeys
    rw [hglob]
    exact List.disjoint_nil_left _
  · intro name key hkey hkey'
    obtain ⟨e, he, c, hc, heq⟩ := exists_of_mem_chunkKeys hkey
    obtain ⟨e', he', c', hc', heq'⟩ := exists_of_mem_chunkKeys hkey'
    exact h e he c hc e' he' c' hc' (heq.trans heq'.symm)

/-- Two runs, one for the template `Open()` and one for `Close()`. -/
theorem distinctNames_two_templates : ∃ temps cacheLocal,
    Runs libEnv temps cacheLocal ∧ temps.length = 2 ∧ DistinctNames cacheLocal := by
  have hfirst : ∃ s fs cacheLocal,
      sessionRegisterAll (Session.fresh false) Table.empty [initBlock ⟨"Open", rfl⟩] = .ok s ∧
      validateDiff libEnv (initFiles ⟨"Open", rfl⟩) s.temp Cache.empty = .ok (some (fs, cacheLocal)) ∧
      ∃ s' fs' cacheLocal',
        sessionRegisterAll (Session.fresh false) Table.empty [initBlock ⟨"Close", rfl⟩] = .ok s' ∧
        validateDiff libEnv (initFiles ⟨"Close", rfl⟩) s'.temp cacheLocal =
          .ok (some (fs', cacheLocal')) ∧
        s.temp.globalCode = [] ∧
        ∀ e ∈ s.temp.chunks.entries, ∀ c ∈ e.2, ∀ e' ∈ s'.temp.chunks.entries, ∀ c' ∈ e'.2,
          c.tplId ≠ c'.tplId :=
    ⟨_, _, _, rfl, rfl, _, _, _, rfl, rfl, rfl, by decide⟩
  obtain ⟨s, fs, cacheLocal, hrun, hvalidate, s', fs', cacheLocal', hrun', hvalidate', hglob, htpls⟩ :=
    hfirst
  have hruns : Runs libEnv [s.temp, s'.temp] cacheLocal' :=
    .run (.run .start rfl hrun hvalidate) rfl hrun' hvalidate'
  refine ⟨_, _, hruns, rfl, (distinctNames_iff Function.injective_id hruns).2 ?_⟩
  exact List.pairwise_pair.2 (apart_of_tplIds hglob htpls)

/-- A with-block of the given interface with global code. -/
def globalBlock (interface : Word) : Item :=
  .withBlock (rtxNodeWithOne interface []) ⟨["int x;"], []⟩
    (Files.named interface.text) []

/-- Two runs with global code of different interfaces: both entries have the position 0 and get one
name, and the second run overwrites the file of the first. -/
theorem second_run_overwrites : ∃ s fs cacheLocal s' fs' cacheLocal',
    sessionRegisterAll (Session.fresh false) Table.empty [globalBlock ⟨"LKM", rfl⟩] = .ok s ∧
      validateDiff libEnv (.ofFiles [("LKM.tree", "the first tree"), ("LKM.cws", "the script")]) s.temp
        Cache.empty = .ok (some (fs, cacheLocal)) ∧
      fs.read "lib/glob_0_.tree" = some "the first tree" ∧
      sessionRegisterAll ⟨cacheLocal, Cache.empty, false⟩ Table.empty [globalBlock ⟨"PCI", rfl⟩] =
        .ok s' ∧
      validateDiff libEnv (.ofFiles [("PCI.tree", "the second tree"), ("PCI.cws", "the script"),
        ("lib/glob_0_.tree", "the first tree"), ("lib/glob_0_.cws", "the script")]) s'.temp cacheLocal =
          .ok (some (fs', cacheLocal')) ∧
      cacheLocal'.globalCode.map GlobalCode.treeFile = ["glob_0_.tree", "glob_0_.tree"] ∧
      fs'.read "lib/glob_0_.tree" = some "the second tree" :=
  ⟨_, _, _, _, _, _, rfl, rfl, by decide, rfl, rfl, by decide, by decide⟩

end Link

end Rathaxes
