import Rathaxes.Laws.ConfigMatcher
import Rathaxes.Laws.Session
import Rathaxes.Link.Query

/-!
# What the queries return

Matching entries against a configuration is an ordinary filter as long as no comparison raises an
error (`collect_eq_ok_iff`). The selection of a unique template then
reads its survivor back under the key `0`, which is the survivor's own key only when it stood first
in its list.
-/

set_option autoImplicit false

namespace Rathaxes.Link

open CodeWorker

/-- The match of a with-block answers true. -/
def Compatible (withConfig : WithConfig) (config : Config) : Prop :=
  isWithNodeCompatible withConfig config = .ok true

instance (withConfig : WithConfig) (config : Config) : Decidable (Compatible withConfig config) :=
  inferInstanceAs (Decidable (_ = _))

/-- The match of a with-block raises no error. -/
def Completes (withConfig : WithConfig) (config : Config) : Prop :=
  ∃ verdict, isWithNodeCompatible withConfig config = .ok verdict

instance (withConfig : WithConfig) (config : Config) : Decidable (Completes withConfig config) :=
  match h : isWithNodeCompatible withConfig config with
  | .ok verdict => isTrue ⟨verdict, h⟩
  | .error e => isFalse fun ⟨verdict, hv⟩ => by rw [h] at hv; cases hv

theorem verdict_eq_compatible {withConfig : WithConfig} {config : Config} {b : Bool}
    (h : isWithNodeCompatible withConfig config = .ok b) :
    b = decide (Compatible withConfig config) := by
  cases b <;> simp [Compatible, h]

/-! ## Filters -/

/-- A loop over matches succeeds exactly when every match completes, and then it is a filter. -/
theorem collect_eq_ok_iff {α : Type} (withOf : α → WithConfig) (config : Config) (wanted : Bool) :
    ∀ (items collected : List α), collect withOf config wanted items = .ok collected ↔
      (∀ item ∈ items, Completes (withOf item) config) ∧
        collected = items.filter (fun item => decide (Compatible (withOf item) config) = wanted)
  | [], collected => by simp [collect, eq_comm]
  | item :: items, collected => by
    have ih := collect_eq_ok_iff withOf config wanted items
    rw [collect]
    cases hmatch : isWithNodeCompatible (withOf item) config with
    | error e => simp [Completes, hmatch]
    | ok b =>
      have hb := verdict_eq_compatible hmatch
      have hitem : Completes (withOf item) config := ⟨b, hmatch⟩
      cases hrest : collect withOf config wanted items with
      | error e =>
        have : ¬ ∀ i ∈ items, Completes (withOf i) config := fun hall =>
          absurd ((ih _).2 ⟨hall, rfl⟩) (by simp [hrest])
        simp [hitem, this]
      | ok rest =>
        obtain ⟨hall, hfilter⟩ := (ih rest).1 hrest
        subst hfilter hb
        simp only [List.mem_cons, forall_eq_or_imp, hitem, true_and, and_iff_right hall,
          List.filter_cons, Except.ok.injEq, decide_eq_true_eq]
        exact eq_comm

/-- The loop raises an error exactly when one of its matches does. -/
theorem exists_collect_eq_ok_iff {α : Type} (withOf : α → WithConfig) (config : Config)
    (wanted : Bool) (items : List α) :
    (∃ collected, collect withOf config wanted items = .ok collected) ↔
      ∀ item ∈ items, Completes (withOf item) config := by
  simp only [collect_eq_ok_iff, exists_and_left, exists_eq, and_true]

/-! ## The unique template -/

/-- One of the templates a search has found: its table, its key there and the cached node. -/
structure Candidate where
  table : TplTable
  key : String
  tpl : CachedTemplate
deriving DecidableEq

namespace Candidate

/-- The place of a candidate in the session, when it was found under `hash`. -/
def ref (c : Candidate) (hash : String) : TplRef := ⟨c.table, hash, c.key⟩

/-- The reference the selection leaves when the candidate is the only survivor: it has to stand at the key 0. -/
def LeavesRef (c : Candidate) (r : TplRef) : Prop :=
  c.key = "0" ∧ r = c.ref c.tpl.rtype.rtxRTypeFullQualifiedName

end Candidate

namespace FoundTemplates

/-- Everything a search has found, in the order the selection looks at it. -/
def candidates (found : FoundTemplates) : List Candidate :=
  found.sequences.entries.map (fun e => ⟨.sequences, e.1, e.2⟩) ++
    found.types.entries.map (fun e => ⟨.types, e.1, e.2⟩)

/-- The candidates the configuration is compatible with. -/
def compatible (found : FoundTemplates) (config : Config) : List Candidate :=
  found.candidates.filter fun c => Compatible c.tpl.withConfig config

end FoundTemplates

/-- The entries of one table a configuration is compatible with. -/
def compatibleEntries (t : Table CachedTemplate) (config : Config) :
    List (String × CachedTemplate) :=
  t.entries.filter fun e => Compatible e.2.withConfig config

theorem compatible_eq_append (found : FoundTemplates) (config : Config) :
    found.compatible config =
      (compatibleEntries found.sequences config).map (fun e => ⟨.sequences, e.1, e.2⟩) ++
        (compatibleEntries found.types config).map (fun e => ⟨.types, e.1, e.2⟩) := by
  simp only [FoundTemplates.compatible, FoundTemplates.candidates, compatibleEntries,
    List.filter_append, List.filter_map]
  rfl

/-- The two passes over one list, collect the keys and remove them, leave the compatible entries. -/
theorem entries_survivors {config : Config} {t : Table CachedTemplate} {keys : List String}
    (h : keysToRemove config t = .ok keys) :
    (keys.foldl Table.remove t).entries = compatibleEntries t config := by
  rw [keysToRemove] at h
  cases hc : collect (fun e : String × CachedTemplate => e.2.withConfig) config false t.entries with
  | error e => rw [hc] at h; cases h
  | ok incompatible =>
    rw [hc] at h
    obtain rfl : incompatible.map Prod.fst = keys := Except.ok.inj h
    obtain ⟨-, rfl⟩ := (collect_eq_ok_iff _ config false t.entries incompatible).1 hc
    have hleft := t.entries_foldl_remove_filter (fun e => Compatible e.2.withConfig config)
    simpa [compatibleEntries] using hleft

theorem keysToRemove_ok_iff (config : Config) (t : Table CachedTemplate) :
    (∃ keys, keysToRemove config t = .ok keys) ↔
      ∀ e ∈ t.entries, Completes e.2.withConfig config := by
  rw [← exists_collect_eq_ok_iff (fun e : String × CachedTemplate => e.2.withConfig) config false]
  rw [keysToRemove]
  cases collect (fun e : String × CachedTemplate => e.2.withConfig) config false t.entries <;>
    simp [Except.map]

theorem tempOf_of_singleton {t : Table CachedTemplate} {key : String} {tpl : CachedTemplate} {r : TplRef}
    (table : TplTable) (h : t.entries = [(key, tpl)]) :
    (tempOf table t).map some = .ok (some r) ↔ (Candidate.mk table key tpl).LeavesRef r := by
  rw [tempOf, Table.get?, h, lookup_cons_ite, Candidate.LeavesRef]
  by_cases hk : key = "0"
  · simp [hk, copyOf, bind, Except.bind, pure, Except.pure, Except.map, Candidate.ref, eq_comm]
  · simp [hk, Ne.symm hk, copyOf, bind, Except.bind, Except.map]

theorem completes_candidates_iff (found : FoundTemplates) (config : Config) :
    (∀ c ∈ found.candidates, Completes c.tpl.withConfig config) ↔
      (∃ keys, keysToRemove config found.sequences = .ok keys) ∧
        ∃ keys, keysToRemove config found.types = .ok keys := by
  rw [keysToRemove_ok_iff, keysToRemove_ok_iff, FoundTemplates.candidates, List.forall_mem_append,
    List.forall_mem_map, List.forall_mem_map]

/-- The candidates a pair of tables holds. -/
private theorem candidates_mk (sequences types : Table CachedTemplate) :
    (FoundTemplates.mk sequences types).candidates =
      sequences.entries.map (fun e => ⟨.sequences, e.1, e.2⟩) ++
        types.entries.map (fun e => ⟨.types, e.1, e.2⟩) := rfl

theorem refSurvivor_eq_ok_iff (sequences types : Table CachedTemplate) (r : TplRef) :
    refSurvivor sequences types = .ok (some r) ↔
      ∃ c, (FoundTemplates.mk sequences types).candidates = [c] ∧ c.LeavesRef r := by
  rw [candidates_mk, refSurvivor, Table.size, Table.size]
  -- the sizes decide: one entry in all, in the first table or in the second
  cases hs : sequences.entries with
  | nil =>
    cases ht : types.entries with
    | nil => simp
    | cons e es =>
      cases es with
      | nil => simp [tempOf_of_singleton .types ht]
      | cons e' es => simp
  | cons e es =>
    cases es with
    | nil =>
      cases ht : types.entries with
      | nil => simp [tempOf_of_singleton .sequences hs]
      | cons e' es => simp
    | cons e' es =>
      have hsize : (e :: e' :: es).length + types.entries.length ≠ 1 := by
        simp only [List.length_cons]
        omega
      rw [if_pos hsize]
      simp

/-- **What the selection answers.** It returns true when every match completes and exactly one
candidate is compatible, and that one stands at the key 0. -/
theorem selectUniqueTemplate_eq_iff (found : FoundTemplates) (config : Config) (r : TplRef) :
    selectUniqueTemplate found config = .ok (some r) ↔
      (∀ c ∈ found.candidates, Completes c.tpl.withConfig config) ∧
        ∃ c, found.compatible config = [c] ∧ c.LeavesRef r := by
  rw [completes_candidates_iff, compatible_eq_append]
  rw [selectUniqueTemplate]
  cases hs : keysToRemove config found.sequences with
  | error e => simp [bind, Except.bind]
  | ok sequenceKeys =>
    cases ht : keysToRemove config found.types with
    | error e => simp [bind, Except.bind]
    | ok typeKeys =>
      have hleft := refSurvivor_eq_ok_iff (sequenceKeys.foldl Table.remove found.sequences)
        (typeKeys.foldl Table.remove found.types) r
      rw [candidates_mk, entries_survivors hs, entries_survivors ht] at hleft
      simpa [bind, Except.bind, pure, Except.pure] using hleft

theorem searchTable_eq_some {searched : Bool} {buckets : Table (List CachedTemplate)}
    {hash : String} {tpls : List CachedTemplate} (h : searchTable searched buckets hash = some tpls) :
    tpls = [] ∨ buckets.get? hash = some tpls := by
  unfold searchTable at h
  split at h
  · exact Or.inr h
  · exact Or.inl (Option.some.inj h).symm

theorem findTemplates_eq_some {s : Session} {theRtype : RType} {specifier : Specifier}
    {found : FoundTemplates} (h : findTemplates s theRtype specifier = some found) :
    ∃ sequences types, found = ⟨Table.ofList sequences, Table.ofList types⟩ ∧
      (sequences = [] ∨
        s.cache.sequences.get? theRtype.rtxRTypeFullQualifiedName = some sequences) ∧
      (types = [] ∨ s.cache.types.get? theRtype.rtxRTypeFullQualifiedName = some types) := by
  obtain ⟨sequences, hsequences, h⟩ := Option.bind_eq_some_iff.1 h
  obtain ⟨types, htypes, h⟩ := Option.bind_eq_some_iff.1 h
  exact ⟨sequences, types, (Option.some.inj h).symm, searchTable_eq_some hsequences,
    searchTable_eq_some htypes⟩

/-- The entry a bucket holds at a key, when the bucket was copied from a table of the session. -/
private theorem bucket_entry {buckets : Table (List CachedTemplate)} {hash : String}
    {tpls : List CachedTemplate} {e : String × CachedTemplate}
    (hbucket : tpls = [] ∨ buckets.get? hash = some tpls) (he : e ∈ (Table.ofList tpls).entries) :
    ((buckets.get? hash).bind fun tpls => (Table.ofList tpls).get? e.1) = some e.2 ∧
      buckets.get? hash = some tpls ∧ e.2 ∈ tpls := by
  have hmem := Table.mem_of_mem_entries_ofList he
  have hget := hbucket.resolve_left (List.ne_nil_of_mem hmem)
  refine ⟨?_, hget, hmem⟩
  rw [hget]
  exact ((Table.ofList tpls).mem_entries_iff e.1 e.2).1 he

/-- A candidate stands in the session at the place it was found, under its own hash when the
session is well filed. -/
theorem deref_candidate {s : Session} {theRtype : RType} {specifier : Specifier}
    {found : FoundTemplates} (hfound : findTemplates s theRtype specifier = some found)
    {c : Candidate} (hc : c ∈ found.candidates) :
    s.deref (c.ref theRtype.rtxRTypeFullQualifiedName) = some c.tpl ∧
      (WellFiled s.cache →
        c.tpl.rtype.rtxRTypeFullQualifiedName = theRtype.rtxRTypeFullQualifiedName) := by
  obtain ⟨sequences, types, rfl, hsequences, htypes⟩ := findTemplates_eq_some hfound
  rw [candidates_mk, List.mem_append, List.mem_map, List.mem_map] at hc
  rcases hc with ⟨e, he, rfl⟩ | ⟨e, he, rfl⟩
  · obtain ⟨hderef, hget, hmem⟩ := bucket_entry hsequences he
    exact ⟨hderef, fun hfiled => hfiled.sequences _ _ hget e.2 hmem⟩
  · obtain ⟨hderef, hget, hmem⟩ := bucket_entry htypes he
    exact ⟨hderef, fun hfiled => hfiled.types _ _ hget e.2 hmem⟩

/-- The contract of the selection on the templates found under one hash: it returns true exactly
when one of them is compatible, and then refers to that template of the session. -/
structure SelectsUnique (s : Session) (found : FoundTemplates) (hash : String) (config : Config) :
    Prop where
  returns_true_iff : (∃ r, selectUniqueTemplate found config = .ok (some r)) ↔
    ∃ c, found.compatible config = [c]
  refers : ∀ c r, found.compatible config = [c] →
    selectUniqueTemplate found config = .ok (some r) →
      r = c.ref hash ∧ s.deref r = some c.tpl

/-- **When the selection keeps its contract.** Exactly when, as soon as one template only is
compatible, that template stands first in its list and no match raises an error. -/
theorem selectsUnique_iff {s : Session} (hfiled : WellFiled s.cache) {theRtype : RType}
    {specifier : Specifier} {found : FoundTemplates}
    (hfound : findTemplates s theRtype specifier = some found) (config : Config) :
    SelectsUnique s found theRtype.rtxRTypeFullQualifiedName config ↔
      ∀ c, found.compatible config = [c] →
        c.key = "0" ∧ ∀ d ∈ found.candidates, Completes d.tpl.withConfig config := by
  have hmem : ∀ c, found.compatible config = [c] → c ∈ found.candidates := by
    intro c hc
    have : c ∈ found.compatible config := hc ▸ List.mem_singleton_self c
    exact List.mem_of_mem_filter this
  constructor
  · intro hsel c hc
    obtain ⟨r, hr⟩ := hsel.returns_true_iff.2 ⟨c, hc⟩
    obtain ⟨hcompletes, c', hc', hkey, -⟩ := (selectUniqueTemplate_eq_iff found config r).1 hr
    obtain rfl : c = c' := List.singleton_inj.1 (hc.symm.trans hc')
    exact ⟨hkey, hcompletes⟩
  · intro hfirst
    have hselect : ∀ c, found.compatible config = [c] →
        selectUniqueTemplate found config =
          .ok (some (c.ref theRtype.rtxRTypeFullQualifiedName)) := by
      intro c hc
      obtain ⟨hkey, hcompletes⟩ := hfirst c hc
      refine (selectUniqueTemplate_eq_iff found config _).2 ⟨hcompletes, c, hc, hkey, ?_⟩
      rw [(deref_candidate hfound (hmem c hc)).2 hfiled]
    refine ⟨⟨?_, ?_⟩, ?_⟩
    · rintro ⟨r, hr⟩
      obtain ⟨-, c, hc, -⟩ := (selectUniqueTemplate_eq_iff found config r).1 hr
      exact ⟨c, hc⟩
    · rintro ⟨c, hc⟩
      exact ⟨_, hselect c hc⟩
    · intro c r hc hr
      obtain rfl : r = c.ref theRtype.rtxRTypeFullQualifiedName :=
        Option.some.inj (Except.ok.inj (hr.symm.trans (hselect c hc)))
      exact ⟨rfl, (deref_candidate hfound (hmem c hc)).1⟩

/-- `with LKM values LKM::version op bound`. -/
def versionBlock (op : Operator) (bound : String) : WithNode :=
  rtxNodeWithOne ⟨"LKM", .refl true⟩ [versionIs op bound "a:1:1"]

/-- The type of `template sequence f()`. -/
def fType : RType := ⟨rtxNodeIdentifier ⟨"f", .refl true⟩, []⟩

/-- `template sequence f()`, without chunks. -/
def fTemplate : Template where
  tplType := .sequence
  prototype := fType
  hasMapping := false
  body := []
  files := Files.absent

/-- A session that knows `f()` for the versions below 3 and, after it, for the others. -/
def twoVersions : Session :=
  registerTpl (registerTpl (Session.fresh false) fTemplate
    (versionBlock .lesser "3").buildFromConstraints.config) fTemplate
    (versionBlock .greaterEqual "3").buildFromConstraints.config

theorem wellFiled_twoVersions : WellFiled twoVersions.cache :=
  wellFiled_registerTpl _ _ _ (wellFiled_registerTpl _ _ _ (wellFiled_fresh false))

theorem selectsUnique_first_version :
    ∃ found, findTemplates twoVersions fType .sequence = some found ∧
      SelectsUnique twoVersions found fType.rtxRTypeFullQualifiedName (versionConfig "2") := by
  have hfound : findTemplates twoVersions fType .sequence = some _ := rfl
  refine ⟨_, hfound, (selectsUnique_iff wellFiled_twoVersions hfound (versionConfig "2")).2 ?_⟩
  intro c hc
  have hkey := congrArg (List.map Candidate.key) hc
  exact ⟨(List.singleton_inj.1 hkey).symm, by decide⟩

/-- On version 4 the second template of `f()` is the only compatible one, and the selection looks for it under the
key of the first. -/
theorem second_version_not_referred :
    ∃ found, findTemplates twoVersions fType .sequence = some found ∧
      (found.compatible (versionConfig "4")).map Candidate.key = ["1"] ∧
      selectUniqueTemplate found (versionConfig "4") = .error (unknownVariable "templates.sequences[0]") ∧
      ¬ SelectsUnique twoVersions found fType.rtxRTypeFullQualifiedName (versionConfig "4") := by
  refine ⟨_, rfl, by decide, rfl, fun h => ?_⟩
  obtain ⟨r, hr⟩ := h.returns_true_iff.2 ⟨_, rfl⟩
  cases hr

/-! ## Global code -/

/-- The contract of the registration of global code, for the blocks registered and a configuration:
each block has its entry, no interface and with-node have two, and a block the configuration is
compatible with is found. -/
structure GlobalCodeComplete (blocks : List GlobalCode) (s : Session) (config : Config) : Prop where
  registered : ∀ b ∈ blocks, ∃ e ∈ s.cache.globalCode,
    e.interfaces = b.interfaces ∧ e.withConfig = b.withConfig
  once : (s.cache.globalCode.map fun e => (e.interfaces, e.withConfig)).Nodup
  found : ∀ b ∈ blocks, Compatible b.withConfig config → ∃ codes,
    findGlobalCode s config = .ok codes ∧
      ∃ e ∈ codes, e.interfaces = b.interfaces ∧ e.withConfig = b.withConfig

/-- A query that completes returns the entries the configuration is compatible with. -/
theorem findGlobalCode_of_completes {s : Session} {config : Config}
    (h : ∀ e ∈ s.cache.globalCode, Completes e.withConfig config) :
    ∃ codes, findGlobalCode s config = .ok codes ∧
      ∀ e, e ∈ codes ↔ e ∈ s.cache.globalCode ∧ Compatible e.withConfig config := by
  refine ⟨_, (collect_eq_ok_iff GlobalCode.withConfig config true _ _).2 ⟨h, rfl⟩, ?_⟩
  simp

/-- **When the global code of a run is complete.** Exactly when two blocks of one first interface
always have equal with-nodes, and the matches of all blocks complete on a configuration one of them
is compatible with. -/
theorem globalCodeComplete_iff {items : List Item} {s : Session} {ignoreConflicts : Bool}
    (h : sessionRegisterAll (Session.fresh ignoreConflicts) Table.empty items = .ok s)
    (config : Config) :
    GlobalCodeComplete (globalBlocksAll items) s config ↔
      (∀ b ∈ globalBlocksAll items, ∀ b' ∈ globalBlocksAll items,
        b.interfaces = b'.interfaces → b.withConfig = b'.withConfig) ∧
      ((∃ b ∈ globalBlocksAll items, Compatible b.withConfig config) →
        ∀ b ∈ globalBlocksAll items, Completes b.withConfig config) := by
  have hcodes : s.cache.globalCode = (globalBlocksAll items).foldl keepFirst [] :=
    globalCode_sessionRegisterAll items _ s _ h
  have hsub : ∀ e ∈ s.cache.globalCode, e ∈ globalBlocksAll items := fun e he =>
    (mem_of_mem_foldl_keepFirst _ _ e (hcodes ▸ he)).resolve_left List.not_mem_nil
  have hnodup : (s.cache.globalCode.map GlobalCode.interfaces).Nodup := by
    rw [hcodes]
    exact nodup_interfaces_foldl_keepFirst _ [] List.nodup_nil
  constructor
  · intro hcomplete
    refine ⟨?_, ?_⟩
    · intro b hb b' hb' hitf
      obtain ⟨e, he, heitf, hewith⟩ := hcomplete.registered b hb
      obtain ⟨e', he', heitf', hewith'⟩ := hcomplete.registered b' hb'
      have hsame : e = e' := List.inj_on_of_nodup_map hnodup he he'
        (heitf.trans (hitf.trans heitf'.symm))
      rw [← hewith, ← hewith', hsame]
    · rintro ⟨b, hb, hcompat⟩ b' hb'
      obtain ⟨codes, hfound, -⟩ := hcomplete.found b hb hcompat
      obtain ⟨e, he, -, hewith⟩ := hcomplete.registered b' hb'
      rw [← hewith]
      exact ((collect_eq_ok_iff _ config true _ codes).1 hfound).1 e he
  · rintro ⟨hsame, hcompletes⟩
    have hregistered : ∀ b ∈ globalBlocksAll items, ∃ e ∈ s.cache.globalCode,
        e.interfaces = b.interfaces ∧ e.withConfig = b.withConfig := by
      intro b hb
      obtain ⟨e, he, hitf⟩ := exists_mem_foldl_keepFirst _ [] b (Or.inr hb)
      rw [← hcodes] at he
      exact ⟨e, he, hitf, hsame e (hsub e he) b hb hitf⟩
    refine ⟨hregistered, ?_, ?_⟩
    · exact List.Nodup.of_map Prod.fst (by simpa [Function.comp_def] using hnodup)
    · intro b hb hcompat
      obtain ⟨codes, hfound, hmem⟩ := findGlobalCode_of_completes fun e he =>
        hcompletes ⟨b, hb, hcompat⟩ e (hsub e he)
      obtain ⟨e, he, hitf, hwith⟩ := hregistered b hb
      exact ⟨codes, hfound, e, (hmem e).2 ⟨he, hwith ▸ hcompat⟩, hitf, hwith⟩

/-- A with-block on the version that holds one global pointcut. -/
def versionGlobalCode (op : Operator) (bound : String) : Item :=
  .withBlock (versionBlock op bound) ⟨["LKM::includes()"], []⟩
    (Files.named "With_0_chunk__") []

/-- A with-block on `Net` that holds one global pointcut. -/
def netGlobalCode : Item :=
  .withBlock (rtxNodeWithOne ⟨"Net", .refl true⟩ []) ⟨["LKM::includes()"], []⟩ (Files.named "With_1_chunk__") []

theorem globalCodeComplete_two_blocks :
    ∃ s, sessionRegisterAll (Session.fresh false) Table.empty [versionGlobalCode .lesser "3", netGlobalCode] = .ok s ∧
      GlobalCodeComplete (globalBlocksAll [versionGlobalCode .lesser "3", netGlobalCode]) s (versionConfig "2") := by
  refine ⟨_, rfl, (globalCodeComplete_iff rfl (versionConfig "2")).2 ⟨?_, fun _ => ?_⟩⟩ <;> decide

/-- Two blocks of one interface, for the versions below 3 and for the others: the second one is
taken for a repetition of the first and not registered. -/
theorem second_block_not_registered :
    ∃ s, sessionRegisterAll (Session.fresh false) Table.empty
        [versionGlobalCode .lesser "3", versionGlobalCode .greaterEqual "3"] = .ok s ∧
      s.cache.globalCode = [globalCodeEntry (versionBlock .lesser "3") (Files.named "With_0_chunk__")] ∧
      ¬ GlobalCodeComplete (globalBlocksAll
        [versionGlobalCode .lesser "3", versionGlobalCode .greaterEqual "3"]) s (versionConfig "4") := by
  refine ⟨_, rfl, rfl, fun h => ?_⟩
  have hlost := h.registered (globalCodeEntry (versionBlock .greaterEqual "3")
    (Files.named "With_0_chunk__")) (by decide)
  revert hlost
  decide

end Rathaxes.Link
