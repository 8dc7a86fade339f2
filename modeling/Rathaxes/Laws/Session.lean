import Rathaxes.CodeWorker.Position
import Rathaxes.Link.Session

/-!
# What a registration leaves in the session

Each registration is first described by what it can change: a template adds chunks and one entry
under its own hash, an interface touches the interfaces only, a with-block adds at most one piece of
global code. An invariant of the session is then checked on these steps and holds after any run
(`Preserved.sessionRegisterAll`).

For the global code the run is computed: of the with-blocks met, in the order of the file and
outermost first, the first one of each interface is kept (`globalCode_sessionRegisterAll`).
-/

set_option autoImplicit false

namespace Rathaxes.Link

open CodeWorker

/-! ## Templates -/

theorem get?_pushUnder {α : Type} (t : Table (List α)) (k k' : String) (v : α) :
    (pushUnder t k v).get? k' = if k' = k then some ((t.get? k).getD [] ++ [v]) else t.get? k' :=
  Table.get?_set t k k' _

/-- A turn of the loop over a template's body changes the chunks of the cache and, of the template,
neither its type nor its constraints. -/
theorem registerTypeChunk_frame (hash : String) (acc : Cache × CachedTemplate) (c : Chunk) :
    (∃ chunks, (registerTypeChunk hash acc c).1 = { acc.1 with chunks := chunks }) ∧
      (registerTypeChunk hash acc c).2.rtype = acc.2.rtype := by
  unfold registerTypeChunk
  cases c.chunkType with
  | chunk => exact ⟨⟨_, rfl⟩, rfl⟩
  | decl => exact ⟨⟨_, rfl⟩, rfl⟩
  | method => exact ⟨⟨acc.1.chunks, rfl⟩, rfl⟩

theorem registerTplChunk_frame (hash : String) (acc : Cache × CachedTemplate) (c : Chunk) :
    (∃ chunks, (registerTplChunk hash acc c).1 = { acc.1 with chunks := chunks }) ∧
      (registerTplChunk hash acc c).2.rtype = acc.2.rtype :=
  ⟨⟨_, rfl⟩, rfl⟩

/-- What one turn leaves alone, the loop leaves alone. -/
theorem foldl_frame {step : Cache × CachedTemplate → Chunk → Cache × CachedTemplate}
    (hstep : ∀ acc c, (∃ chunks, (step acc c).1 = { acc.1 with chunks := chunks }) ∧
      (step acc c).2.rtype = acc.2.rtype) :
    ∀ (body : List Chunk) (acc : Cache × CachedTemplate),
      (∃ chunks, (body.foldl step acc).1 = { acc.1 with chunks := chunks }) ∧
        (body.foldl step acc).2.rtype = acc.2.rtype
  | [], acc => ⟨⟨acc.1.chunks, rfl⟩, rfl⟩
  | c :: body, acc => by
    obtain ⟨⟨chunks, hcache⟩, hrtype⟩ := hstep acc c
    obtain ⟨⟨chunks', hcache'⟩, hrtype'⟩ := foldl_frame hstep body (step acc c)
    rw [List.foldl_cons]
    exact ⟨⟨chunks', by rw [hcache', hcache]⟩, hrtype'.trans hrtype⟩

/-- A sequence template adds chunks and one template, under the hash of its own prototype. -/
theorem registerSequence_eq (cache : Cache) (t : Template) (withValues : WithConfig) :
    ∃ chunks tpl, tpl.rtype = t.prototype ∧ cache.registerSequence t withValues =
      { cache with
        chunks := chunks
        sequences := pushUnder cache.sequences t.prototype.rtxRTypeFullQualifiedName tpl } := by
  have frame := foldl_frame (registerTplChunk_frame t.prototype.rtxRTypeFullQualifiedName) t.body
    (cache, newTemplate t withValues none)
  dsimp only [Cache.registerSequence]
  generalize t.body.foldl _ _ = result at frame ⊢
  obtain ⟨cache', tpl⟩ := result
  obtain ⟨⟨chunks, rfl⟩, hrtype⟩ := frame
  exact ⟨chunks, tpl, hrtype, rfl⟩

/-- A type template adds chunks and one template, under the hash of its own prototype. -/
theorem registerType_eq (cache : Cache) (t : Template) (withValues : WithConfig) :
    ∃ chunks tpl, tpl.rtype = t.prototype ∧ cache.registerType t withValues =
      { cache with
        chunks := chunks
        types := pushUnder cache.types t.prototype.rtxRTypeFullQualifiedName tpl } := by
  have frame := foldl_frame (registerTypeChunk_frame t.prototype.rtxRTypeFullQualifiedName) t.body
    (cache, newTemplate t withValues (mappingFiles t))
  dsimp only [Cache.registerType]
  generalize t.body.foldl _ _ = result at frame ⊢
  obtain ⟨cache', tpl⟩ := result
  obtain ⟨⟨chunks, rfl⟩, hrtype⟩ := frame
  exact ⟨chunks, tpl, hrtype, rfl⟩

/-- **What registering a template can do to the session proper.** -/
theorem registerTpl_cases (s : Session) (t : Template) (withValues : WithConfig) :
    registerTpl s t withValues = s ∨
      ∃ chunks tpl, tpl.rtype = t.prototype ∧
        ((registerTpl s t withValues).cache = { s.cache with
            chunks := chunks
            sequences := pushUnder s.cache.sequences t.prototype.rtxRTypeFullQualifiedName tpl } ∨
          (registerTpl s t withValues).cache = { s.cache with
            chunks := chunks
            types := pushUnder s.cache.types t.prototype.rtxRTypeFullQualifiedName tpl }) := by
  unfold registerTpl
  split
  · exact Or.inl rfl
  · right
    cases t.tplType with
    | sequence =>
      obtain ⟨chunks, tpl, hrtype, heq⟩ := registerSequence_eq s.cache t withValues
      exact ⟨chunks, tpl, hrtype, Or.inl heq⟩
    | type =>
      obtain ⟨chunks, tpl, hrtype, heq⟩ := registerType_eq s.cache t withValues
      exact ⟨chunks, tpl, hrtype, Or.inr heq⟩
    | builtintype =>
      obtain ⟨chunks, tpl, hrtype, heq⟩ := registerType_eq s.cache t withValues
      exact ⟨chunks, tpl, hrtype, Or.inr heq⟩

/-! ## Interfaces -/

/-- Registering an interface changes the interfaces of the session only. -/
theorem registerItf_cases {s s' : Session} {itfName : String} (h : registerItf s itfName = .ok s') :
    ∃ itfs, s'.cache = { s.cache with interfaces := itfs } := by
  unfold registerItf at h
  split at h
  · split at h
    · cases h
      exact ⟨s.cache.interfaces, rfl⟩
    · cases h
  · cases h
    exact ⟨_, rfl⟩

/-- Extending an interface changes the interfaces of the session only. -/
theorem registerItfExtension_cases {s s' : Session} {itfName : String} {withValues : WithConfig}
    (h : registerItfExtension s itfName withValues = .ok s') :
    ∃ itfs, s'.cache = { s.cache with interfaces := itfs } := by
  unfold registerItfExtension at h
  split at h
  · cases h
  · cases h
    exact ⟨_, rfl⟩

/-! ## Runs -/

/-- One registration of a run: the C block of a with-block, or one of the items it holds. -/
inductive Registration where
  | globalCode (w : WithNode) (cBlock : CBlock) (files : Files)
  | tpl (t : Template) (withValues : WithConfig)
  | chunk (c : Chunk)
  | itf (name : String)
  | itfExtension (name : String) (withValues : WithConfig)
  | unknown (T : String)

/-- What one registration does. -/
def Registration.step (s : Session) : Registration → Except String Session
  | .globalCode w cBlock files => .ok (registerGlobalCode s w cBlock files)
  | .tpl t withValues => .ok (registerTpl s t withValues)
  | .chunk c => .ok (s.updateBoth fun cache => cache.registerChunk c "")
  | .itf name => registerItf s name
  | .itfExtension name withValues => registerItfExtension s name withValues
  | .unknown T => .error ("rtxLink:<ERROR> Registration not implemented for node type " ++ T)

mutual

/-- The registrations an item asks for, in order. -/
def registrations (withValues : WithConfig) : Item → List Registration
  | .withBlock w cBlock files body =>
    .globalCode w cBlock files :: registrationsAll w.buildFromConstraints.config body
  | .tpl t => [.tpl t withValues]
  | .chunk c => [.chunk c]
  | .itf name => [.itf name]
  | .itfExtension name => [.itfExtension name withValues]
  | .device => []
  | .config => []
  | .other T => [.unknown T]

/-- The registrations of a list of items. -/
def registrationsAll (withValues : WithConfig) : List Item → List Registration
  | [] => []
  | item :: items => registrations withValues item ++ registrationsAll withValues items

end

mutual

theorem sessionRegister_eq : ∀ (item : Item) (s : Session) (withValues : WithConfig),
    sessionRegister s withValues item = (registrations withValues item).foldlM Registration.step s
  | .withBlock w cBlock files body, s, _ => by
    rw [sessionRegister, registrations, List.foldlM_cons]
    exact sessionRegisterAll_eq body _ _
  | .tpl _, _, _ => rfl
  | .chunk _, _, _ => rfl
  | .itf name, s, _ => by
    rw [sessionRegister, registrations, List.foldlM_cons, Registration.step]
    cases registerItf s name <;> rfl
  | .itfExtension name, s, withValues => by
    rw [sessionRegister, registrations, List.foldlM_cons, Registration.step]
    cases registerItfExtension s name withValues <;> rfl
  | .device, _, _ => rfl
  | .config, _, _ => rfl
  | .other _, _, _ => rfl

/-- **A run is the list of its registrations**, with-blocks unfolded. -/
theorem sessionRegisterAll_eq : ∀ (items : List Item) (s : Session) (withValues : WithConfig),
    sessionRegisterAll s withValues items =
      (registrationsAll withValues items).foldlM Registration.step s
  | [], _, _ => rfl
  | item :: items, s, withValues => by
    rw [sessionRegisterAll, registrationsAll, List.foldlM_append, sessionRegister_eq item]
    cases (registrations withValues item).foldlM Registration.step s with
    | error e => rfl
    | ok s₁ => exact sessionRegisterAll_eq items s₁ withValues

end

/-- A property of sessions that every kind of registration preserves. -/
structure Preserved (P : Session → Prop) : Prop where
  globalCode : ∀ s w cBlock files, P s → P (registerGlobalCode s w cBlock files)
  tpl : ∀ s t withValues, P s → P (registerTpl s t withValues)
  chunk : ∀ s c, P s → P (s.updateBoth fun cache => cache.registerChunk c "")
  itf : ∀ s s' name, P s → registerItf s name = .ok s' → P s'
  itfExtension : ∀ s s' name withValues, P s → registerItfExtension s name withValues = .ok s' → P s'

/-- What every kind of registration preserves holds after the registration of any items. -/
theorem Preserved.sessionRegisterAll {P : Session → Prop} (hP : Preserved P) (items : List Item)
    (s s' : Session) (withValues : WithConfig) (hs : P s)
    (h : Link.sessionRegisterAll s withValues items = .ok s') : P s' := by
  rw [sessionRegisterAll_eq] at h
  refine foldlM_invariant ?_ hs h
  intro s₁ r s₂ _ hs₁ hstep
  cases r with
  | globalCode w cBlock files =>
    cases hstep
    exact hP.globalCode s₁ w cBlock files hs₁
  | tpl t withValues =>
    cases hstep
    exact hP.tpl s₁ t withValues hs₁
  | chunk c =>
    cases hstep
    exact hP.chunk s₁ c hs₁
  | itf name => exact hP.itf s₁ s₂ name hs₁ hstep
  | itfExtension name withValues => exact hP.itfExtension s₁ s₂ name withValues hs₁ hstep
  | unknown T => cases hstep

/-! ## Templates are filed under their own hash -/

/-- Every template stands in the bucket of its own prototype's hash. -/
structure WellFiled (cache : Cache) : Prop where
  sequences : ∀ hash tpls, cache.sequences.get? hash = some tpls →
    ∀ tpl ∈ tpls, tpl.rtype.rtxRTypeFullQualifiedName = hash
  types : ∀ hash tpls, cache.types.get? hash = some tpls →
    ∀ tpl ∈ tpls, tpl.rtype.rtxRTypeFullQualifiedName = hash

/-- Pushing a template under its own hash keeps a table of buckets well filed. -/
theorem filed_pushUnder {t : Table (List CachedTemplate)} {new : CachedTemplate}
    (h : ∀ hash tpls, t.get? hash = some tpls →
      ∀ tpl ∈ tpls, tpl.rtype.rtxRTypeFullQualifiedName = hash) :
    ∀ hash tpls, (pushUnder t new.rtype.rtxRTypeFullQualifiedName new).get? hash = some tpls →
      ∀ tpl ∈ tpls, tpl.rtype.rtxRTypeFullQualifiedName = hash := by
  intro hash tpls hget tpl hmem
  rw [get?_pushUnder] at hget
  split at hget
  · rename_i heq
    cases hget
    rcases List.mem_append.1 hmem with hold | hnew
    · cases hbucket : t.get? new.rtype.rtxRTypeFullQualifiedName with
      | none => simp [hbucket] at hold
      | some old =>
        rw [hbucket] at hold
        exact heq ▸ h _ old hbucket tpl hold
    · rw [List.mem_singleton.1 hnew, heq]
  · exact h hash tpls hget tpl hmem

theorem wellFiled_fresh (ignoreConflicts : Bool) : WellFiled (Session.fresh ignoreConflicts).cache :=
  ⟨fun _ _ h => (nomatch h), fun _ _ h => (nomatch h)⟩

theorem wellFiled_registerTpl (s : Session) (t : Template) (withValues : WithConfig)
    (h : WellFiled s.cache) : WellFiled (registerTpl s t withValues).cache := by
  rcases registerTpl_cases s t withValues with heq | ⟨chunks, tpl, hrtype, heq | heq⟩
  · rwa [heq]
  · rw [heq, ← hrtype]
    exact ⟨filed_pushUnder h.sequences, h.types⟩
  · rw [heq, ← hrtype]
    exact ⟨h.sequences, filed_pushUnder h.types⟩

theorem wellFiled_registerGlobalCode (s : Session) (w : WithNode) (cBlock : CBlock) (files : Files)
    (h : WellFiled s.cache) : WellFiled (registerGlobalCode s w cBlock files).cache := by
  unfold registerGlobalCode
  split
  · exact h
  · split
    · exact h
    · exact ⟨h.sequences, h.types⟩

theorem wellFiled_preserved : Preserved fun s => WellFiled s.cache where
  globalCode := wellFiled_registerGlobalCode
  tpl := wellFiled_registerTpl
  chunk _ _ hs := ⟨hs.sequences, hs.types⟩
  itf _ _ _ hs h := by
    obtain ⟨itfs, heq⟩ := registerItf_cases h
    rw [heq]
    exact ⟨hs.sequences, hs.types⟩
  itfExtension _ _ _ _ hs h := by
    obtain ⟨itfs, heq⟩ := registerItfExtension_cases h
    rw [heq]
    exact ⟨hs.sequences, hs.types⟩

/-- **Every session that starts fresh and registers any file is well filed.** -/
theorem wellFiled_of_registered {items : List Item} {s : Session} {ignoreConflicts : Bool}
    (h : sessionRegisterAll (Session.fresh ignoreConflicts) Table.empty items = .ok s) :
    WellFiled s.cache :=
  wellFiled_preserved.sessionRegisterAll items _ s _ (wellFiled_fresh ignoreConflicts) h

/-! ## The global code -/

mutual

/-- The entries an item asks for: one for each with-block that has global code, outermost first. -/
def globalBlocks : Item → List GlobalCode
  | .withBlock w cBlock files body =>
    if cBlock.block.isEmpty then globalBlocksAll body
    else globalCodeEntry w files :: globalBlocksAll body
  | .tpl _ => []
  | .chunk _ => []
  | .itf _ => []
  | .itfExtension _ => []
  | .device => []
  | .config => []
  | .other _ => []

/-- The entries a list of items asks for. -/
def globalBlocksAll : List Item → List GlobalCode
  | [] => []
  | item :: items => globalBlocks item ++ globalBlocksAll items

end

/-- The effect of one with-block on the global code: nothing when its first interface is there. -/
def keepFirst (codes : List GlobalCode) (new : GlobalCode) : List GlobalCode :=
  if codes.any (fun glob => new.interfaces = glob.interfaces) then codes else codes ++ [new]

theorem globalCode_registerGlobalCode (s : Session) (w : WithNode) (cBlock : CBlock) (files : Files)
    (body : List Item) :
    (globalBlocksAll body).foldl keepFirst (registerGlobalCode s w cBlock files).cache.globalCode =
      (globalBlocks (.withBlock w cBlock files body)).foldl keepFirst s.cache.globalCode := by
  rw [registerGlobalCode, globalBlocks]
  split
  · rfl
  · rw [List.foldl_cons, keepFirst, globalCodeRegistered]
    split
    · rename_i hreg
      rw [if_pos (by exact hreg)]
    · rename_i hreg
      rw [if_neg (by exact hreg), Session.cache_updateBoth]

theorem globalCode_registerTpl (s : Session) (t : Template) (withValues : WithConfig) :
    (registerTpl s t withValues).cache.globalCode = s.cache.globalCode := by
  rcases registerTpl_cases s t withValues with heq | ⟨chunks, tpl, -, heq | heq⟩ <;> rw [heq]

mutual

theorem globalCode_sessionRegister : ∀ (item : Item) (s s' : Session) (withValues : WithConfig),
    sessionRegister s withValues item = .ok s' →
      s'.cache.globalCode = (globalBlocks item).foldl keepFirst s.cache.globalCode
  | .withBlock w cBlock files body, s, s', _, h => by
    rw [← globalCode_registerGlobalCode]
    exact globalCode_sessionRegisterAll body _ s' _ h
  | .tpl t, s, _, withValues, h => by cases h; exact globalCode_registerTpl s t withValues
  | .chunk c, s, _, _, h => by cases h; rfl
  | .itf name, s, s', _, h => by obtain ⟨itfs, heq⟩ := registerItf_cases h; rw [heq]; rfl
  | .itfExtension name, s, s', withValues, h => by
    obtain ⟨itfs, heq⟩ := registerItfExtension_cases h; rw [heq]; rfl
  | .device, _, _, _, h => by cases h; rfl
  | .config, _, _, _, h => by cases h; rfl
  | .other _, _, _, _, h => by cases h

/-- **The global code after a run**: of the blocks registered, in order, those whose interface had
none before. -/
theorem globalCode_sessionRegisterAll : ∀ (items : List Item) (s s' : Session)
    (withValues : WithConfig), sessionRegisterAll s withValues items = .ok s' →
      s'.cache.globalCode = (globalBlocksAll items).foldl keepFirst s.cache.globalCode
  | [], _, _, _, h => by cases h; rfl
  | item :: items, s, s', withValues, h => by
    rw [sessionRegisterAll] at h
    split at h
    · cases h
    · rename_i s₁ hitem
      rw [globalBlocksAll, List.foldl_append, ← globalCode_sessionRegister item s s₁ withValues hitem]
      exact globalCode_sessionRegisterAll items s₁ s' withValues h

end

/-- Every block's interface ends up with an entry. -/
theorem exists_mem_foldl_keepFirst : ∀ (blocks codes : List GlobalCode) (b : GlobalCode),
    b ∈ codes ∨ b ∈ blocks → ∃ e ∈ blocks.foldl keepFirst codes, e.interfaces = b.interfaces
  | [], codes, b, h => ⟨b, h.resolve_right List.not_mem_nil, rfl⟩
  | new :: blocks, codes, b, h => by
    rw [List.foldl_cons]
    -- an entry of b's interface stands in the codes after the first block
    have hstep : ∃ e, (e ∈ keepFirst codes new ∨ e ∈ blocks) ∧ e.interfaces = b.interfaces := by
      unfold keepFirst
      split
      · rename_i hany
        obtain ⟨glob, hglob, heq⟩ := List.any_eq_true.1 hany
        rcases h with h | h
        · exact ⟨b, Or.inl h, rfl⟩
        · rcases List.mem_cons.1 h with rfl | h
          · exact ⟨glob, Or.inl hglob, (of_decide_eq_true heq).symm⟩
          · exact ⟨b, Or.inr h, rfl⟩
      · refine ⟨b, ?_, rfl⟩
        rcases h with h | h
        · exact Or.inl (List.mem_append_left _ h)
        · rcases List.mem_cons.1 h with rfl | h
          · exact Or.inl (List.mem_append_right _ (List.mem_singleton_self _))
          · exact Or.inr h
    obtain ⟨e, he, heq⟩ := hstep
    obtain ⟨e', he', heq'⟩ := exists_mem_foldl_keepFirst blocks (keepFirst codes new) e he
    exact ⟨e', he', heq'.trans heq⟩

/-- Every entry is one of the blocks. -/
theorem mem_of_mem_foldl_keepFirst : ∀ (blocks codes : List GlobalCode) (e : GlobalCode),
    e ∈ blocks.foldl keepFirst codes → e ∈ codes ∨ e ∈ blocks
  | [], _, _, h => Or.inl h
  | new :: blocks, codes, e, h => by
    rcases mem_of_mem_foldl_keepFirst blocks (keepFirst codes new) e h with h | h
    · unfold keepFirst at h
      split at h
      · exact Or.inl h
      · rcases List.mem_append.1 h with h | h
        · exact Or.inl h
        · exact Or.inr (List.mem_cons.2 (Or.inl (List.mem_singleton.1 h)))
    · exact Or.inr (List.mem_cons_of_mem new h)

/-- No interface has two entries. -/
theorem nodup_interfaces_foldl_keepFirst : ∀ (blocks codes : List GlobalCode),
    (codes.map GlobalCode.interfaces).Nodup →
      ((blocks.foldl keepFirst codes).map GlobalCode.interfaces).Nodup
  | [], _, h => h
  | new :: blocks, codes, h => by
    refine nodup_interfaces_foldl_keepFirst blocks (keepFirst codes new) ?_
    unfold keepFirst
    split
    · exact h
    · rename_i hany
      rw [List.map_append, List.map_singleton]
      refine h.append (List.nodup_singleton _) (List.disjoint_singleton.2 fun hmem => hany ?_)
      obtain ⟨glob, hglob, heq⟩ := List.mem_map.1 hmem
      exact List.any_eq_true.2 ⟨glob, hglob, decide_eq_true heq.symm⟩

end Rathaxes.Link
