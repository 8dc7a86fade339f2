import Rathaxes.Laws.PointcutReach
import Rathaxes.Laws.TemplateSpec

/-!
# What an accepted template of a sequence provides

The check of a template of a sequence asks for the chunks and the pointcuts of the declaration, then for the builtin
one that goes with its qualifier, and last looks up the pointcut of each chunk of the template. The chunks get
pointcuts on the way: each has at any time its own or one of the declaration that can be taken for it (`Dressed`).

Four things are not checked. A pointcut of the template without a scope may have more parameters than the one that is
asked for. A chunk with a scope is looked up in that interface, whichever it is. A builtin chunk or pointcut is not
held against a declaration with another qualifier, and a type that is written as global is not compared with the scope
of the declared one. Where the scopes of the chunks are in reach, an accepted template provides what the declaration
says exactly if the other three do not show in it (`accepted_provides`).
-/

set_option autoImplicit false

namespace Rathaxes.Back

open CodeWorker Mid

/-! ## The declaration of a sequence -/

/-- `::CALL`. -/
def callName : Ident := ⟨Word.blank, ⟨"CALL", .refl true⟩, true⟩

/-- `::IMPLEMENTATION`. -/
def implementationName : Ident := ⟨Word.blank, ⟨"IMPLEMENTATION", .refl true⟩, true⟩

/-- A chunk of a sequence. -/
def chunkOf : SequenceMember → Option RType
  | .chunk _ pointcut => some pointcut
  | .pointcut _ _ => none

/-- A pointcut the sequence provides. -/
def providedPointcut : SequenceMember → Option RType
  | .pointcut qualifier rtype => if qualifier = .provided then some rtype else none
  | .chunk _ _ => none

/-- A chunk the sequence provides. -/
def providedChunk : SequenceMember → Option RType
  | .chunk qualifier pointcut => if qualifier = .provided then some pointcut else none
  | .pointcut _ _ => none

namespace SequenceTree

variable (node : SequenceTree)

/-- The chunks of the declaration. -/
def chunks : List RType := node.body.filterMap chunkOf

/-- Those it provides. -/
def providedChunks : List RType := node.body.filterMap providedChunk

/-- The pointcuts it provides. -/
def providedPointcuts : List RType := node.body.filterMap providedPointcut

/-- The pointcuts a chunk of the template may get before it is looked up. -/
def hooks : List RType := node.chunks ++ if node.qualifier = .provided then [builtinPointcut callName.name] else []

end SequenceTree

theorem chunkOf_of_provided {item : SequenceMember} {c : RType} (h : providedChunk item = some c) :
    chunkOf item = some c := by
  cases item with
  | chunk qualifier pointcut =>
    rw [providedChunk] at h
    split at h
    · exact h
    · cases h
  | pointcut qualifier rtype => cases h

theorem mem_chunks_of_provided {node : SequenceTree} {c : RType} (h : c ∈ node.providedChunks) : c ∈ node.chunks := by
  obtain ⟨item, hitem, hc⟩ := List.mem_filterMap.1 h
  exact List.mem_filterMap.2 ⟨item, hitem, chunkOf_of_provided hc⟩

theorem required_or_optional {qualifier : Qualifier} (h : qualifier ≠ .provided) :
    qualifier = .required ∨ qualifier = .optional := by
  cases qualifier with
  | provided => exact absurd rfl h
  | required => exact .inl rfl
  | optional => exact .inr rfl

/-- What the check of an interface makes sure of. -/
structure SequenceChecked (node : SequenceTree) : Prop where
  unscoped : ∀ c ∈ node.chunks, c.name.global = true → c.name.scope = Word.blank
  wellScoped : ∀ c ∈ node.chunks, Scoped c
  qualified : ∀ rtype ∈ node.providedPointcuts, ∀ param ∈ rtype.params, isPlain param = false

instance (node : SequenceTree) : Decidable (SequenceChecked node) :=
  decidable_of_iff ((∀ c ∈ node.chunks, c.name.global = true → c.name.scope = Word.blank) ∧
      (∀ c ∈ node.chunks, Scoped c) ∧
      ∀ rtype ∈ node.providedPointcuts, ∀ param ∈ rtype.params, isPlain param = false)
    ⟨fun h => ⟨h.1, h.2.1, h.2.2⟩, fun h => ⟨h.unscoped, h.wellScoped, h.qualified⟩⟩

/-- The trees in the cache, which have been checked. -/
structure SequenceRegistry where
  trees : SequenceTrees
  checked : ∀ scope sequences, trees scope = some sequences →
    ∀ byName ∈ sequences.entries, ∀ e ∈ byName.2.entries, SequenceChecked e.2

theorem SequenceRegistry.checked_of_sequenceNode (T : SequenceRegistry) {theSequence : RType} {node : SequenceTree}
    (h : sequenceNode T.trees theSequence = some node) : SequenceChecked node := by
  obtain ⟨sequences, hsequences, h⟩ := Option.bind_eq_some_iff.1 h
  obtain ⟨overloads, hoverloads, h⟩ := Option.bind_eq_some_iff.1 h
  exact T.checked _ sequences hsequences _ ((sequences.mem_entries_iff _ _).2 hoverloads) _
    ((overloads.mem_entries_iff _ _).2 h)

/-! ## Hooks -/

/-- A qualified chunk for which `::CALL()` can be taken is that one. -/
theorem eq_call_of_implements {c : RType} (hc : isQualified c = true)
    (h : implements (builtinPointcut callName.name) c = true) : builtinPointcut callName.name = c := by
  obtain ⟨-, hplain⟩ := isQualified_iff.1 hc
  obtain ⟨hname, hscope, hparams⟩ := implements_iff.1 h
  have hscope : c.name.scope = Word.blank := hscope.resolve_left (by simp [hplain])
  have hparams : c.params = [] := List.forall₂_nil_left_iff.1 (paramsMatch_iff.1 hparams)
  obtain ⟨⟨scope, name, global⟩, params⟩ := c
  obtain ⟨rfl, rfl, rfl⟩ : name = callName.name ∧ scope = Word.blank ∧ params = [] := ⟨hname.symm, hscope, hparams⟩
  cases global with
  | true => rfl
  | false => cases hplain

/-- The hooks are qualified. -/
structure HooksFit (node : SequenceTree) : Prop where
  qualified : ∀ c ∈ node.hooks, isQualified c = true
  wellScoped : ∀ c ∈ node.hooks, Scoped c

/-- What a chunk that is written has become: it has the same pointcuts in its code, and its own pointcut or a hook that
can be taken for it. -/
structure Dressed (node : SequenceTree) (written entry : TplChunk) : Prop where
  pointcuts : entry.pointcuts = written.pointcuts
  pointcut : entry.pointcut = written.pointcut ∨
    entry.pointcut ∈ node.hooks ∧ implements entry.pointcut written.pointcut = true

section Hooks

variable {node : SequenceTree} {chunks state left : List TplChunk}

theorem mem_hooks_iff {c : RType} :
    c ∈ node.hooks ↔ c ∈ node.chunks ∨ node.qualifier = .provided ∧ c = builtinPointcut callName.name := by
  unfold SequenceTree.hooks
  rw [List.mem_append]
  split <;> simp_all

theorem mem_hooks_of_chunk {qualifier : Qualifier} {c : RType} (h : SequenceMember.chunk qualifier c ∈ node.body) :
    c ∈ node.hooks := mem_hooks_iff.2 (Or.inl (List.mem_filterMap.2 ⟨_, h, rfl⟩))

theorem hooksFit_of_chunks (hchecked : SequenceChecked node) (hqualified : ∀ c ∈ node.chunks, isQualified c = true) :
    HooksFit node := by
  refine ⟨fun c hc => ?_, fun c hc => ?_⟩
  · rcases mem_hooks_iff.1 hc with hc | ⟨-, rfl⟩
    · exact hqualified c hc
    · decide
  · rcases mem_hooks_iff.1 hc with hc | ⟨-, rfl⟩
    · exact hchecked.wellScoped c hc
    · decide

theorem dressed_refl (node : SequenceTree) : ∀ chunks : List TplChunk, List.Forall₂ (Dressed node) chunks chunks :=
  fun _ => List.forall₂_same.2 fun _ _ => ⟨rfl, .inl rfl⟩

theorem pointcutsOf_of_dressed : ∀ {chunks state : List TplChunk}, List.Forall₂ (Dressed node) chunks state →
    pointcutsOf state = pointcutsOf chunks
  | [], [], .nil => rfl
  | _ :: _, _ :: _, .cons h hs => by
    have htail := pointcutsOf_of_dressed hs
    unfold pointcutsOf at htail ⊢
    rw [List.flatMap_cons, List.flatMap_cons, h.pointcuts, htail]

/-- What can be taken for a chunk as it stands can be taken for the one that is written. -/
theorem Dressed.implements {written entry : TplChunk} {c : RType} (hfit : HooksFit node)
    (h : Dressed node written entry) (hmatch : Back.implements c entry.pointcut = true) :
    Back.implements c written.pointcut = true := by
  rcases h.pointcut with hsame | ⟨hhook, hstands⟩
  · rwa [hsame] at hmatch
  · exact implements_trans (hfit.qualified _ hhook) (hfit.wellScoped _ hhook) hmatch hstands

/-- **Giving a hook to the first chunk that matches** leaves the written chunks dressed, and the chunks that have another
hook as they are. -/
theorem templateHasChunk_dressed {c : RType} {found : Bool} (hfit : HooksFit node) (hc : c ∈ node.hooks)
    (hdressed : List.Forall₂ (Dressed node) chunks state) (h : templateHasChunk c state = .ok (found, left)) :
    List.Forall₂ (Dressed node) chunks left ∧
      (found = true → (∃ written ∈ chunks, implements c written.pointcut = true) ∧ c ∈ left.map TplChunk.pointcut) ∧
      ∀ c', (implements c c' = true → c = c') → c' ∈ state.map TplChunk.pointcut → c' ∈ left.map TplChunk.pointcut := by
  obtain ⟨-, hhook⟩ := templateHasChunk_eq_ok_iff.1 h
  obtain ⟨rfl, rfl⟩ := Prod.mk.inj hhook
  refine ⟨?_, fun hany => ?_, fun c' hapart hc' => ?_⟩
  · refine forall₂_updateFirst (fun written entry hentry hmatch => ?_) hdressed
    exact ⟨hentry.pointcuts, .inr ⟨hc, hentry.implements hfit hmatch⟩⟩
  · obtain ⟨entry, hentry, hmatch, hnew⟩ := exists_updateFirst hany
    obtain ⟨written, hwritten, hsame⟩ := exists_left_of_forall₂ hdressed hentry
    exact ⟨⟨written, hwritten, hsame.implements hfit hmatch⟩, List.mem_map.2 ⟨_, hnew, rfl⟩⟩
  · obtain ⟨entry, hentry, rfl⟩ := List.mem_map.1 hc'
    rcases stays_updateFirst hentry with hsame | ⟨hmatch, hnew⟩
    · exact List.mem_map_of_mem hsame
    · exact List.mem_map.2 ⟨_, hnew, hapart hmatch⟩

/-! ## The members of the declaration -/

/-- What the first loop asks for is there. -/
def Supplied (chunks : List TplChunk) : SequenceMember → Prop
  | .chunk qualifier pointcut =>
    qualifier = .provided → ∃ written ∈ chunks, implements pointcut written.pointcut = true
  | .pointcut qualifier rtype => qualifier = .provided → ∃ given ∈ pointcutsOf chunks, TakenFor rtype given

theorem supplied_chunk (h : ∀ item ∈ node.body, Supplied chunks item) {c : RType} (hc : c ∈ node.providedChunks) :
    ∃ written ∈ chunks, implements c written.pointcut = true := by
  obtain ⟨item, hitem, hprovided⟩ := List.mem_filterMap.1 hc
  cases item with
  | pointcut qualifier rtype => cases hprovided
  | chunk qualifier pointcut =>
    obtain ⟨hqualifier, rfl⟩ : qualifier = .provided ∧ pointcut = c := by simpa [providedChunk] using hprovided
    exact h _ hitem hqualifier

theorem supplied_pointcut (h : ∀ item ∈ node.body, Supplied chunks item) {declared : RType}
    (hdeclared : declared ∈ node.providedPointcuts) : ∃ given ∈ pointcutsOf chunks, TakenFor declared given := by
  obtain ⟨item, hitem, hprovided⟩ := List.mem_filterMap.1 hdeclared
  cases item with
  | chunk qualifier pointcut => cases hprovided
  | pointcut qualifier rtype =>
    obtain ⟨hqualifier, rfl⟩ : qualifier = .provided ∧ rtype = declared := by
      simpa [providedPointcut] using hprovided
    exact h _ hitem hqualifier

/-- A member does not take the chunk away that has a pointcut. -/
def Spares (c : RType) : SequenceMember → Prop
  | .chunk _ pointcut => implements pointcut c = true → pointcut = c
  | .pointcut _ _ => True

/-- A turn of the first loop. -/
theorem provideMember_dressed (hchecked : SequenceChecked node) (hfit : HooksFit node) {item : SequenceMember}
    (hitem : item ∈ node.body) (hdressed : List.Forall₂ (Dressed node) chunks state) {n n' : Nat}
    (h : provideMember (n, state) item = .ok (n', left)) :
    List.Forall₂ (Dressed node) chunks left ∧
      (n' = 0 → n = 0 ∧ Supplied chunks item ∧ ∀ c, providedChunk item = some c → c ∈ left.map TplChunk.pointcut) ∧
      ∀ c, Spares c item → c ∈ state.map TplChunk.pointcut → c ∈ left.map TplChunk.pointcut := by
  cases item with
  | chunk qualifier pointcut =>
    obtain ⟨⟨found, chunks'⟩, hfound, h⟩ := bind_eq_ok_iff.1 h
    obtain ⟨rfl, rfl⟩ := Prod.mk.inj (Except.ok.inj h)
    obtain ⟨hleft, hthere, hspares⟩ := templateHasChunk_dressed hfit (mem_hooks_of_chunk hitem) hdressed hfound
    refine ⟨hleft, fun hzero => ?_, hspares⟩
    split at hzero
    · rename_i hprovided
      obtain ⟨hn, htrue⟩ := tally_eq_zero_iff.1 hzero
      refine ⟨hn, fun _ => (hthere htrue).1, fun c hc => ?_⟩
      obtain rfl : pointcut = c := by simpa [providedChunk, hprovided] using hc
      exact (hthere htrue).2
    · rename_i hprovided
      refine ⟨hzero, fun h => absurd h hprovided, fun c hc => ?_⟩
      simp [providedChunk, hprovided] at hc
  | pointcut qualifier rtype =>
    rw [provideMember] at h
    split at h
    · rename_i hprovided
      obtain ⟨found, hfound, h⟩ := bind_eq_ok_iff.1 h
      obtain ⟨rfl, rfl⟩ := Prod.mk.inj (Except.ok.inj h)
      refine ⟨hdressed, fun hzero => ?_, fun c _ hc => hc⟩
      obtain ⟨hn, rfl⟩ := tally_eq_zero_iff.1 hzero
      rw [pointcutsOf_of_dressed hdressed] at hfound
      have hqualified := hchecked.qualified rtype
        (List.mem_filterMap.2 ⟨_, hitem, by rw [providedPointcut, if_pos hprovided]⟩)
      exact ⟨hn, fun _ => takenFor_of_templateHasPointcut hqualified hfound,
        fun c hc => (Option.some_ne_none c hc.symm).elim⟩
    · rename_i hprovided
      obtain ⟨rfl, rfl⟩ := Prod.mk.inj (Except.ok.inj h)
      refine ⟨hdressed, fun hzero => ⟨hzero, fun h => absurd h hprovided, fun c hc => ?_⟩, fun c _ hc => hc⟩
      exact (Option.some_ne_none c hc.symm).elim

/-- None of the chunks can be taken for an earlier one. -/
def NoneRetaken (declared : List RType) : Prop :=
  declared.Pairwise fun earlier later => implements later earlier = true → later = earlier

instance (declared : List RType) : Decidable (NoneRetaken declared) := inferInstanceAs (Decidable (List.Pairwise _ _))

theorem spares_of_retaken {c : RType} {items : List SequenceMember}
    (h : ∀ later ∈ items.filterMap chunkOf, implements later c = true → later = c) : ∀ item ∈ items, Spares c item := by
  intro item hitem
  cases item with
  | chunk qualifier pointcut => exact h pointcut (List.mem_filterMap.2 ⟨_, hitem, rfl⟩)
  | pointcut qualifier rtype => exact trivial

/-- The first loop as a whole. -/
theorem foldlM_provideMember_dressed (hchecked : SequenceChecked node) (hfit : HooksFit node) :
    ∀ {items : List SequenceMember} {n n' : Nat} {state left : List TplChunk}, (∀ item ∈ items, item ∈ node.body) →
    List.Forall₂ (Dressed node) chunks state → items.foldlM provideMember (n, state) = .ok (n', left) →
    List.Forall₂ (Dressed node) chunks left ∧
      (n' = 0 → n = 0 ∧ (∀ item ∈ items, Supplied chunks item) ∧
        (NoneRetaken (items.filterMap chunkOf) → ∀ c ∈ items.filterMap providedChunk, c ∈ left.map TplChunk.pointcut)) ∧
      ∀ c, (∀ item ∈ items, Spares c item) → c ∈ state.map TplChunk.pointcut → c ∈ left.map TplChunk.pointcut
  | [], n, n', state, left, _, hdressed, h => by
    obtain ⟨rfl, rfl⟩ := Prod.mk.inj (Except.ok.inj h)
    exact ⟨hdressed, fun hzero => ⟨hzero, List.forall_mem_nil _, fun _ => List.forall_mem_nil _⟩, fun c _ hc => hc⟩
  | item :: items, n, n', state, left, hitems, hdressed, h => by
    obtain ⟨hitem, hitems⟩ := List.forall_mem_cons.1 hitems
    rw [List.foldlM_cons] at h
    obtain ⟨⟨n₁, mid⟩, hfirst, hrest⟩ := bind_eq_ok_iff.1 h
    obtain ⟨hmid, hturn, hspares⟩ := provideMember_dressed hchecked hfit hitem hdressed hfirst
    obtain ⟨hleft, hrun, hspared⟩ := foldlM_provideMember_dressed hchecked hfit hitems hmid hrest
    refine ⟨hleft, fun hzero => ?_, fun c hc hstate => ?_⟩
    · obtain ⟨hn₁, hsupplied, hthere⟩ := hrun hzero
      obtain ⟨hn, hhead, hgiven⟩ := hturn hn₁
      refine ⟨hn, List.forall_mem_cons.2 ⟨hhead, hsupplied⟩, fun hretaken c hc => ?_⟩
      rw [List.filterMap_cons] at hretaken hc
      cases hchunk : chunkOf item with
      | none =>
        have hprovided : providedChunk item = none := Option.eq_none_iff_forall_ne_some.2 fun c hprovided => by
          simp [chunkOf_of_provided hprovided] at hchunk
        rw [hprovided] at hc
        rw [hchunk] at hretaken
        exact hthere hretaken c hc
      | some first =>
        rw [hchunk] at hretaken
        obtain ⟨hlater, hretaken⟩ := List.pairwise_cons.1 hretaken
        cases hprovided : providedChunk item with
        | none =>
          rw [hprovided] at hc
          exact hthere hretaken c hc
        | some c' =>
          obtain rfl : first = c' := Option.some.inj (hchunk.symm.trans (chunkOf_of_provided hprovided))
          rw [hprovided] at hc
          rcases List.mem_cons.1 hc with rfl | hc
          · exact hspared c (spares_of_retaken hlater) (hgiven c hprovided)
          · exact hthere hretaken c hc
    · obtain ⟨hhead, htail⟩ := List.forall_mem_cons.1 hc
      exact hspared c htail (hspares c hhead hstate)

/-- When the first loop goes through, the chunks of the declaration are qualified. -/
theorem qualified_of_provideMember {s s' : Nat × List TplChunk}
    (h : node.body.foldlM provideMember s = .ok s') : ∀ c ∈ node.chunks, isQualified c = true := by
  intro c hc
  obtain ⟨item, hitem, hchunk⟩ := List.mem_filterMap.1 hc
  obtain ⟨s₁, s₂, hturn⟩ := turn_of_foldlM h item hitem
  cases item with
  | chunk qualifier pointcut =>
    obtain rfl : pointcut = c := Option.some.inj hchunk
    obtain ⟨r, hr, -⟩ := bind_eq_ok_iff.1 hturn
    exact (templateHasChunk_eq_ok_iff.1 hr).1
  | pointcut qualifier rtype => cases hchunk

/-- The builtin chunk or pointcut that goes with the qualifier. -/
theorem templateBuiltinItems_dressed (hfit : HooksFit node) (hdressed : List.Forall₂ (Dressed node) chunks state)
    (h : templateBuiltinItems node.qualifier state = .ok (true, left)) :
    List.Forall₂ (Dressed node) chunks left ∧
      (node.qualifier = .provided → builtinPointcut callName.name ∈ left.map TplChunk.pointcut) ∧
      (node.qualifier ≠ .provided →
        ∃ given ∈ pointcutsOf chunks, TakenFor (builtinPointcut implementationName.name) given) ∧
      ∀ c ∈ node.chunks, c ∈ state.map TplChunk.pointcut → c ∈ left.map TplChunk.pointcut := by
  unfold templateBuiltinItems at h
  split at h
  · rename_i hqualifier
    obtain ⟨answer, hanswer, h⟩ := bind_eq_ok_iff.1 h
    obtain ⟨rfl, rfl⟩ := Prod.mk.inj (Except.ok.inj h)
    refine ⟨hdressed, fun hprovided => ?_, fun _ => ?_, fun c _ hc => hc⟩
    · rw [hprovided] at hqualifier
      exact absurd hqualifier (by decide)
    · rw [pointcutsOf_of_dressed hdressed] at hanswer
      exact takenFor_of_templateHasPointcut (List.forall_mem_nil _) hanswer
  · rename_i hqualifier
    have hprovided : node.qualifier = .provided := by
      cases hq : node.qualifier with
      | provided => rfl
      | required => exact absurd (Or.inl hq) hqualifier
      | optional => exact absurd (Or.inr hq) hqualifier
    obtain ⟨hleft, hthere, hspares⟩ :=
      templateHasChunk_dressed hfit (mem_hooks_iff.2 (Or.inr ⟨hprovided, rfl⟩)) hdressed h
    refine ⟨hleft, fun _ => (hthere rfl).2, fun hnot => absurd hprovided hnot, fun c hc => hspares c fun hmatch => ?_⟩
    exact eq_call_of_implements (hfit.qualified c (mem_hooks_iff.2 (.inl hc))) hmatch

end Hooks

/-! ## Looking the chunks up -/

section Lookups

variable {w : Interfaces} {interfaceList : List Word} {otherPlaceHolders : TplChunk → Except String Nat}
  {tplRtype : RType} {node : SequenceTree}

/-- The interface a chunk is looked up from. -/
def lookupName (tplRtype pointcut : RType) : Word :=
  if isPlain pointcut.name then tplRtype.name.scope else pointcut.name.scope

/-- The pointcut of a chunk has been looked up, and the chunk has got the one that has been found. -/
def LookedUp (w : Interfaces) (interfaceList : List Word) (tplRtype : RType) (chunk entry : TplChunk) : Prop :=
  itfNameDefinesPointcut w chunk.pointcut (lookupName tplRtype chunk.pointcut) interfaceList = (true, entry.pointcut)

theorem hookChunk_clean {chunk entry : TplChunk}
    (h : hookChunk w interfaceList otherPlaceHolders tplRtype node chunk = .ok (0, entry)) :
    LookedUp w interfaceList tplRtype chunk entry := by
  obtain ⟨others, -, h⟩ := bind_eq_ok_iff.1 h
  obtain ⟨hzero, rfl⟩ := Prod.mk.inj (Except.ok.inj h)
  have hfold := (Nat.add_eq_zero_iff.1 hzero).1
  have hfound := (tally_eq_zero_iff.1 (foldl_tally_eq_zero_iff.1 hfold).1).2
  exact Prod.ext hfound rfl

/-- The last loop as a whole. -/
theorem hookChunks_clean : ∀ {state final : List TplChunk},
    hookChunks w interfaceList otherPlaceHolders tplRtype node state = .ok (0, final) →
    List.Forall₂ (LookedUp w interfaceList tplRtype) state final
  | [], final, h => by
    obtain ⟨-, rfl⟩ := Prod.mk.inj (Except.ok.inj h)
    exact .nil
  | chunk :: state, final, h => by
    obtain ⟨⟨n, entry⟩, hchunk, h⟩ := bind_eq_ok_iff.1 h
    obtain ⟨⟨m, rest⟩, hrest, h⟩ := bind_eq_ok_iff.1 h
    obtain ⟨hzero, rfl⟩ := Prod.mk.inj (Except.ok.inj h)
    obtain ⟨rfl, rfl⟩ := Nat.add_eq_zero_iff.1 hzero
    exact .cons (hookChunk_clean hchunk) (hookChunks_clean hrest)

/-- A builtin pointcut is one without a scope that is marked as global. -/
def IsBuiltin (p : RType) : Prop := p.name.scope = Word.blank ∧ p.name.global = true

instance (p : RType) : Decidable (IsBuiltin p) := inferInstanceAs (Decidable (_ ∧ _))

theorem isBuiltin_of_not_plain {p : RType} (hplain : isPlain p.name = false) (hscope : p.name.scope = Word.blank) :
    IsBuiltin p := by
  refine ⟨hscope, ?_⟩
  cases hglobal : p.name.global with
  | true => rfl
  | false => exact absurd hscope (isPlain_eq_false_iff.1 hplain hglobal)

theorem isBuiltin_of_name_eq {p : RType} {name : Word} (h : p.name = ⟨Word.blank, name, true⟩) : IsBuiltin p := by
  rw [IsBuiltin, h]
  exact ⟨rfl, rfl⟩

theorem IsBuiltin.name_eq {p : RType} {name : Word} (h : IsBuiltin p) (hname : p.name.name = name) :
    p.name = ⟨Word.blank, name, true⟩ := by
  obtain ⟨⟨scope, name', global⟩, params⟩ := p
  obtain ⟨rfl, rfl⟩ := h
  obtain rfl : name' = name := hname
  rfl

/-- A builtin pointcut is not looked for. -/
theorem lookedUp_builtin {chunk entry : TplChunk} (h : LookedUp w interfaceList tplRtype chunk entry)
    (hbuiltin : IsBuiltin chunk.pointcut) : entry.pointcut = chunk.pointcut := by
  obtain ⟨hscope, hglobal⟩ := hbuiltin
  have hplain : isPlain chunk.pointcut.name = false := isPlain_eq_false_iff.2 fun hfalse => by simp [hglobal] at hfalse
  unfold LookedUp lookupName at h
  rw [hplain, if_neg Bool.false_ne_true, hscope, itfNameDefinesPointcut_global hglobal] at h
  exact (Prod.mk.inj h).2.symm

variable {R : Registry} {loaded : Word → Word → Bool} {names : List Word}

/-- **What the lookup of any other chunk finds**: a pointcut in reach of the interface it starts from, with the name and
the parameters of the chunk if that is qualified. -/
theorem lookedUp_declared {chunk entry : TplChunk}
    (h : LookedUp (R.interfaces loaded) interfaceList tplRtype chunk entry) (hbuiltin : ¬ IsBuiltin chunk.pointcut)
    (hreach : ∀ itf, (R.interfaces loaded).registered (lookupName tplRtype chunk.pointcut) = some itf →
      InReach (R.interfaces loaded) names itf)
    (hlist : ∀ name ∈ interfaceList, name ∈ names) :
    (∃ itf, InReach (R.interfaces loaded) names itf ∧ DeclaresPointcut itf entry.pointcut) ∧
      (isQualified chunk.pointcut = true → SameTypes chunk.pointcut entry.pointcut) := by
  obtain ⟨hdeclared, hsame⟩ := itfNameDefinesPointcut_declared hreach hlist (fun hblank => by
    unfold lookupName at hblank
    cases hplain : isPlain chunk.pointcut.name with
    | true => exact ⟨(of_decide_eq_true hplain).1, isQualified_of_plain hplain⟩
    | false =>
      rw [hplain, if_neg Bool.false_ne_true] at hblank
      exact absurd (isBuiltin_of_not_plain hplain hblank) hbuiltin) h
  refine ⟨hdeclared, fun hqualified => ?_⟩
  obtain ⟨hname, hparams⟩ := hsame hqualified
  exact ⟨hname, by rw [hparams]⟩

/-- A qualified chunk keeps its name and the types of its parameters. -/
theorem lookedUp_sameTypes {chunk entry : TplChunk}
    (h : LookedUp (R.interfaces loaded) interfaceList tplRtype chunk entry)
    (hqualified : isQualified chunk.pointcut = true) : SameTypes chunk.pointcut entry.pointcut := by
  by_cases hbuiltin : IsBuiltin chunk.pointcut
  · rw [lookedUp_builtin h hbuiltin]
    exact ⟨rfl, rfl⟩
  · exact (lookedUp_declared h hbuiltin (fun itf hreg => inReach_of_registered List.mem_cons_self hreg)
      fun name hname => List.mem_cons_of_mem _ hname).2 hqualified

end Lookups

/-! ## The templates that are checked in full -/

/-- The names of the interfaces a template may use. -/
def usedNames (tplRtype : RType) (interfaceList : List Word) : List Word := tplRtype.name.scope :: interfaceList

/-- The interface that is the scope of a pointcut is in reach. -/
def ScopeInReach (w : Interfaces) (names : List Word) (p : RType) : Prop :=
  p.name.scope ≠ Word.blank → ∀ itf, w.registered p.name.scope = some itf → InReach w names itf

/-- The chunks of a template are looked up where they may be: the scopes of those that are written, and of those of the
declaration they can be taken for, are in reach, and a chunk without a scope is not taken for a builtin one of the
declaration, except for `::CALL` of a provided sequence. -/
structure HooksInReach (w : Interfaces) (names : List Word) (node : SequenceTree) (chunks : List TplChunk) : Prop where
  written : ∀ written ∈ chunks, ScopeInReach w names written.pointcut
  declared : ∀ written ∈ chunks, ∀ c ∈ node.chunks, implements c written.pointcut = true → ScopeInReach w names c
  builtin : ∀ written ∈ chunks, ∀ c ∈ node.chunks, implements c written.pointcut = true →
    isPlain written.pointcut.name = true → IsBuiltin c → c.name = callName ∧ node.qualifier = .provided

/-- What is not checked does not show in the template: where chunks can be taken for a provided one, one of them has its
marks; where pointcuts can be taken for a provided one, one of them has no further parameters; a builtin chunk is
`::CALL`, in a provided sequence; a provided sequence has no pointcut `::IMPLEMENTATION`, and in another one of those
called so without a scope one is global. -/
structure SequenceRegular (node : SequenceTree) (chunks : List TplChunk) : Prop where
  marked : ∀ c ∈ node.providedChunks, (∃ written ∈ chunks, implements c written.pointcut = true) →
    ∃ written ∈ chunks, implements c written.pointcut = true ∧ Marked c written.pointcut
  arity : ∀ declared ∈ node.providedPointcuts, (∃ given ∈ pointcutsOf chunks, TakenFor declared given) →
    ∃ given ∈ pointcutsOf chunks, TakenFor declared given ∧ given.params.length ≤ declared.params.length
  builtin : ∀ written ∈ chunks, IsBuiltin written.pointcut →
    written.pointcut.name.name = callName.name ∧ node.qualifier = .provided
  absent : node.qualifier = .provided →
    ∀ given ∈ pointcutsOf chunks, given.name.name = implementationName.name → ¬ IsBuiltin given
  global : node.qualifier ≠ .provided →
    (∃ given ∈ pointcutsOf chunks, given.name.name = implementationName.name ∧ given.name.scope = Word.blank) →
    ∃ given ∈ pointcutsOf chunks, given.name.name = implementationName.name ∧ IsBuiltin given

/-- A template provides what the declaration of its sequence says. The provided chunks are there under names the template
may have shortened, and so are the pointcuts, with the same parameters. A chunk is `::CALL` or hooks a pointcut of an
interface in reach, and the builtin chunk and pointcut go with the qualifier. -/
structure Provides (w : Interfaces) (names : List Word) (node : SequenceTree) (chunks final : List TplChunk) :
    Prop where
  chunk : ∀ c ∈ node.providedChunks, ∃ written ∈ chunks, NamesPointcut c written.pointcut
  pointcut : ∀ declared ∈ node.providedPointcuts, ∃ given ∈ pointcutsOf chunks, StandsFor declared given
  hooked : ∀ entry ∈ final, entry.pointcut.name = callName ∨
    ∃ itf, InReach w names itf ∧ DeclaresPointcut itf entry.pointcut
  call : (∃ entry ∈ final, entry.pointcut.name = callName) ↔ node.qualifier = .provided
  implementation : (∃ given ∈ pointcutsOf chunks, given.name = implementationName) ↔
    node.qualifier = .required ∨ node.qualifier = .optional

/-- What is taken for `::IMPLEMENTATION()` is called so and has no scope. -/
theorem TakenFor.implementation {given : RType} (h : TakenFor (builtinPointcut implementationName.name) given)
    (hgiven : Written given) :
    given.name.name = implementationName.name ∧ given.name.scope = Word.blank := by
  rcases h with ⟨hname, hblank, -⟩ | ⟨hname, -⟩
  · exact ⟨hname, hblank⟩
  · exact ⟨name_eq_of_rtxRTypeName_eq hname, hgiven.scope (global_eq_of_rtxRTypeName_eq hname)⟩

/-- What the three parts of the check leave when they count no error: the chunks with their hooks, and the chunks after
the lookup. -/
structure Passed (w : Interfaces) (interfaceList : List Word) (tplRtype : RType) (node : SequenceTree)
    (chunks state final : List TplChunk) : Prop where
  fit : HooksFit node
  dressed : List.Forall₂ (Dressed node) chunks state
  supplied : ∀ item ∈ node.body, Supplied chunks item
  there : NoneRetaken node.chunks → ∀ c ∈ node.providedChunks, c ∈ state.map TplChunk.pointcut
  call : node.qualifier = .provided → builtinPointcut callName.name ∈ state.map TplChunk.pointcut
  implementation : node.qualifier ≠ .provided →
    ∃ given ∈ pointcutsOf chunks, TakenFor (builtinPointcut implementationName.name) given
  looked : List.Forall₂ (LookedUp w interfaceList tplRtype) state final

theorem passed_of_implementsSequence {otherPlaceHolders : TplChunk → Except String Nat} {w : Interfaces}
    {interfaceList : List Word} {tplRtype : RType} {node : SequenceTree} {chunks final : List TplChunk}
    (hchecked : SequenceChecked node)
    (h : implementsSequence w interfaceList otherPlaceHolders tplRtype node chunks = .ok (true, final)) :
    ∃ state, Passed w interfaceList tplRtype node chunks state final := by
  obtain ⟨⟨n, supplied⟩, hmembers, h⟩ := bind_eq_ok_iff.1 h
  obtain ⟨⟨found, state⟩, hbuiltin, h⟩ := bind_eq_ok_iff.1 h
  obtain ⟨⟨errors, left⟩, hlookups, h⟩ := bind_eq_ok_iff.1 h
  obtain ⟨hcount, rfl⟩ := Prod.mk.inj (Except.ok.inj h)
  obtain ⟨hn, rfl⟩ := Nat.add_eq_zero_iff.1 (of_decide_eq_true hcount)
  obtain ⟨rfl, rfl⟩ := tally_eq_zero_iff.1 hn
  have hfit := hooksFit_of_chunks hchecked (qualified_of_provideMember hmembers)
  obtain ⟨hmid, hloop, -⟩ :=
    foldlM_provideMember_dressed hchecked hfit (fun item hitem => hitem) (dressed_refl node chunks) hmembers
  obtain ⟨-, hsupplied, hthere⟩ := hloop rfl
  obtain ⟨hdressed, hcall, himplementation, hstays⟩ := templateBuiltinItems_dressed hfit hmid hbuiltin
  refine ⟨state, hfit, hdressed, hsupplied, fun hretaken c hc => ?_, hcall, himplementation, hookChunks_clean hlookups⟩
  exact hstays c (mem_chunks_of_provided hc) (hthere hretaken c hc)

section Accepted

variable {R : Registry} {loaded : Word → Word → Bool} {interfaceList : List Word} {tplRtype : RType}
  {node : SequenceTree} {chunks : List TplChunk}

/-- A builtin chunk is taken for a hook of its name only. -/
theorem Dressed.name_eq {written entry : TplChunk} (hfit : HooksFit node) (h : Dressed node written entry)
    (hbuiltin : IsBuiltin written.pointcut) : entry.pointcut.name = written.pointcut.name := by
  rcases h.pointcut with hsame | ⟨hhook, hmatch⟩
  · rw [hsame]
  · obtain ⟨hname, hscope, -⟩ := implements_iff.1 hmatch
    have hplain : isPlain written.pointcut.name = false :=
      isPlain_eq_false_iff.2 fun hfalse => by simp [hbuiltin.2] at hfalse
    have hblank : entry.pointcut.name.scope = Word.blank :=
      (hscope.resolve_left (by simp [hplain])).symm.trans hbuiltin.1
    have hsame := isBuiltin_of_not_plain (isQualified_iff.1 (hfit.qualified _ hhook)).2 hblank
    exact (hsame.name_eq hname).trans (hbuiltin.name_eq rfl).symm

/-- A chunk that has become a builtin one is `::CALL`, in a provided sequence. -/
theorem Dressed.builtin {w : Interfaces} {names : List Word} {written entry : TplChunk}
    (hreach : HooksInReach w names node chunks) (hregular : SequenceRegular node chunks) (hwritten : written ∈ chunks)
    (h : Dressed node written entry) (hbuiltin : IsBuiltin entry.pointcut) :
    entry.pointcut.name = callName ∧ node.qualifier = .provided := by
  have hcall : entry.pointcut.name.name = callName.name ∧ node.qualifier = .provided := by
    rcases h.pointcut with hsame | ⟨hhook, hmatch⟩
    · rw [hsame] at hbuiltin ⊢
      exact hregular.builtin written hwritten hbuiltin
    · rcases mem_hooks_iff.1 hhook with hchunk | ⟨hprovided, hcall⟩
      · cases hplain : isPlain written.pointcut.name with
        | true =>
          obtain ⟨hname, hprovided⟩ := hreach.builtin written hwritten _ hchunk hmatch hplain hbuiltin
          exact ⟨congrArg Ident.name hname, hprovided⟩
        | false =>
          obtain ⟨hname, hscope, -⟩ := implements_iff.1 hmatch
          have hscope := hscope.resolve_left (by simp [hplain])
          rw [hname]
          exact hregular.builtin written hwritten (isBuiltin_of_not_plain hplain (hscope.trans hbuiltin.1))
      · rw [hcall]
        exact ⟨rfl, hprovided⟩
  exact ⟨hbuiltin.name_eq hcall.1, hcall.2⟩

/-- The scope of what a chunk has become is in reach. -/
theorem Dressed.inReach {w : Interfaces} {names : List Word} {written entry : TplChunk}
    (hreach : HooksInReach w names node chunks) (hwritten : written ∈ chunks) (h : Dressed node written entry) :
    ScopeInReach w names entry.pointcut := by
  rcases h.pointcut with hsame | ⟨hhook, hmatch⟩
  · rw [hsame]
    exact hreach.written written hwritten
  · rcases mem_hooks_iff.1 hhook with hchunk | ⟨-, hcall⟩
    · exact hreach.declared written hwritten _ hchunk hmatch
    · rw [hcall]
      exact fun hscope => absurd rfl hscope

/-- A chunk of a global name hooks no pointcut of an interface, since no interface files a global one. -/
theorem not_declared_of_global {itf : Itf} {entry : TplChunk} (hglobal : entry.pointcut.name.global = true)
    (hitf : InReach (R.interfaces loaded) (usedNames tplRtype interfaceList) itf) :
    ¬ DeclaresPointcut itf entry.pointcut := by
  intro hdeclared
  have hnot := hdeclared.not_global (Registry.checked_of_registered hitf.registered)
  rw [hglobal] at hnot
  cases hnot

namespace Passed

variable {state final : List TplChunk}
  (h : Passed (R.interfaces loaded) interfaceList tplRtype node chunks state final)

include h

/-- **What has become of each chunk**: `::CALL`, in a provided sequence, or a pointcut in reach. -/
theorem entry_spec (hreach : HooksInReach (R.interfaces loaded) (usedNames tplRtype interfaceList) node chunks)
    (hregular : SequenceRegular node chunks) {entry : TplChunk} (hentry : entry ∈ final) :
    (entry.pointcut.name = callName ∧ node.qualifier = .provided) ∨
      ∃ itf, InReach (R.interfaces loaded) (usedNames tplRtype interfaceList) itf ∧
        DeclaresPointcut itf entry.pointcut := by
  obtain ⟨chunk, hchunk, hlooked⟩ := exists_left_of_forall₂ h.looked hentry
  obtain ⟨written, hwritten, hdressed⟩ := exists_left_of_forall₂ h.dressed hchunk
  by_cases hbuiltin : IsBuiltin chunk.pointcut
  · rw [lookedUp_builtin hlooked hbuiltin]
    exact .inl (hdressed.builtin hreach hregular hwritten hbuiltin)
  · refine .inr (lookedUp_declared hlooked hbuiltin (fun itf hreg => ?_) fun name hname =>
      List.mem_cons_of_mem _ hname).1
    unfold lookupName at hreg
    cases hplain : isPlain chunk.pointcut.name with
    | true =>
      rw [hplain, if_pos rfl] at hreg
      exact inReach_of_registered List.mem_cons_self hreg
    | false =>
      rw [hplain, if_neg Bool.false_ne_true] at hreg
      exact hdressed.inReach hreach hwritten (fun hscope => hbuiltin (isBuiltin_of_not_plain hplain hscope)) itf hreg

theorem chunk_iff (hchecked : SequenceChecked node) (hread : ∀ chunk ∈ chunks, Written chunk.pointcut) {c : RType}
    (hc : c ∈ node.providedChunks) :
    (∃ written ∈ chunks, NamesPointcut c written.pointcut) ↔
      ((∃ written ∈ chunks, implements c written.pointcut = true) →
        ∃ written ∈ chunks, implements c written.pointcut = true ∧ Marked c written.pointcut) := by
  have hnames : ∀ written ∈ chunks, NamesPointcut c written.pointcut ↔
      implements c written.pointcut = true ∧ Marked c written.pointcut := fun written hwritten =>
    namesPointcut_iff (hchecked.unscoped c (mem_chunks_of_provided hc)) (hread written hwritten).scope
  constructor
  · rintro ⟨written, hwritten, hname⟩ -
    exact ⟨written, hwritten, (hnames written hwritten).1 hname⟩
  · intro hmarked
    obtain ⟨written, hwritten, hboth⟩ := hmarked (supplied_chunk h.supplied hc)
    exact ⟨written, hwritten, (hnames written hwritten).2 hboth⟩

theorem pointcut_iff {declared : RType} (hdeclared : declared ∈ node.providedPointcuts) :
    (∃ given ∈ pointcutsOf chunks, StandsFor declared given) ↔
      ((∃ given ∈ pointcutsOf chunks, TakenFor declared given) →
        ∃ given ∈ pointcutsOf chunks, TakenFor declared given ∧ given.params.length ≤ declared.params.length) := by
  simp only [standsFor_iff]
  exact ⟨fun hthere _ => hthere, fun harity => harity (supplied_pointcut h.supplied hdeclared)⟩

/-- A builtin chunk of the template is still there. -/
theorem exists_builtin {written : TplChunk} (hwritten : written ∈ chunks) (hbuiltin : IsBuiltin written.pointcut) :
    ∃ entry ∈ final, entry.pointcut.name = written.pointcut.name := by
  obtain ⟨chunk, hchunk, hdressed⟩ := exists_right_of_forall₂ h.dressed hwritten
  obtain ⟨entry, hentry, hlooked⟩ := exists_right_of_forall₂ h.looked hchunk
  have hname := hdressed.name_eq h.fit hbuiltin
  have hsame : IsBuiltin chunk.pointcut := by
    unfold IsBuiltin
    rw [hname]
    exact hbuiltin
  exact ⟨entry, hentry, (congrArg RType.name (lookedUp_builtin hlooked hsame)).trans hname⟩

theorem exists_call (hprovided : node.qualifier = .provided) : ∃ entry ∈ final, entry.pointcut.name = callName := by
  obtain ⟨chunk, hchunk, hpointcut⟩ := List.mem_map.1 (h.call hprovided)
  obtain ⟨entry, hentry, hlooked⟩ := exists_right_of_forall₂ h.looked hchunk
  have hbuiltin : IsBuiltin chunk.pointcut := by
    rw [hpointcut]
    decide
  refine ⟨entry, hentry, ?_⟩
  rw [lookedUp_builtin hlooked hbuiltin, hpointcut]
  rfl

/-- The provided chunks are in the tree that is left, unless one is taken for an earlier one. -/
theorem chunk_left (hretaken : NoneRetaken node.chunks) :
    ∀ c ∈ node.providedChunks, ∃ entry ∈ final, SameTypes c entry.pointcut := by
  intro c hc
  obtain ⟨chunk, hchunk, rfl⟩ := List.mem_map.1 (h.there hretaken c hc)
  obtain ⟨entry, hentry, hlooked⟩ := exists_right_of_forall₂ h.looked hchunk
  exact ⟨entry, hentry,
    lookedUp_sameTypes hlooked (h.fit.qualified _ (mem_hooks_iff.2 (.inl (mem_chunks_of_provided hc))))⟩

theorem regular_of_provides (hchecked : SequenceChecked node) (hread : ∀ chunk ∈ chunks, Written chunk.pointcut)
    (hprovides : Provides (R.interfaces loaded) (usedNames tplRtype interfaceList) node chunks final) :
    SequenceRegular node chunks where
  marked c hc := (h.chunk_iff hchecked hread hc).1 (hprovides.chunk c hc)
  arity declared hdeclared := (h.pointcut_iff hdeclared).1 (hprovides.pointcut declared hdeclared)
  builtin written hwritten hbuiltin := by
    obtain ⟨entry, hentry, hname⟩ := h.exists_builtin hwritten hbuiltin
    rcases hprovides.hooked entry hentry with hcall | ⟨itf, hitf, hdeclared⟩
    · exact ⟨congrArg Ident.name (hname.symm.trans hcall), hprovides.call.1 ⟨entry, hentry, hcall⟩⟩
    · refine absurd hdeclared (not_declared_of_global ?_ hitf)
      rw [hname]
      exact hbuiltin.2
  absent hprovided given hgiven hname hbuiltin := by
    have hqualifier := hprovides.implementation.1 ⟨given, hgiven, hbuiltin.name_eq hname⟩
    rw [hprovided] at hqualifier
    exact absurd hqualifier (by decide)
  global hqualifier _ := by
    obtain ⟨given, hgiven, hname⟩ := hprovides.implementation.2 (required_or_optional hqualifier)
    exact ⟨given, hgiven, congrArg Ident.name hname, isBuiltin_of_name_eq hname⟩

theorem provides_of_regular (hchecked : SequenceChecked node) (hread : ∀ chunk ∈ chunks, Written chunk.pointcut)
    (hreach : HooksInReach (R.interfaces loaded) (usedNames tplRtype interfaceList) node chunks)
    (hregular : SequenceRegular node chunks) :
    Provides (R.interfaces loaded) (usedNames tplRtype interfaceList) node chunks final where
  chunk c hc := (h.chunk_iff hchecked hread hc).2 (hregular.marked c hc)
  pointcut declared hdeclared := (h.pointcut_iff hdeclared).2 (hregular.arity declared hdeclared)
  hooked entry hentry := (h.entry_spec hreach hregular hentry).imp_left And.left
  call := by
    refine ⟨?_, h.exists_call⟩
    rintro ⟨entry, hentry, hname⟩
    rcases h.entry_spec hreach hregular hentry with ⟨-, hprovided⟩ | ⟨itf, hitf, hdeclared⟩
    · exact hprovided
    · refine absurd hdeclared (not_declared_of_global ?_ hitf)
      rw [hname]
      rfl
  implementation := by
    constructor
    · rintro ⟨given, hgiven, hname⟩
      refine required_or_optional fun hprovided => ?_
      exact hregular.absent hprovided given hgiven (congrArg Ident.name hname) (isBuiltin_of_name_eq hname)
    · intro hqualifier
      have hnot : node.qualifier ≠ .provided := by
        intro hprovided
        rw [hprovided] at hqualifier
        exact absurd hqualifier (by decide)
      obtain ⟨given, hgiven, htaken⟩ := h.implementation hnot
      obtain ⟨given, hgiven, hname, hbuiltin⟩ := hregular.global hnot ⟨given, hgiven, htaken.implementation
        (written_of_mem_pointcutsOf hgiven)⟩
      exact ⟨given, hgiven, hbuiltin.name_eq hname⟩

/-- **An accepted template provides what the declaration says** exactly if what is not checked does not show. -/
theorem provides_iff (hchecked : SequenceChecked node) (hread : ∀ chunk ∈ chunks, Written chunk.pointcut)
    (hreach : HooksInReach (R.interfaces loaded) (usedNames tplRtype interfaceList) node chunks) :
    Provides (R.interfaces loaded) (usedNames tplRtype interfaceList) node chunks final ↔
      SequenceRegular node chunks :=
  ⟨h.regular_of_provides hchecked hread, h.provides_of_regular hchecked hread hreach⟩

end Passed

end Accepted

section Templates

variable (R : Registry) (loaded : Word → Word → Bool) (T : SequenceRegistry) (interfaceList : List Word)
  (otherPlaceHolders : TplChunk → Except String Nat) (fuel : Nat) (tplRtype : RType) (chunks final : List TplChunk)

end Templates

/-! ## Two sequences of an interface -/

/-- `LKM::name`. -/
def lkmName (name : Word) : Ident := rtxNodeIdentifier name ⟨"LKM", .refl true⟩

/-- A global type. -/
def globalType (name : Word) : Ident := ⟨Word.blank, name, true⟩

/-- The parameters of the two pointcuts `LKM::body`. -/
def numberParam : List Ident := [globalType ⟨"number", .refl true⟩]

def numberAndString : List Ident := [globalType ⟨"number", .refl true⟩, globalType ⟨"string", .refl true⟩]

/-- `LKM` declares the pointcuts `init()`, `body(::number)` and `body(::number, ::string)` and the sequences `open()`,
which it provides, and `close()`, which it requires. -/
def driverItf : Itf :=
  let decl (name : Word) (params : List Ident) (qualifier : Qualifier) : ItfDecl :=
    ⟨⟨lkmName name, params⟩, some qualifier⟩
  let table (decls : List ItfDecl) : Table ItfDecl :=
    decls.foldl (fun t d => t.set d.rtype.rtxRTypeFullQualifiedName d) Table.empty
  ⟨⟨"LKM", .refl true⟩, [],
    (Table.empty.set "init" (table [decl ⟨"init", .refl true⟩ [] .provided])).set "body"
      (table [decl ⟨"body", .refl true⟩ numberParam .provided, decl ⟨"body", .refl true⟩ numberAndString .provided]),
    (Table.empty.set "open" (table [decl ⟨"open", .refl true⟩ [] .provided])).set "close"
      (table [decl ⟨"close", .refl true⟩ [] .required]), []⟩

/-- The session with this interface. -/
def driverRegistry : Registry where
  cache := Table.empty.set "LKM" driverItf
  named := by decide
  checked := by decide

/-- The lookups of the session. -/
def driverSession : Interfaces := driverRegistry.interfaces fun _ _ => true

/-- `open()` provides the chunk `LKM::init()` and the pointcut `LKM::body(::number)`. -/
def openTree : SequenceTree :=
  ⟨.provided, [.chunk .provided ⟨lkmName ⟨"init", .refl true⟩, []⟩,
    .pointcut .provided ⟨lkmName ⟨"body", .refl true⟩, numberParam⟩]⟩

def closeTree : SequenceTree := ⟨.required, []⟩

/-- The trees of the sequences. -/
def driverSequences : SequenceRegistry where
  trees name :=
    if name = ⟨"LKM", .refl true⟩ then
      some ((Table.empty.set "open" (Table.empty.set "LKM::open()" openTree)).set "close"
        (Table.empty.set "LKM::close()" closeTree))
    else none
  checked := by
    intro scope sequences h
    split at h
    · cases h
      decide
    · cases h

/-- A chunk with pointcuts in its code. -/
def chunkWith (pointcut : RType) (inCode : List RType) (read : ∀ rtype ∈ inCode, Written rtype) : TplChunk :=
  ⟨.chunk, pointcut, inCode, read, "", []⟩

/-- A pointcut `body` of the code. -/
def bodyOf (params : List Ident) : RType := ⟨rtxNodeIdentifier ⟨"body", .refl true⟩, params⟩

/-- A template of `open()`: the call of the sequence, with pointcuts `body` of these parameters in its code, and the
chunk `init` of this name. -/
def openTemplate (init : Ident) (bodies : List (List Ident)) (read : ∀ rtype ∈ bodies.map bodyOf, Written rtype) :
    List TplChunk :=
  [chunkWith (builtinPointcut callName.name) (bodies.map bodyOf) read,
    chunkWith ⟨init, []⟩ [] (List.forall_mem_nil Written)]

/-- A template of `close()`: a chunk `::CALL()` with the pointcut `::IMPLEMENTATION()` in its code. -/
def closeTemplate : List TplChunk :=
  [chunkWith (builtinPointcut callName.name) [builtinPointcut implementationName.name] (by decide)]

end Rathaxes.Back
