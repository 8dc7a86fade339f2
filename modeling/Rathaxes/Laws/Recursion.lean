import Rathaxes.CodeWorker.Descent
import Rathaxes.Laws.Instance
import Rathaxes.Laws.Query

/-!
# When an instantiation ends

A chunk is instantiated again for every placeholder that asks for it, and nothing keeps track of the instantiations
that are under way. So the recursion follows the graph of which chunk asks for which (`uses`). Where the graph has no
cycle that a chunk leads to, its instantiation returns, with a result or with an error (`Returns`), whatever the values
and the cache are. Where there is one, it does not come to a complete instance: this would need complete instances of
all the chunks of the cycle.
-/

set_option autoImplicit false

namespace Rathaxes.Resolve

open CodeWorker Rathaxes.Link

variable {C A D V P : Type}

namespace Weaver

/-! ## Which chunk asks for which -/

/-- The chunk a sequence call is looked up to. -/
def sequenceChunk (w : Weaver C A D V) (theCall : SequenceCall A) : Except String (Option CachedChunk) :=
  match theCall.argTypes.mapM id with
  | none => .ok none
  | some types =>
    tplChunk w.session ⟨theCall.seqName, types.map RType.name⟩
      (callProto ⟨theCall.seqName, types.map RType.name⟩) w.config .sequence

/-- The chunks a pointcut stands for. -/
def pointcutChunks (w : Weaver C A D V) (p : Pointcut C A) : Except String (List CachedChunk) :=
  selectCompatibleChunks (findChunks w.session p.rtype.rtxRTypeFullQualifiedName) w.config

/-- The trees a placeholder asks for. -/
def requests (w : Weaver C A D V) : PlaceHolder C A → List (ChunkTree C A D)
  | .pointcut p =>
    match w.pointcutChunks p with
    | .ok chunks => chunks.filterMap fun chunk => (w.loadItem chunk).toOption
    | .error _ => []
  | .sequenceCall theCall =>
    match w.sequenceChunk theCall with
    | .ok (some chunk) => (w.loadItem chunk).toOption.toList
    | .ok none => []
    | .error _ => []
  | .methodCall theCall =>
    match typeMethod w.session theCall.rtype theCall.chunkProto w.config with
    | .ok (some theMethod) => (w.loadMethod theMethod).toOption.toList
    | .ok none => []
    | .error _ => []

/-- The trees a tree asks for. -/
def uses (w : Weaver C A D V) (tree : ChunkTree C A D) : List (ChunkTree C A D) :=
  (holes tree.body).flatMap w.requests

variable {w : Weaver C A D V} {inst : Instance C A D V}

/-! ## The trees of a cache -/

theorem toOption_eq_some {α : Type} {x : Except String α} {a : α} : x.toOption = some a ↔ x = .ok a := by
  cases x with
  | error e => simp [Except.toOption]
  | ok b => simp [Except.toOption]

/-- The chunks and the methods that are filed in a cache. -/
def trees (w : Weaver C A D V) : List (ChunkTree C A D) :=
  (w.session.cache.chunks.entries.flatMap Prod.snd).filterMap (fun chunk => (w.loadItem chunk).toOption) ++
    ((w.session.cache.sequences.entries ++ w.session.cache.types.entries).flatMap fun bucket =>
      bucket.2.flatMap fun tpl => tpl.methods.entries.map Prod.snd).filterMap
        fun theMethod => (w.loadMethod theMethod).toOption

theorem mem_chunks_of_mem_findChunks {s : Session} {name : String} {chunk : CachedChunk}
    (h : chunk ∈ (s.cache.chunks.get? name).getD []) : chunk ∈ s.cache.chunks.entries.flatMap Prod.snd := by
  cases hget : s.cache.chunks.get? name with
  | none =>
    rw [hget] at h
    cases h
  | some chunks =>
    rw [hget] at h
    exact List.mem_flatMap.2 ⟨(name, chunks), (Table.mem_entries_iff _ _ _).2 hget, h⟩

theorem mem_chunks_of_sequenceChunk {theCall : SequenceCall A} {chunk : CachedChunk}
    (h : w.sequenceChunk theCall = .ok (some chunk)) :
    chunk ∈ w.session.cache.chunks.entries.flatMap Prod.snd := by
  unfold sequenceChunk at h
  cases htypes : theCall.argTypes.mapM id with
  | none =>
    rw [htypes] at h
    cases h
  | some types =>
    rw [htypes] at h
    simp only [tplChunk] at h
    split at h
    · cases h
    · obtain ⟨r?, -, h⟩ := bind_eq_ok_iff.1 h
      cases r? with
      | none => cases h
      | some r =>
        simp only at h
        split at h
        · cases h
        · unfold selectChunkFromTemplate at h
          split at h
          · cases h
          · split at h
            · cases h
            · rename_i hchunk
              cases h
              exact mem_chunks_of_mem_findChunks (List.mem_of_getElem? hchunk)

theorem mem_methods_of_typeMethod {s : Session} {rtype : RType} {proto : String} {config : Config}
    {theMethod : CachedMethod} (h : typeMethod s rtype proto config = .ok (some theMethod)) :
    theMethod ∈ (s.cache.sequences.entries ++ s.cache.types.entries).flatMap fun bucket =>
      bucket.2.flatMap fun tpl => tpl.methods.entries.map Prod.snd := by
  unfold typeMethod at h
  split at h
  · cases h
  · obtain ⟨r?, -, h⟩ := bind_eq_ok_iff.1 h
    cases r? with
    | none => cases h
    | some r =>
      simp only at h
      split at h
      · cases h
      · rename_i tpl hderef
        split at h
        · cases h
        · rename_i found hget
          cases h
          have hmethod : theMethod ∈ tpl.methods.entries.map Prod.snd :=
            List.mem_map.2 ⟨(proto, theMethod), (Table.mem_entries_iff _ _ _).2 hget, rfl⟩
          obtain ⟨tpls, htpls, htpl⟩ := Option.bind_eq_some_iff.1 hderef
          have hmem : tpl ∈ tpls := Table.mem_of_mem_entries_ofList ((Table.mem_entries_iff _ _ _).2 htpl)
          refine List.mem_flatMap.2 ⟨(r.hash, tpls), ?_, List.mem_flatMap.2 ⟨tpl, hmem, hmethod⟩⟩
          rw [List.mem_append]
          cases htable : r.table with
          | sequences =>
            rw [htable] at htpls
            exact .inl ((Table.mem_entries_iff _ _ _).2 htpls)
          | types =>
            rw [htable] at htpls
            exact .inr ((Table.mem_entries_iff _ _ _).2 htpls)

/-- What a placeholder asks for is a tree of the cache. -/
theorem mem_trees_of_mem_requests {p : PlaceHolder C A} {tree : ChunkTree C A D} (h : tree ∈ w.requests p) :
    tree ∈ w.trees := by
  cases p with
  | pointcut p =>
    simp only [requests] at h
    split at h
    · rename_i chunks hchunks
      obtain ⟨chunk, hchunk, hload⟩ := List.mem_filterMap.1 h
      rw [((collect_eq_ok_iff _ _ _ _ _).1 hchunks).2] at hchunk
      have hmem := mem_chunks_of_mem_findChunks (List.mem_of_mem_filter hchunk)
      exact List.mem_append_left _ (List.mem_filterMap.2 ⟨chunk, hmem, hload⟩)
    · cases h
  | sequenceCall theCall =>
    simp only [requests] at h
    split at h
    · rename_i chunk hchunk
      have hload := Option.mem_toList.1 h
      exact List.mem_append_left _ (List.mem_filterMap.2 ⟨chunk, mem_chunks_of_sequenceChunk hchunk, hload⟩)
    · cases h
    · cases h
  | methodCall theCall =>
    simp only [requests] at h
    split at h
    · rename_i theMethod hmethod
      have hload := Option.mem_toList.1 h
      exact List.mem_append_right _ (List.mem_filterMap.2 ⟨theMethod, mem_methods_of_typeMethod hmethod, hload⟩)
    · cases h
    · cases h

/-- The trees of a cache are all that can be asked for. -/
theorem mem_trees_of_mem_uses (tree tree' : ChunkTree C A D) (h : tree' ∈ w.uses tree) : tree' ∈ w.trees := by
  obtain ⟨p, -, hp⟩ := List.mem_flatMap.1 h
  exact mem_trees_of_mem_requests hp

/-! ## What is asked for -/

theorem sequenceInstance_eq (vals : V) (theCall : SequenceCall A) :
    w.sequenceInstance vals theCall = (do
      match ← w.sequenceChunk theCall with
      | none => return none
      | some chunk =>
        let chunkTree ← w.loadItem chunk
        let resVals ← w.buildSequenceResVals vals theCall.seqArgs chunkTree.tplParams
        return some (resVals.1, chunkTree)) := by
  unfold sequenceInstance sequenceChunk
  cases theCall.argTypes.mapM id with
  | none => rfl
  | some types => rfl

/-- The tree of a sequence call that asks for an instantiation is the only one it requests. -/
theorem requests_sequenceCall {vals resVals : V} {theCall : SequenceCall A} {tree : ChunkTree C A D}
    (h : w.sequenceInstance vals theCall = .ok (some (resVals, tree))) : w.requests (.sequenceCall theCall) = [tree] := by
  rw [sequenceInstance_eq] at h
  obtain ⟨chunk?, hchunk, h⟩ := bind_eq_ok_iff.1 h
  cases chunk? with
  | none => cases h
  | some chunk =>
    obtain ⟨chunkTree, hload, h⟩ := bind_eq_ok_iff.1 h
    obtain ⟨built, -, h⟩ := bind_eq_ok_iff.1 h
    cases h
    rw [requests, hchunk]
    show (w.loadItem chunk).toOption.toList = _
    rw [hload]
    rfl

theorem requests_methodCall {vals resVals : V} {theCall : MethodCall A} {tree : ChunkTree C A D}
    (h : w.methodInstance vals theCall = .ok (some (resVals, tree))) : w.requests (.methodCall theCall) = [tree] := by
  obtain ⟨theMethod?, hmethod, h⟩ := bind_eq_ok_iff.1 h
  cases theMethod? with
  | none => cases h
  | some theMethod =>
    obtain ⟨subtree, hload, h⟩ := bind_eq_ok_iff.1 h
    obtain ⟨built, -, h⟩ := bind_eq_ok_iff.1 h
    cases h
    rw [requests, hmethod]
    show (w.loadMethod theMethod).toOption.toList = _
    rw [hload]
    rfl

theorem requests_pointcut {p : Pointcut C A} {chunks : List CachedChunk} (h : w.pointcutChunks p = .ok chunks) :
    w.requests (.pointcut p) = chunks.filterMap fun chunk => (w.loadItem chunk).toOption := by
  rw [requests, h]

/-- The instantiations are among those of the graph. -/
theorem Asks.mem_requests {vals resVals : V} {p : PlaceHolder C A} {tree : ChunkTree C A D}
    (h : w.Asks vals p resVals tree) : tree ∈ w.requests p := by
  cases p with
  | pointcut p =>
    obtain ⟨chunks, hchunks, chunk, hchunk, hload, -⟩ := h
    rw [requests_pointcut hchunks]
    exact List.mem_filterMap.2 ⟨chunk, hchunk, toOption_eq_some.2 hload⟩
  | sequenceCall theCall =>
    rw [requests_sequenceCall h]
    exact List.mem_singleton_self tree
  | methodCall theCall =>
    rw [requests_methodCall h]
    exact List.mem_singleton_self tree

/-! ## Returning -/

/-- The instantiation, where the instantiations at this depth are left to another function. -/
def instanceFrom (w : Weaver C A D V) (deepest : Instance C A D V) : Nat → Instance C A D V
  | 0 => deepest
  | depth + 1 => fun resVals tree =>
    w.resolveBody (w.instanceFrom deepest depth) resVals (compileBlock [] 0 tree.body) tree.body

theorem instanceFrom_tooDeep : ∀ fuel, w.instanceFrom (fun _ _ => .error tooDeep) fuel = w.instanceChunk fuel
  | 0 => rfl
  | fuel + 1 => by
    rw [instanceFrom, instanceFrom_tooDeep fuel]
    rfl

theorem instanceFrom_add (deepest : Instance C A D V) (n : Nat) :
    ∀ m, w.instanceFrom deepest (m + n) = w.instanceFrom (w.instanceFrom deepest n) m
  | 0 => by rw [Nat.zero_add, instanceFrom]
  | m + 1 => by rw [Nat.add_right_comm, instanceFrom, instanceFrom, instanceFrom_add deepest n m]

/-- The instantiation ends like this, with a result or with an error: it does not go deeper than some depth, whatever
there would be. -/
def Returns (w : Weaver C A D V) (vals : V) (tree : ChunkTree C A D) (r : Except String (List (Woven C) × Bool)) :
    Prop :=
  ∃ depth, ∀ fuel, depth ≤ fuel → ∀ deepest, w.instanceFrom deepest fuel vals tree = r

/-- Nothing at this depth is looked at. -/
def Shallow (w : Weaver C A D V) (depth : Nat) (tree : ChunkTree C A D) : Prop :=
  ∀ vals deepest deepest', w.instanceFrom deepest depth vals tree = w.instanceFrom deepest' depth vals tree

/-- One step of the recursion: what is asked for is less deep. -/
theorem shallow_succ {depth : Nat} {tree : ChunkTree C A D} (h : ∀ tree' ∈ w.uses tree, w.Shallow depth tree') :
    w.Shallow (depth + 1) tree := by
  intro vals deepest deepest'
  refine resolveBody_related (g := fun _ : Unit => w.instanceFrom deepest' depth) keeps_eq
    (fun p hp resVals tree' hasks _ => ?_) ()
  exact h tree' (List.mem_flatMap.2 ⟨p, hp, hasks.mem_requests⟩) resVals deepest deepest'

theorem Shallow.returns {depth : Nat} {tree : ChunkTree C A D} (h : w.Shallow depth tree) (vals : V) :
    ∃ r, w.Returns vals tree r := by
  refine ⟨w.instanceChunk depth vals tree, depth, fun fuel hfuel deepest => ?_⟩
  obtain ⟨k, rfl⟩ := Nat.exists_eq_add_of_le hfuel
  rw [instanceFrom_add, ← instanceFrom_tooDeep]
  exact h vals _ _

/-! ## Complete instances -/

/-- A tree that has a complete instance at this depth. -/
def Completes (w : Weaver C A D V) (fuel : Nat) (tree : ChunkTree C A D) : Prop :=
  ∃ vals ts, w.instanceChunk fuel vals tree = .ok (ts, true)

section Complete

variable {vals : V}

/-- A loop over chunks that returns true has made a complete instance of each. -/
theorem instances_of_injectChunks {parameters : A} {phName : String} :
    ∀ {chunks : List CachedChunk} {cursor : Cursor (Stmt (Entry C))} {errcount : Nat} {b : Block (Stmt (Entry C))},
      (w.generation inst).injectChunks vals parameters phName chunks cursor errcount = .ok (b, true) →
        errcount = 0 ∧ ∀ chunk ∈ chunks, ∀ tree, w.loadItem chunk = .ok tree →
          ∃ resVals ts, inst resVals tree = .ok (ts, true)
  | [], _, _, _, h =>
    ⟨beq_iff_eq.1 (congrArg Prod.snd (Except.ok.inj h)), fun _ hchunk => absurd hchunk List.not_mem_nil⟩
  | chunk :: chunks, cursor, errcount, b, h => by
    obtain ⟨tree, hload, h⟩ := bind_eq_ok_iff.1 h
    obtain ⟨⟨resVals, fits⟩, -, h⟩ := bind_eq_ok_iff.1 h
    cases fits with
    | false => cases h
    | true =>
      obtain ⟨copied, hcopied, h⟩ := bind_eq_ok_iff.1 h
      obtain ⟨⟨ts, done⟩, hinst, hsame⟩ := bind_eq_ok_iff.1 hcopied
      obtain rfl := Except.ok.inj hsame
      cases done with
      | false => exact absurd (instances_of_injectChunks h).1 (Nat.succ_ne_zero errcount)
      | true =>
        obtain ⟨inserted, -, h⟩ := bind_eq_ok_iff.1 h
        obtain ⟨hcount, hrest⟩ := instances_of_injectChunks h
        refine ⟨hcount, List.forall_mem_cons.2 ⟨fun tree' hload' => ?_, hrest⟩⟩
        obtain rfl : tree = tree' := Except.ok.inj (hload.symm.trans hload')
        exact ⟨resVals, ts, hinst⟩

theorem instance_of_injectCall {phName : String} {b b' : Block (Stmt (Entry C))} {n : Nat}
    {asked : Option (V × ChunkTree C A D)} (h : injectCall inst phName b n asked = .ok (b', true)) :
    ∃ resVals tree ts, asked = some (resVals, tree) ∧ inst resVals tree = .ok (ts, true) := by
  cases asked with
  | none => cases h
  | some asked =>
    obtain ⟨⟨ts, done⟩, hinst, h⟩ := bind_eq_ok_iff.1 h
    cases done with
    | false => cases h
    | true => exact ⟨asked.1, asked.2, ts, rfl, hinst⟩

/-- A placeholder that is resolved has a complete instance of each tree it requests. -/
theorem instances_of_inject {p : PlaceHolder C A} {b b' : Block (Stmt (Entry C))} {n : Nat}
    (h : w.inject inst vals b n p = .ok (b', true)) :
    ∀ tree ∈ w.requests p, ∃ resVals ts, inst resVals tree = .ok (ts, true) := by
  intro tree htree
  cases p with
  | pointcut p =>
    obtain ⟨chunks, hchunks, h⟩ := bind_eq_ok_iff.1 h
    rw [requests_pointcut hchunks] at htree
    obtain ⟨chunk, hchunk, hload⟩ := List.mem_filterMap.1 htree
    rw [if_neg (by simpa using List.ne_nil_of_mem hchunk)] at h
    obtain ⟨removed, -, h⟩ := bind_eq_ok_iff.1 h
    exact (instances_of_injectChunks h).2 chunk hchunk tree (toOption_eq_some.1 hload)
  | sequenceCall theCall =>
    obtain ⟨asked, hasked, h⟩ := bind_eq_ok_iff.1 h
    obtain ⟨resVals, tree', ts, rfl, hinst⟩ := instance_of_injectCall h
    rw [requests_sequenceCall hasked, List.mem_singleton] at htree
    exact htree ▸ ⟨resVals, ts, hinst⟩
  | methodCall theCall =>
    obtain ⟨asked, hasked, h⟩ := bind_eq_ok_iff.1 h
    obtain ⟨resVals, tree', ts, rfl, hinst⟩ := instance_of_injectCall h
    rw [requests_methodCall hasked, List.mem_singleton] at htree
    exact htree ▸ ⟨resVals, ts, hinst⟩

/-- A script that counts no error has resolved every placeholder. -/
theorem injected_of_runScript : ∀ {sites : List (Site (PlaceHolder C A))} {store store' : Blocks C} {errcount : Nat},
    w.runScript inst vals sites store errcount = .ok (store', 0) →
      errcount = 0 ∧ ∀ site ∈ sites, ∃ b b', w.inject inst vals b site.blockIdx site.placeHolder = .ok (b', true)
  | [], _, _, _, h =>
    ⟨congrArg Prod.snd (Except.ok.inj h), fun _ hsite => absurd hsite List.not_mem_nil⟩
  | site :: sites, store, store', errcount, h => by
    obtain ⟨⟨b', done⟩, hinject, h⟩ := bind_eq_ok_iff.1 h
    obtain ⟨hcount, hrest⟩ := injected_of_runScript h
    cases done with
    | false => exact absurd hcount (Nat.succ_ne_zero errcount)
    | true => exact ⟨hcount, List.forall_mem_cons.2 ⟨⟨_, b', hinject⟩, hrest⟩⟩

/-- One step of the recursion: a complete instance rests on complete instances of all trees asked for. -/
theorem completes_of_completes_succ {fuel : Nat} {tree : ChunkTree C A D} (h : w.Completes (fuel + 1) tree) :
    ∀ tree' ∈ w.uses tree, w.Completes fuel tree' := by
  obtain ⟨vals, ts, h⟩ := h
  obtain ⟨⟨store, count⟩, hrun, h⟩ := bind_eq_ok_iff.1 h
  obtain rfl : count = 0 := beq_iff_eq.1 (congrArg Prod.snd (Except.ok.inj h))
  intro tree' htree'
  obtain ⟨p, hp, hrequest⟩ := List.mem_flatMap.1 htree'
  obtain ⟨site, hsite, rfl⟩ := List.mem_map.1 hp
  obtain ⟨b, b', hinject⟩ := (injected_of_runScript hrun).2 site hsite
  exact instances_of_inject hinject tree' hrequest

end Complete

/-- A complete instance, at whatever depth, means that there is no cycle. -/
theorem not_leadsToCycle_of_completes {fuel : Nat} {tree : ChunkTree C A D} (h : w.Completes fuel tree) :
    ¬ LeadsToCycle w.uses tree :=
  (grounded_iff mem_trees_of_mem_uses).1
    (grounded_of_fuel (G := w.Completes) (fun _ ⟨_, _, h⟩ => by cases h)
      (fun _ _ h => completes_of_completes_succ h) h)

end Weaver

end Rathaxes.Resolve
