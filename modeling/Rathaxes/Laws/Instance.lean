import Rathaxes.CodeWorker.Raise
import Rathaxes.Laws.Weaving

/-!
# Whole instantiations

`instanceChunk` weaves a chunk, and weaving it instantiates the chunks its placeholders ask for. `expandChunk` is the
same recursion over the expansion of bodies, with no positions and no modifiers. Where no pointcut has to fall back on
its default body and no placeholder stands before a cast the two agree at every depth (`instanceChunk_eq_expandChunk`).

What the expansion of a chunk is needs no depth either: it is the body expanded with instances that are expansions
themselves (`Expands`). The program computes exactly these. So what holds of the expansion holds of the program; in
particular an instance that is reported as complete has no placeholder left, in any block of any chunk woven into it.
-/

set_option autoImplicit false

namespace Rathaxes.Resolve

open CodeWorker Rathaxes.Link

variable {C A D V P : Type}

/-! ## The recursion over expansions -/

namespace Weaver

variable {w : Weaver C A D V}

/-- `instanceChunk`, with the body expanded instead of resolved in place. -/
def expandChunk (w : Weaver C A D V) : Nat → Instance C A D V
  | 0, _, _ => .error tooDeep
  | fuel + 1, resVals, tree => expandBlock (w.outcome (w.expandChunk fuel) resVals) tree.body

/-- A tree the cache gives. -/
def Cached (w : Weaver C A D V) (tree : ChunkTree C A D) : Prop :=
  (∃ chunk, w.loadItem chunk = .ok tree) ∨ ∃ theMethod, w.loadMethod theMethod = .ok tree

/-- A tree whose placeholders are found where they stand: no pointcut of it falls back on its default body, and no
placeholder stands before a cast of its block. -/
structure Weavable (w : Weaver C A D V) (tree : ChunkTree C A D) : Prop where
  defaultFree : ∀ p ∈ holes tree.body, ¬ w.FallsBack p
  castsFirst : castsFirst tree.body = true

/-- The tree a sequence call instantiates has been loaded. -/
theorem sequenceInstance_cached {vals resVals : V} {theCall : SequenceCall A} {tree : ChunkTree C A D}
    (h : w.sequenceInstance vals theCall = .ok (some (resVals, tree))) : w.Cached tree := by
  unfold sequenceInstance at h
  cases htypes : theCall.argTypes.mapM id with
  | none =>
    rw [htypes] at h
    cases h
  | some types =>
    rw [htypes] at h
    obtain ⟨chunk?, -, h⟩ := bind_eq_ok_iff.1 h
    cases chunk? with
    | none => cases h
    | some chunk =>
      obtain ⟨tree', hload, h⟩ := bind_eq_ok_iff.1 h
      obtain ⟨resVals', -, h⟩ := bind_eq_ok_iff.1 h
      cases h
      exact .inl ⟨chunk, hload⟩

theorem methodInstance_cached {vals resVals : V} {theCall : MethodCall A} {tree : ChunkTree C A D}
    (h : w.methodInstance vals theCall = .ok (some (resVals, tree))) : w.Cached tree := by
  unfold methodInstance at h
  obtain ⟨theMethod?, -, h⟩ := bind_eq_ok_iff.1 h
  cases theMethod? with
  | none => cases h
  | some theMethod =>
    obtain ⟨tree', hload, h⟩ := bind_eq_ok_iff.1 h
    obtain ⟨resVals', -, h⟩ := bind_eq_ok_iff.1 h
    cases h
    exact .inr ⟨theMethod, hload⟩

/-- The instantiations a placeholder asks for, when the chunk it stands in has been given values: the values and the
tree of each. -/
def Asks (w : Weaver C A D V) (vals : V) : PlaceHolder C A → V → ChunkTree C A D → Prop
  | .pointcut p, resVals, tree => ∃ chunks,
      selectCompatibleChunks (findChunks w.session p.rtype.rtxRTypeFullQualifiedName) w.config = .ok chunks ∧
        ∃ chunk ∈ chunks, w.loadItem chunk = .ok tree ∧
          w.buildParameterResVals vals p.parameters tree.parameters = .ok (resVals, true)
  | .sequenceCall theCall, resVals, tree => w.sequenceInstance vals theCall = .ok (some (resVals, tree))
  | .methodCall theCall, resVals, tree => w.methodInstance vals theCall = .ok (some (resVals, tree))

theorem Asks.cached {vals resVals : V} {p : PlaceHolder C A} {tree : ChunkTree C A D}
    (h : w.Asks vals p resVals tree) : w.Cached tree := by
  cases p with
  | pointcut p =>
    obtain ⟨-, -, chunk, -, hload, -⟩ := h
    exact .inl ⟨chunk, hload⟩
  | sequenceCall theCall => exact sequenceInstance_cached h
  | methodCall theCall => exact methodInstance_cached h

section Related

variable {ι : Type} {R : {α : Type} → Except String α → (ι → Except String α) → Prop} {f : Instance C A D V}
  {g : ι → Instance C A D V} {vals : V}

theorem chunksOutcome_related (hR : Keeps R) {parameters : A} : ∀ {chunks : List CachedChunk},
    (∀ chunk ∈ chunks, ∀ tree resVals, w.loadItem chunk = .ok tree →
      w.buildParameterResVals vals parameters tree.parameters = .ok (resVals, true) →
        R (f resVals tree) fun i => g i resVals tree) →
      R (w.chunksOutcome f vals parameters chunks) fun i => w.chunksOutcome (g i) vals parameters chunks
  | [], _ => hR.refl _
  | chunk :: chunks, h => by
    obtain ⟨hfirst, hrest⟩ := List.forall_mem_cons.1 h
    have ih := chunksOutcome_related hR hrest
    refine hR.bind (hR.refl _) fun tree htree => hR.bind (hR.refl _) fun built hbuilt => ?_
    obtain ⟨resVals, fits⟩ := built
    cases fits with
    | false => exact hR.refl _
    | true =>
      refine hR.bind (hfirst tree resVals htree hbuilt) fun instantiated _ => ?_
      obtain ⟨stmts, done⟩ := instantiated
      cases done with
      | false => exact hR.bind ih fun _ _ => hR.refl _
      | true => exact hR.bind ih fun _ _ => hR.refl _

theorem callOutcome_related (hR : Keeps R) {asked : Option (V × ChunkTree C A D)}
    (h : ∀ resVals tree, asked = some (resVals, tree) → R (f resVals tree) fun i => g i resVals tree) :
    R (callOutcome f asked) fun i => callOutcome (g i) asked := by
  cases asked with
  | none => exact hR.refl _
  | some asked => exact hR.bind (h asked.1 asked.2 rfl) fun _ _ => hR.refl _

/-- An outcome depends on the instances that are asked for only. -/
theorem outcome_related (hR : Keeps R) {p : PlaceHolder C A}
    (h : ∀ resVals tree, w.Asks vals p resVals tree → R (f resVals tree) fun i => g i resVals tree) :
    R (w.outcome f vals p) fun i => w.outcome (g i) vals p := by
  cases p with
  | pointcut p =>
    refine hR.bind (hR.refl _) fun chunks hchunks => ?_
    cases chunks with
    | nil => exact hR.refl _
    | cons chunk chunks =>
      exact hR.bind (chunksOutcome_related hR fun chunk hchunk tree resVals hload hbuild =>
        h resVals tree ⟨_, hchunks, chunk, hchunk, hload, hbuild⟩) fun _ _ => hR.refl _
  | sequenceCall theCall =>
    refine hR.bind (hR.refl _) fun asked hasked => callOutcome_related hR fun resVals tree heq => ?_
    subst heq
    exact h resVals tree hasked
  | methodCall theCall =>
    refine hR.bind (hR.refl _) fun asked hasked => callOutcome_related hR fun resVals tree heq => ?_
    subst heq
    exact h resVals tree hasked

theorem injectChunks_related (hR : Keeps R) {parameters : A} {phName : String} : ∀ {chunks : List CachedChunk}
    {cursor : Cursor (Stmt (Entry C))} {errcount : Nat},
    (∀ chunk ∈ chunks, ∀ tree resVals, w.loadItem chunk = .ok tree →
      w.buildParameterResVals vals parameters tree.parameters = .ok (resVals, true) →
        R (f resVals tree) fun i => g i resVals tree) →
      R ((w.generation f).injectChunks vals parameters phName chunks cursor errcount)
        fun i => (w.generation (g i)).injectChunks vals parameters phName chunks cursor errcount
  | [], _, _, _ => hR.refl _
  | chunk :: chunks, cursor, errcount, h => by
    obtain ⟨hfirst, hrest⟩ := List.forall_mem_cons.1 h
    refine hR.bind (hR.refl _) fun tree htree => hR.bind (hR.refl _) fun built hbuilt => ?_
    obtain ⟨resVals, fits⟩ := built
    cases fits with
    | false => exact hR.refl _
    | true =>
      refine hR.bind (hR.bind (hfirst tree resVals htree hbuilt) fun _ _ => hR.refl _) fun instantiated _ => ?_
      obtain ⟨stmts, done⟩ := instantiated
      cases done with
      | false => exact injectChunks_related hR hrest
      | true => exact hR.bind (hR.refl _) fun _ _ => injectChunks_related hR hrest

theorem injectCall_related (hR : Keeps R) {phName : String} {b : Block (Stmt (Entry C))} {n : Nat}
    {asked : Option (V × ChunkTree C A D)}
    (h : ∀ resVals tree, asked = some (resVals, tree) → R (f resVals tree) fun i => g i resVals tree) :
    R (injectCall f phName b n asked) fun i => injectCall (g i) phName b n asked := by
  cases asked with
  | none => exact hR.refl _
  | some asked => exact hR.bind (h asked.1 asked.2 rfl) fun _ _ => hR.refl _

/-- An injection depends on the instances that are asked for only. -/
theorem inject_related (hR : Keeps R) {b : Block (Stmt (Entry C))} {n : Nat} {p : PlaceHolder C A}
    (h : ∀ resVals tree, w.Asks vals p resVals tree → R (f resVals tree) fun i => g i resVals tree) :
    R (w.inject f vals b n p) fun i => w.inject (g i) vals b n p := by
  cases p with
  | pointcut p =>
    refine hR.bind (hR.refl _) fun chunks hchunks => ?_
    cases chunks with
    | nil => exact hR.refl _
    | cons chunk chunks =>
      refine hR.bind (hR.refl _) fun removed _ => injectChunks_related hR fun chunk hchunk tree resVals hload hbuild => ?_
      exact h resVals tree ⟨_, hchunks, chunk, hchunk, hload, hbuild⟩
  | sequenceCall theCall =>
    refine hR.bind (hR.refl _) fun asked hasked => injectCall_related hR fun resVals tree heq => ?_
    subst heq
    exact h resVals tree hasked
  | methodCall theCall =>
    refine hR.bind (hR.refl _) fun asked hasked => injectCall_related hR fun resVals tree heq => ?_
    subst heq
    exact h resVals tree hasked

theorem runScript_related (hR : Keeps R) : ∀ {sites : List (Site (PlaceHolder C A))} {store : Blocks C} {errcount : Nat},
    (∀ site ∈ sites, ∀ resVals tree, w.Asks vals site.placeHolder resVals tree →
      R (f resVals tree) fun i => g i resVals tree) →
      R (w.runScript f vals sites store errcount) fun i => w.runScript (g i) vals sites store errcount
  | [], _, _, _ => hR.refl _
  | site :: sites, _, _, h => by
    obtain ⟨hfirst, hrest⟩ := List.forall_mem_cons.1 h
    exact hR.bind (inject_related hR hfirst) fun _ _ => runScript_related hR hrest

/-- The resolution of a chunk depends on the instances that are asked for only. -/
theorem resolveBody_related (hR : Keeps R) {body : List (Code C (PlaceHolder C A))}
    (h : ∀ p ∈ holes body, ∀ resVals tree, w.Asks vals p resVals tree → R (f resVals tree) fun i => g i resVals tree) :
    R (w.resolveBody f vals (compileBlock [] 0 body) body)
      fun i => w.resolveBody (g i) vals (compileBlock [] 0 body) body :=
  hR.bind (runScript_related hR fun _ hsite => h _ (List.mem_map_of_mem hsite)) fun _ _ => hR.refl _

end Related

/-- **Instantiation is macro expansion.** At every depth, with every result: the statements, the verdict and the
errors. -/
theorem instanceChunk_eq_expandChunk (hcached : ∀ tree, w.Cached tree → w.Weavable tree) :
    ∀ (fuel : Nat) (vals : V) (tree : ChunkTree C A D), w.Weavable tree →
      w.instanceChunk fuel vals tree = w.expandChunk fuel vals tree
  | 0, _, _, _ => rfl
  | fuel + 1, vals, tree, htree => by
    rw [instanceChunk, expandChunk, ← resolveBody_eq_expandBlock htree.castsFirst htree.defaultFree]
    exact resolveBody_related keeps_eq (fun _ _ resVals tree' hasks (_ : Unit) =>
      instanceChunk_eq_expandChunk hcached fuel resVals tree' (hcached tree' hasks.cached)) ()

end Weaver

/-! ## Expansion without a depth -/

section Related

variable {ι : Type} {R : {α : Type} → Except String α → (ι → Except String α) → Prop}
  {f : P → Except String (Outcome C)} {g : ι → P → Except String (Outcome C)}

mutual

theorem expandStmt_related (hR : Keeps R) (h : ∀ p, R (f p) fun i => g i p) :
    ∀ s : Code C P, R (expandStmt f s) fun i => expandStmt (g i) s
  | .placeHolder p => hR.bind (h p) fun _ _ => hR.refl _
  | .stmt _ blocks => hR.bind (expandBlocks_related hR h blocks) fun _ _ => hR.refl _
  | .cast => hR.refl _

theorem expandBlock_related (hR : Keeps R) (h : ∀ p, R (f p) fun i => g i p) :
    ∀ stmts : List (Code C P), R (expandBlock f stmts) fun i => expandBlock (g i) stmts
  | [] => hR.refl _
  | s :: stmts => hR.bind (expandStmt_related hR h s) fun _ _ =>
      hR.bind (expandBlock_related hR h stmts) fun _ _ => hR.refl _

theorem expandBlocks_related (hR : Keeps R) (h : ∀ p, R (f p) fun i => g i p) :
    ∀ blocks : List (List (Code C P)), R (expandBlocks f blocks) fun i => expandBlocks (g i) blocks
  | [] => hR.refl _
  | block :: blocks => hR.bind (expandBlock_related hR h block) fun _ _ =>
      hR.bind (expandBlocks_related hR h blocks) fun _ _ => hR.refl _

end

end Related

namespace Weaver

variable {w : Weaver C A D V} {vals : V} {tree : ChunkTree C A D} {r : List (Woven C) × Bool}

/-- The result of a chunk: its body expanded, with instances whose results are results of their chunks. -/
inductive Expands (w : Weaver C A D V) : V → ChunkTree C A D → List (Woven C) × Bool → Prop
  | intro (inst : Instance C A D V) (vals : V) (tree : ChunkTree C A D) (r : List (Woven C) × Bool)
      (hinst : ∀ vals tree r, inst vals tree = .ok r → Expands w vals tree r)
      (hbody : expandBlock (w.outcome inst vals) tree.body = .ok r) : Expands w vals tree r

theorem Expands.of_expandChunk : ∀ {fuel : Nat} {vals : V} {tree : ChunkTree C A D} {r : List (Woven C) × Bool},
    w.expandChunk fuel vals tree = .ok r → w.Expands vals tree r
  | 0, _, _, _, h => by cases h
  | fuel + 1, vals, tree, r, h =>
    .intro (w.expandChunk fuel) vals tree r (fun _ _ _ => Expands.of_expandChunk) h

/-- A result is reached at some depth, and stays. -/
theorem Expands.reaches (h : w.Expands vals tree r) :
    ∃ bound, ∀ fuel, bound ≤ fuel → w.expandChunk fuel vals tree = .ok r := by
  induction h with
  | intro inst vals tree r _ hbody ih =>
    have hinst : ∀ vals tree, Reaches (inst vals tree) fun fuel => w.expandChunk fuel vals tree :=
      fun vals tree r hr => ih vals tree r hr
    obtain ⟨bound, hbound⟩ := expandBlock_related keeps_reaches
      (fun p => outcome_related keeps_reaches fun resVals tree _ => hinst resVals tree) tree.body r hbody
    refine ⟨bound + 1, fun fuel hfuel => ?_⟩
    obtain ⟨k, rfl⟩ := Nat.exists_eq_add_of_le' (Nat.le_of_add_left_le hfuel)
    exact hbound k (Nat.le_of_add_le_add_right hfuel)

end Weaver

/-- The chunk of the cache is a tree of it. -/
theorem cached_initWeaver {body : List (Code String (PlaceHolder String Unit))} {tree : ChunkTree String Unit Unit}
    (h : (initWeaver body).Cached tree) : tree = ⟨(), (), body⟩ := by
  rcases h with ⟨chunk, hload⟩ | ⟨theMethod, hload⟩
  · exact (Except.ok.inj hload).symm
  · cases hload

theorem weavable_of_cached_initWeaver {tree : ChunkTree String Unit Unit}
    (h : (initWeaver [.cast, .stmt "a" []]).Cached tree) : (initWeaver [.cast, .stmt "a" []]).Weavable tree := by
  rw [cached_initWeaver h]
  exact ⟨fun p hp => absurd hp List.not_mem_nil, rfl⟩

theorem weavable_nestedInit (w : Weaver String Unit Unit Unit) : w.Weavable ⟨(), (), nestedInit⟩ := by
  refine ⟨fun p hp => ?_, rfl⟩
  rw [mem_holes_nestedInit hp]
  exact initPlaceHolder_not_fallsBack w

mutual

/-- No placeholder is left in the statement. -/
def Woven.Full : Woven C → Prop
  | .stmt _ blocks => Woven.FullBlocks blocks
  | .unresolved => False

/-- No placeholder is left in the block. -/
def Woven.FullBlock : List (Woven C) → Prop
  | [] => True
  | t :: ts => t.Full ∧ Woven.FullBlock ts

/-- No placeholder is left in the blocks. -/
def Woven.FullBlocks : List (List (Woven C)) → Prop
  | [] => True
  | block :: blocks => Woven.FullBlock block ∧ Woven.FullBlocks blocks

end

theorem Woven.fullBlock_append {ts us : List (Woven C)} :
    Woven.FullBlock (ts ++ us) ↔ Woven.FullBlock ts ∧ Woven.FullBlock us := by
  induction ts with
  | nil => simp [Woven.FullBlock]
  | cons t ts ih => rw [List.cons_append, Woven.FullBlock, ih, Woven.FullBlock, and_assoc]

section Full

variable {outcome : P → Except String (Outcome C)}

/-- Statements that are full if they are reported as complete. -/
def FullIfDone (r : List (Woven C) × Bool) : Prop := r.2 = true → Woven.FullBlock r.1

/-- An outcome that is full if it counts as resolved. -/
def Outcome.FullIfDone (o : Outcome C) : Prop := o.resolved = true → Woven.FullBlock o.shown

mutual

theorem expandStmt_full (h : ∀ p, Ends Outcome.FullIfDone (fun _ => True) (outcome p)) :
    ∀ s : Code C P, Ends FullIfDone (fun _ => True) (expandStmt outcome s)
  | .placeHolder p => (h p).bind fun _ ho => ho
  | .stmt _ blocks => (expandBlocks_full h blocks).bind fun _ hinner hdone => ⟨hinner hdone, True.intro⟩
  | .cast => fun _ => True.intro

theorem expandBlock_full (h : ∀ p, Ends Outcome.FullIfDone (fun _ => True) (outcome p)) :
    ∀ stmts : List (Code C P), Ends FullIfDone (fun _ => True) (expandBlock outcome stmts)
  | [] => fun _ => True.intro
  | s :: stmts =>
    (expandStmt_full h s).bind fun _ hfirst => (expandBlock_full h stmts).bind fun _ hrest hdone =>
      Woven.fullBlock_append.2 ⟨hfirst (Bool.and_eq_true_iff.1 hdone).1, hrest (Bool.and_eq_true_iff.1 hdone).2⟩

theorem expandBlocks_full (h : ∀ p, Ends Outcome.FullIfDone (fun _ => True) (outcome p)) :
    ∀ blocks : List (List (Code C P)),
      Ends (fun r => r.2 = true → Woven.FullBlocks r.1) (fun _ => True) (expandBlocks outcome blocks)
  | [] => fun _ => True.intro
  | block :: blocks =>
    (expandBlock_full h block).bind fun _ hfirst => (expandBlocks_full h blocks).bind fun _ hrest hdone =>
      ⟨hfirst (Bool.and_eq_true_iff.1 hdone).1, hrest (Bool.and_eq_true_iff.1 hdone).2⟩

end

end Full

namespace Weaver

variable {w : Weaver C A D V} {inst : Instance C A D V}

theorem chunksOutcome_full (h : ∀ vals tree, Ends FullIfDone (fun _ => True) (inst vals tree)) (vals : V)
    (parameters : A) : ∀ chunks : List CachedChunk,
      Ends FullIfDone (fun _ => True) (w.chunksOutcome inst vals parameters chunks)
  | [] => fun _ => True.intro
  | chunk :: chunks => by
    have ih := chunksOutcome_full h vals parameters chunks
    refine (ends_true _).bind fun tree _ => ?_
    refine (ends_true _).bind fun built _ => ?_
    obtain ⟨resVals, fits⟩ := built
    cases fits with
    | false => exact fun hdone => by cases hdone
    | true =>
      refine (h resVals tree).bind fun instantiated hinst => ?_
      obtain ⟨stmts, done⟩ := instantiated
      cases done with
      | false => exact ih.bind fun _ _ hdone => by cases hdone
      | true => exact ih.bind fun _ hrest hdone => Woven.fullBlock_append.2 ⟨hinst rfl, hrest hdone⟩

theorem callOutcome_full (h : ∀ vals tree, Ends FullIfDone (fun _ => True) (inst vals tree))
    (asked : Option (V × ChunkTree C A D)) :
    Ends Outcome.FullIfDone (fun _ => True) (callOutcome inst asked) := by
  cases asked with
  | none => exact fun hdone => by cases hdone
  | some asked =>
    refine (h asked.1 asked.2).bind fun instantiated hinst => ?_
    obtain ⟨stmts, done⟩ := instantiated
    cases done with
    | false => exact fun hdone => by cases hdone
    | true => exact hinst

theorem outcome_full (h : ∀ vals tree, Ends FullIfDone (fun _ => True) (inst vals tree)) (vals : V)
    (p : PlaceHolder C A) :
    Ends Outcome.FullIfDone (fun _ => True) (w.outcome inst vals p) := by
  cases p with
  | pointcut p =>
    refine (ends_true _).bind fun chunks _ => ?_
    cases chunks with
    | nil =>
      intro _
      cases p.default with
      | none => exact True.intro
      | some c => exact ⟨True.intro, True.intro⟩
    | cons chunk chunks =>
      exact (chunksOutcome_full h vals p.parameters (chunk :: chunks)).bind fun _ hwoven => hwoven
  | sequenceCall theCall =>
    exact (ends_true _).bind fun asked _ => callOutcome_full h asked
  | methodCall theCall =>
    exact (ends_true _).bind fun asked _ => callOutcome_full h asked

theorem expandChunk_full : ∀ (fuel : Nat) (vals : V) (tree : ChunkTree C A D),
    Ends FullIfDone (fun _ => True) (w.expandChunk fuel vals tree)
  | 0, _, _ => True.intro
  | fuel + 1, vals, tree => expandBlock_full (outcome_full (expandChunk_full fuel) vals) tree.body

end Weaver

end Rathaxes.Resolve
