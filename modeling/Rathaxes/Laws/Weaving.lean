import Rathaxes.Laws.Pointcut
import Rathaxes.Resolve.Instance

/-!
# Weaving is expansion

What a generated script does to the blocks of a chunk, told without positions. A placeholder has an outcome: statements
that take its place, or it stays; and it counts as resolved or not (`Weaver.outcome`). Expanding a body replaces each
placeholder by its outcome, in any block (`expandBlock`).

The script works with positions recorded when the chunk was parsed, one modifier for each block, and on all blocks in
the order of the text. An injection does not touch the other blocks, so only the order within each block matters
(`resolveBody_of_own_eq`). `Progress` says of one block what is left to be done and what it leads to, and every injection
keeps it (`runScript_cases`). So the script computes the expansion, errors included (`resolveBody_eq_expandBlock`),
provided the block starts out aligned: the modifier counts all the casts, also those behind a placeholder, so no
placeholder may stand before a cast (`castsFirst`).
-/

set_option autoImplicit false

namespace Rathaxes.Resolve

open CodeWorker Rathaxes.Link

variable {C A D V P : Type}

/-! ## Outcomes -/

/-- What becomes of a placeholder: the statements that take its place, none when it stays, and whether it counts as
resolved. -/
structure Outcome (C : Type) where
  stmts : Option (List (Woven C))
  resolved : Bool

/-- What stands for the placeholder afterwards. -/
def Outcome.shown (o : Outcome C) : List (Woven C) := o.stmts.getD [.unresolved]

/-- The outcome of a placeholder that has none. -/
def Outcome.failed : Outcome C := ⟨none, false⟩

/-- The statements of the chunks of a pointcut, and whether all of them were instantiated. Values that cannot be built
end the loop. -/
def Weaver.chunksOutcome (w : Weaver C A D V) (instanceChunk : Instance C A D V) (resolverValues : V)
    (parameters : A) : List CachedChunk → Except String (List (Woven C) × Bool)
  | [] => .ok ([], true)
  | chunk :: chunks => do
    let tree ← w.loadItem chunk
    match ← w.buildParameterResVals resolverValues parameters tree.parameters with
    | (_, false) => return ([], false)
    | (resVals, true) =>
      match ← instanceChunk resVals tree with
      | (stmts, true) =>
        let rest ← w.chunksOutcome instanceChunk resolverValues parameters chunks
        return (stmts ++ rest.1, rest.2)
      | (_, false) =>
        let rest ← w.chunksOutcome instanceChunk resolverValues parameters chunks
        return (rest.1, false)

/-- The outcome of a call. -/
def callOutcome (instanceChunk : Instance C A D V) :
    Option (V × ChunkTree C A D) → Except String (Outcome C)
  | none => .ok Outcome.failed
  | some (resVals, tree) => do
    match ← instanceChunk resVals tree with
    | (stmts, true) => return ⟨some stmts, true⟩
    | (_, false) => return Outcome.failed

/-- The outcome of a placeholder. -/
def Weaver.outcome (w : Weaver C A D V) (instanceChunk : Instance C A D V) (resolverValues : V) :
    PlaceHolder C A → Except String (Outcome C)
  | .pointcut p => do
    let chunks ← selectCompatibleChunks (findChunks w.session p.rtype.rtxRTypeFullQualifiedName) w.config
    if chunks.isEmpty then return ⟨some (p.default.toList.map fun c => .stmt c []), true⟩
    else do
      let woven ← w.chunksOutcome instanceChunk resolverValues p.parameters chunks
      return ⟨some woven.1, woven.2⟩
  | .sequenceCall theCall => do
    let asked ← w.sequenceInstance resolverValues theCall
    callOutcome instanceChunk asked
  | .methodCall theCall => do
    let asked ← w.methodInstance resolverValues theCall
    callOutcome instanceChunk asked

/-! ## Expansion -/

mutual

/-- What a statement becomes when every placeholder is replaced, and whether all were resolved. -/
def expandStmt (outcome : P → Except String (Outcome C)) : Code C P → Except String (List (Woven C) × Bool)
  | .placeHolder p => do
    let o ← outcome p
    return (o.shown, o.resolved)
  | .stmt c blocks => do
    let inner ← expandBlocks outcome blocks
    return ([.stmt c inner.1], inner.2)
  | .cast => .ok ([], true)

/-- The statements of a block. -/
def expandBlock (outcome : P → Except String (Outcome C)) :
    List (Code C P) → Except String (List (Woven C) × Bool)
  | [] => .ok ([], true)
  | s :: stmts => do
    let first ← expandStmt outcome s
    let rest ← expandBlock outcome stmts
    return (first.1 ++ rest.1, first.2 && rest.2)

/-- The blocks of a statement. -/
def expandBlocks (outcome : P → Except String (Outcome C)) :
    List (List (Code C P)) → Except String (List (List (Woven C)) × Bool)
  | [] => .ok ([], true)
  | block :: blocks => do
    let first ← expandBlock outcome block
    let rest ← expandBlocks outcome blocks
    return (first.1 :: rest.1, first.2 && rest.2)

end

/-- The placeholders of a body. -/
def holes (body : List (Code C P)) : List P := (compileBlock [] 0 body).map Site.placeHolder

/-! ## One placeholder -/

theorem insertedEntries_append {ι : Type} (phName : String) (ys : List ι) :
    ∀ (phIdx : Nat) (xs : List ι), insertedEntries phName phIdx (xs ++ ys) =
      insertedEntries phName phIdx xs ++ insertedEntries phName (phIdx + xs.length) ys
  | _, [] => rfl
  | phIdx, x :: xs => by
    rw [List.cons_append, insertedEntries, insertedEntries_append phName ys (phIdx + 1) xs, insertedEntries,
      List.length_cons, Nat.add_right_comm phIdx 1 xs.length]
    rfl

/-- The entries of inserted statements. -/
def copies (stmts : List (Woven C)) : List (Stmt (Entry C)) := stmts.map fun t => .code (.copied t)

@[simp] theorem length_copies (stmts : List (Woven C)) : (copies stmts).length = stmts.length := List.length_map _

theorem copies_append (stmts stmts' : List (Woven C)) : copies (stmts ++ stmts') = copies stmts ++ copies stmts' :=
  List.map_append

theorem map_code_copied (stmts : List (Woven C)) : (stmts.map Entry.copied).map Stmt.code = copies stmts :=
  List.map_map

/-- The block in which statements have taken the place of the entry between two parts. -/
def replacedBy (b : Block (Stmt (Entry C))) (l r : List (String × Stmt (Entry C))) (phName : String)
    (stmts : List (Woven C)) : Block (Stmt (Entry C)) :=
  ⟨l ++ insertedEntries phName 0 (copies stmts) ++ r, some (b.shift - 1 + stmts.length)⟩

/-- The block an outcome leaves. -/
def Outcome.applied (o : Outcome C) (b : Block (Stmt (Entry C))) (l r : List (String × Stmt (Entry C)))
    (phName : String) : Block (Stmt (Entry C)) :=
  match o.stmts with
  | none => b
  | some stmts => replacedBy b l r phName stmts

/-- The first part of the keys of the statements inserted for a placeholder. -/
def PlaceHolder.phName (blockIdx : Nat) : PlaceHolder C A → String
  | pointcut _ => toString blockIdx
  | sequenceCall _ => "_" ++ toString blockIdx
  | methodCall theCall => theCall.refPlaceholder

namespace Weaver

variable {w : Weaver C A D V} {inst : Instance C A D V} {vals : V}

/-- The loop over chunks inserts what they amount to where it stands. -/
theorem injectChunks_eq (parameters : A) (phName : String) (r : List (String × Stmt (Entry C))) :
    ∀ (chunks : List CachedChunk) (l : List (String × Stmt (Entry C))) (modifier : Int) (phIdx errcount : Nat),
      (w.generation inst).injectChunks vals parameters phName chunks
          (Cursor.between l r (some modifier) phIdx) errcount =
        w.chunksOutcome inst vals parameters chunks >>= fun woven =>
          .ok (⟨l ++ insertedEntries phName phIdx (copies woven.1) ++ r, some (modifier + woven.1.length)⟩,
            errcount == 0 && woven.2) := by
  intro chunks
  induction chunks with
  | nil =>
    intro l modifier phIdx errcount
    simp [Generation.injectChunks, chunksOutcome, Cursor.between, insertedEntries, copies, bind, Except.bind]
  | cons chunk chunks ih =>
    intro l modifier phIdx errcount
    rw [Generation.injectChunks, chunksOutcome]
    cases hload : w.loadItem chunk with
    | error e =>
      simp only [generation, hload]
      rfl
    | ok tree =>
      cases hvals : w.buildParameterResVals vals parameters tree.parameters with
      | error e =>
        simp only [generation, hload, bind, Except.bind, hvals]
      | ok built =>
        obtain ⟨resVals, fits⟩ := built
        cases fits with
        | false =>
          simp [generation, hload, bind, Except.bind, hvals, Cursor.between, insertedEntries, copies, pure,
            Except.pure]
        | true =>
          cases hinst : inst resVals tree with
          | error e => simp only [generation, hload, bind, Except.bind, hvals, hinst]
          | ok instantiated =>
            obtain ⟨stmts, done⟩ := instantiated
            cases done with
            | false =>
              have hrest := ih l modifier phIdx (errcount + 1)
              simp only [generation, hload, bind, Except.bind, hvals, hinst, pure, Except.pure] at hrest ⊢
              rw [hrest]
              cases w.chunksOutcome inst vals parameters chunks with
              | error e => rfl
              | ok woven => simp
            | true =>
              have hinsert := insertCode_between phName l r (some modifier) phIdx (copies stmts)
              have hrest := ih (l ++ insertedEntries phName phIdx (copies stmts))
                (modifier + stmts.length) (phIdx + stmts.length) errcount
              rw [length_copies] at hinsert
              simp only [generation, hload, bind, Except.bind, hvals, hinst, pure, Except.pure, map_code_copied,
                hinsert, Option.map_some] at hrest ⊢
              rw [hrest]
              cases w.chunksOutcome inst vals parameters chunks with
              | error e => rfl
              | ok woven =>
                simp only [copies_append, insertedEntries_append, length_copies, List.append_assoc, List.length_append]
                push_cast
                rw [Int.add_assoc]

/-- A pointcut without a compatible chunk that has a default body. -/
def FallsBack (w : Weaver C A D V) : PlaceHolder C A → Prop
  | .pointcut p => p.default.isSome = true ∧
      selectCompatibleChunks (findChunks w.session p.rtype.rtxRTypeFullQualifiedName) w.config = .ok []
  | .sequenceCall _ => False
  | .methodCall _ => False

section Inject

variable {b : Block (Stmt (Entry C))} {n : Nat} {l r : List (String × Stmt (Entry C))}
  {x : String × Stmt (Entry C)}

/-- The placeholder is removed where the modifier says. -/
theorem insertModifier_between (hentries : b.entries = l ++ x :: r) (hlen : (l.length : Int) = n + b.shift) :
    insertModifier b n = .ok (⟨l ++ r, some (b.shift - 1)⟩, (l.length : Int)) :=
  insertModifier_eq_ok_iff.2 ⟨hlen, l, x, r, hentries, rfl, rfl⟩

theorem injectInstance_resolved (phName : String) (stmts : List (Woven C)) (hentries : b.entries = l ++ x :: r)
    (hlen : (l.length : Int) = n + b.shift) :
    injectInstance phName b n (stmts, true) = .ok (replacedBy b l r phName stmts, true) := by
  have hinsert := insertCode_between phName l r (some (b.shift - 1)) 0 (copies stmts)
  rw [injectInstance, insertModifier_between hentries hlen]
  show (insertCode (Cursor.between l r (some (b.shift - 1)) 0) phName (copies stmts) >>= _) = _
  rw [hinsert]
  simp [bind, Except.bind, pure, Except.pure, Cursor.between, replacedBy, copies]

theorem injectCall_eq (phName : String) (hentries : b.entries = l ++ x :: r)
    (hlen : (l.length : Int) = n + b.shift) (asked : Option (V × ChunkTree C A D)) :
    injectCall inst phName b n asked =
      callOutcome inst asked >>= fun o => .ok (o.applied b l r phName, o.resolved) := by
  cases asked with
  | none => rfl
  | some asked =>
    obtain ⟨resVals, tree⟩ := asked
    rw [injectCall, callOutcome]
    cases inst resVals tree with
    | error e => rfl
    | ok instantiated =>
      obtain ⟨stmts, done⟩ := instantiated
      cases done with
      | false => rfl
      | true => exact injectInstance_resolved phName stmts hentries hlen

/-- An injection does to the block what the outcome of the placeholder says. -/
theorem inject_eq {p : PlaceHolder C A} (hdefault : ¬ w.FallsBack p) (hentries : b.entries = l ++ x :: r)
    (hlen : (l.length : Int) = n + b.shift) :
    w.inject inst vals b n p =
      w.outcome inst vals p >>= fun o => .ok (o.applied b l r (p.phName n), o.resolved) := by
  cases p with
  | sequenceCall theCall =>
    rw [inject, outcome]
    cases w.sequenceInstance vals theCall with
    | error e => rfl
    | ok asked => exact injectCall_eq _ hentries hlen asked
  | methodCall theCall =>
    rw [inject, outcome]
    cases w.methodInstance vals theCall with
    | error e => rfl
    | ok asked => exact injectCall_eq _ hentries hlen asked
  | pointcut p =>
    have hremove := insertModifier_between hentries hlen
    rw [inject, outcome, Generation.injectPointcut]
    show (selectCompatibleChunks (findChunks w.session p.rtype.rtxRTypeFullQualifiedName) w.config >>= _) = _
    cases hselect : selectCompatibleChunks (findChunks w.session p.rtype.rtxRTypeFullQualifiedName) w.config with
    | error e => rfl
    | ok chunks =>
      cases chunks with
      | nil =>
        -- nothing takes its place: a default body is ruled out
        have hnone : p.default = none := by
          cases hbody : p.default with
          | none => rfl
          | some body => exact absurd ⟨by rw [hbody]; rfl, hselect⟩ hdefault
        show (w.generation inst).injectDefault b n (entryPointcut p) = _
        rw [Generation.injectDefault]
        simp only [entryPointcut, hnone, Option.map_none, hremove]
        simp [bind, Except.bind, pure, Except.pure, Outcome.applied, replacedBy, copies, insertedEntries]
      | cons chunk chunks =>
        show ((insertModifier b n) >>= _) = _
        rw [hremove]
        show (w.generation inst).injectChunks vals p.parameters (toString n) (chunk :: chunks)
          (Cursor.between l r (some (b.shift - 1)) 0) 0 = _
        rw [injectChunks_eq]
        show _ = (w.chunksOutcome inst vals p.parameters (chunk :: chunks) >>= _) >>= _
        cases w.chunksOutcome inst vals p.parameters (chunk :: chunks) with
        | error e => rfl
        | ok woven =>
          obtain ⟨stmts, done⟩ := woven
          rfl

end Inject

end Weaver

/-! ## One block -/

/-- The entries that a parsed statement becomes. -/
def Source.result (out : P → Outcome C) : Source (Entry C) P → List (Stmt (Entry C))
  | code e => [.code e]
  | placeHolder p =>
    match (out p).stmts with
    | none => [.hole]
    | some stmts => copies stmts

/-- What is left to be done in a block, and what it leads to. -/
structure Progress (out : P → Outcome C) (b : Block (Stmt (Entry C))) (ops : List (Nat × P))
    (final : List (Stmt (Entry C))) : Prop where
  aligned : ∃ done n rest, Aligned b done n rest ∧ ops = Source.compile n rest ∧
    final = done.map Prod.snd ++ rest.flatMap (Source.result out)

theorem Aligned.passAll {b : Block (Stmt (Entry C))} {rest : List (Source (Entry C) P)} :
    ∀ {front : List (Source (Entry C) P)} {done : List (String × Stmt (Entry C))} {n : Nat},
      Aligned b done n (front ++ rest) →
        Aligned b (done ++ Block.positioned n (front.map Source.stmt)) (n + front.length) rest
  | [], done, n, h => by simpa [Block.positioned] using h
  | s :: front, done, n, h => by
    have hrest := Aligned.passAll (Aligned.pass h)
    rw [List.append_assoc, Nat.add_right_comm] at hrest
    exact hrest

/-- The placeholder a block comes to next stands behind statements of code. -/
theorem compile_eq_cons {i : Nat} {p : P} {ops : List (Nat × P)} :
    ∀ {rest : List (Source (Entry C) P)} {n : Nat}, Source.compile n rest = (i, p) :: ops →
      ∃ front after, rest = front ++ .placeHolder p :: after ∧ i = n + front.length ∧
        ops = Source.compile (i + 1) after ∧ ∃ es : List (Entry C), front = es.map Source.code
  | .code e :: rest, n, h => by
    have hrest : Source.compile (n + 1) rest = (i, p) :: ops := h
    obtain ⟨front, after, rfl, rfl, rfl, es, rfl⟩ := compile_eq_cons hrest
    refine ⟨.code e :: es.map Source.code, after, rfl, ?_, ?_, e :: es, rfl⟩
    · simp only [List.length_cons]
      omega
    · rfl
  | .placeHolder p' :: rest, n, h => by
    obtain ⟨hhead, rfl⟩ := List.cons.inj h
    obtain ⟨rfl, rfl⟩ := Prod.mk.inj hhead
    exact ⟨[], rest, rfl, rfl, rfl, [], rfl⟩

theorem compile_eq_nil {rest : List (Source (Entry C) P)} :
    ∀ {n : Nat}, Source.compile n rest = [] → ∃ es : List (Entry C), rest = es.map Source.code := by
  induction rest with
  | nil => exact fun _ => ⟨[], rfl⟩
  | cons s rest ih =>
    intro n h
    cases s with
    | code e =>
      obtain ⟨es, rfl⟩ := ih h
      exact ⟨e :: es, rfl⟩
    | placeHolder p => cases h

theorem flatMap_result_code (out : P → Outcome C) (es : List (Entry C)) :
    (es.map Source.code).flatMap (Source.result out) = (es.map Source.code).map (Source.stmt (P := P)) := by
  induction es with
  | nil => rfl
  | cons e es ih =>
    rw [List.map_cons, List.flatMap_cons, ih]
    rfl

namespace Progress

variable {out : P → Outcome C} {b : Block (Stmt (Entry C))} {ops : List (Nat × P)}
  {final : List (Stmt (Entry C))}

/-- Nothing is left to be done. -/
theorem stmts_eq (h : Progress out b [] final) : b.stmts = final := by
  obtain ⟨done, n, rest, ha, hops, rfl⟩ := h.aligned
  obtain ⟨es, rfl⟩ := compile_eq_nil hops.symm
  rw [Block.stmts, ha.entries_eq, List.map_append, Block.stmts_positioned, flatMap_result_code]

/-- The next placeholder stands between what is done and the rest, and its outcome is one step ahead. -/
theorem next {n : Nat} {p : P} (h : Progress out b ((n, p) :: ops) final) :
    ∃ l x r, b.entries = l ++ x :: r ∧ (l.length : Int) = n + b.shift ∧
      ∀ phName, Progress out ((out p).applied b l r phName) ops final := by
  obtain ⟨done, m, rest, ha, hops, rfl⟩ := h.aligned
  obtain ⟨front, after, rfl, rfl, rfl, es, rfl⟩ := compile_eq_cons hops.symm
  have ha' := ha.passAll
  have hentries := ha'.entries_eq
  rw [List.map_cons, Block.positioned] at hentries
  refine ⟨_, _, _, hentries, ha'.length_eq, ?_⟩
  intro phName
  have hdone : (done ++ Block.positioned m ((es.map Source.code).map (Source.stmt (P := P)))).map Prod.snd =
      done.map Prod.snd ++ (es.map Source.code).flatMap (Source.result out) := by
    rw [List.map_append, Block.stmts_positioned, flatMap_result_code]
  cases hstmts : (out p).stmts with
  | none =>
    rw [Outcome.applied, hstmts]
    refine ⟨_, _, _, ha'.pass, rfl, ?_⟩
    rw [List.map_append, hdone, List.flatMap_append, List.flatMap_cons, List.append_assoc, List.append_assoc,
      Source.result, hstmts]
    rfl
  | some stmts =>
    rw [Outcome.applied, hstmts]
    refine ⟨_, _, after, ⟨rfl, ?_⟩, rfl, ?_⟩
    · have hlen := ha'.length_eq
      rw [List.length_append, length_insertedEntries, Int.natCast_add, hlen]
      simp only [replacedBy, Block.shift, Option.getD_some, copies, List.length_map]
      push_cast
      omega
    · rw [List.map_append, map_snd_insertedEntries, hdone, List.flatMap_append, List.flatMap_cons,
        List.append_assoc, List.append_assoc, Source.result, hstmts]

end Progress

/-! ## The block that is loaded -/

/-- The statements of a block as sources of its entries. -/
def sources (i : Nat) : List (Code C P) → List (Source (Entry C) P)
  | [] => []
  | .placeHolder p :: stmts => .placeHolder p :: sources (i + 1) stmts
  | .stmt _ _ :: stmts => .code (.kept i) :: sources (i + 1) stmts
  | .cast :: stmts => sources (i + 1) stmts

/-- The placeholders of a block with their positions. -/
def ownHoles (i : Nat) : List (Code C P) → List (Nat × P)
  | [] => []
  | .placeHolder p :: stmts => (i, p) :: ownHoles (i + 1) stmts
  | .stmt _ _ :: stmts => ownHoles (i + 1) stmts
  | .cast :: stmts => ownHoles (i + 1) stmts

/-- Whether a statement is a placeholder. -/
def Code.isPlaceHolder : Code C P → Bool
  | placeHolder _ => true
  | stmt _ _ => false
  | cast => false

mutual

/-- No placeholder in the blocks of the statement stands before a cast of its block. -/
def castsFirstWithin : Code C P → Bool
  | .stmt _ blocks => castsFirstBlocks blocks
  | .placeHolder _ => true
  | .cast => true

/-- The same for the statements of a block and for the block itself. -/
def castsFirst : List (Code C P) → Bool
  | [] => true
  | s :: stmts => (!s.isPlaceHolder || casts stmts == 0) && castsFirstWithin s && castsFirst stmts

/-- The same for the blocks of a statement. -/
def castsFirstBlocks : List (List (Code C P)) → Bool
  | [] => true
  | block :: blocks => castsFirst block && castsFirstBlocks blocks

end

theorem castsFirst_cons {s : Code C P} {stmts : List (Code C P)} (h : castsFirst (s :: stmts) = true) :
    (s.isPlaceHolder = true → casts stmts = 0) ∧ castsFirstWithin s = true ∧ castsFirst stmts = true := by
  rw [castsFirst, Bool.and_eq_true, Bool.and_eq_true] at h
  refine ⟨fun hs => ?_, h.1.2, h.2⟩
  have hhead := h.1.1
  rw [hs] at hhead
  exact beq_iff_eq.1 hhead

/-- Without casts the entries stand at their positions. -/
theorem loaded_of_no_casts : ∀ (stmts : List (Code C P)) (i : Nat), casts stmts = 0 →
    (loadedEntries i stmts : List (String × Stmt (Entry C))) = Block.positioned i ((sources i stmts).map Source.stmt) ∧
      ownHoles i stmts = Source.compile i (sources (C := C) i stmts)
  | [], _, _ => ⟨rfl, rfl⟩
  | .placeHolder p :: stmts, i, h => by
    obtain ⟨hentries, hholes⟩ := loaded_of_no_casts stmts (i + 1) h
    rw [loadedEntries, hentries, ownHoles, hholes]
    exact ⟨rfl, rfl⟩
  | .stmt c blocks :: stmts, i, h => by
    obtain ⟨hentries, hholes⟩ := loaded_of_no_casts stmts (i + 1) h
    rw [loadedEntries, hentries, ownHoles, hholes]
    exact ⟨rfl, rfl⟩
  | .cast :: stmts, _, h => absurd h (Nat.succ_ne_zero _)

/-- Up to the last cast there is only code, and behind it the entries are as many places ahead of their positions as
there are casts. -/
theorem loaded_of_castsFirst (out : P → Outcome C) : ∀ (stmts : List (Code C P)) (i : Nat), castsFirst stmts = true →
    ∃ done n rest, loadedEntries i stmts = done ++ Block.positioned n (rest.map Source.stmt) ∧
      (done.length : Int) = n - i - casts stmts ∧ ownHoles i stmts = Source.compile n rest ∧
      (sources i stmts).flatMap (Source.result out) = done.map Prod.snd ++ rest.flatMap (Source.result out)
  | [], i, _ => ⟨[], i, [], rfl, by simp [casts], rfl, rfl⟩
  | .placeHolder p :: stmts, i, h => by
    have hcasts : casts (.placeHolder p :: stmts) = 0 := (castsFirst_cons h).1 rfl
    obtain ⟨hentries, hholes⟩ := loaded_of_no_casts (.placeHolder p :: stmts) i hcasts
    exact ⟨[], i, sources i (.placeHolder p :: stmts), hentries, by simp [hcasts], hholes, rfl⟩
  | .stmt c blocks :: stmts, i, h => by
    obtain ⟨done, n, rest, hentries, hlen, hholes, hresult⟩ :=
      loaded_of_castsFirst out stmts (i + 1) (castsFirst_cons h).2.2
    refine ⟨(toString i, .code (.kept i)) :: done, n, rest, ?_, ?_, hholes, ?_⟩
    · rw [loadedEntries, hentries, List.cons_append]
    · rw [List.length_cons, casts]
      push_cast at hlen ⊢
      omega
    · rw [sources, List.flatMap_cons, hresult, List.map_cons, List.cons_append]
      rfl
  | .cast :: stmts, i, h => by
    obtain ⟨done, n, rest, hentries, hlen, hholes, hresult⟩ :=
      loaded_of_castsFirst out stmts (i + 1) (castsFirst_cons h).2.2
    refine ⟨done, n, rest, hentries, ?_, hholes, hresult⟩
    rw [casts]
    push_cast at hlen ⊢
    omega

theorem shift_loadedBlock (stmts : List (Code C P)) : (loadedBlock stmts).shift = -(casts stmts : Int) := by
  rw [loadedBlock, Block.shift]
  split
  · rename_i h
    simp [h]
  · rfl

theorem Progress.loaded (out : P → Outcome C) {stmts : List (Code C P)} (h : castsFirst stmts = true) :
    Progress out (loadedBlock stmts) (ownHoles 0 stmts) ((sources 0 stmts).flatMap (Source.result out)) := by
  obtain ⟨done, n, rest, hentries, hlen, hholes, hresult⟩ := loaded_of_castsFirst out stmts 0 h
  refine ⟨done, n, rest, ⟨hentries, ?_⟩, hholes, hresult⟩
  rw [shift_loadedBlock]
  push_cast at hlen
  omega

/-! ## All blocks -/

/-- The placeholders of one block in a list of them, in its order. -/
def own (path : BlockPath) : List (Site P) → List (Nat × P)
  | [] => []
  | site :: sites =>
    if site.path = path then (site.blockIdx, site.placeHolder) :: own path sites else own path sites

theorem own_append (path : BlockPath) : ∀ sites sites' : List (Site P),
    own path (sites ++ sites') = own path sites ++ own path sites'
  | [], _ => rfl
  | site :: sites, sites' => by
    rw [List.cons_append, own, own, own_append path sites sites']
    split
    · rfl
    · rfl

theorem own_eq_nil {path : BlockPath} : ∀ {sites : List (Site P)},
    (∀ site ∈ sites, site.path ≠ path) → own path sites = []
  | [], _ => rfl
  | site :: sites, h => by
    obtain ⟨hsite, hsites⟩ := List.forall_mem_cons.1 h
    rw [own, if_neg hsite, own_eq_nil hsites]

/-! ## Other orders -/

namespace Weaver

variable {w : Weaver C A D V} {inst : Instance C A D V} {vals : V}

/-- What a script does to one block: the injections into it, one after the other, and whether all of them succeeded. -/
def runBlock (w : Weaver C A D V) (instanceChunk : Instance C A D V) (resolverValues : V) :
    List (Nat × PlaceHolder C A) → Block (Stmt (Entry C)) → Except String (Block (Stmt (Entry C)) × Bool)
  | [], b => .ok (b, true)
  | (blockIdx, p) :: ops, b => do
    let injected ← w.inject instanceChunk resolverValues b blockIdx p
    let rest ← w.runBlock instanceChunk resolverValues ops injected.1
    return (rest.1, injected.2 && rest.2)

/-- A run over all blocks is one run over each of them. It counts no error if none of these has one. -/
theorem runBlock_of_runScript : ∀ {sites : List (Site (PlaceHolder C A))} {store store' : Blocks C}
    {errcount count : Nat}, w.runScript inst vals sites store errcount = .ok (store', count) →
      ∃ done : BlockPath → Bool, (∀ path, w.runBlock inst vals (own path sites) (store path) =
          .ok (store' path, done path)) ∧
        (count = 0 ↔ errcount = 0 ∧ ∀ path, done path = true)
  | [], store, store', errcount, count, h => by
    obtain ⟨rfl, rfl⟩ := Prod.mk.inj (Except.ok.inj h)
    exact ⟨fun _ => true, fun _ => rfl, by simp⟩
  | site :: sites, store, store', errcount, count, h => by
    obtain ⟨injected, hinject, hrun⟩ := bind_eq_ok_iff.1 h
    obtain ⟨done, hblocks, hcount⟩ := runBlock_of_runScript hrun
    refine ⟨Function.update done site.path (injected.2 && done site.path), fun path => ?_, ?_⟩
    · have hblock := hblocks path
      by_cases hpath : site.path = path
      · subst hpath
        rw [Function.update_self] at hblock
        rw [own, if_pos rfl, runBlock, hinject, Function.update_self]
        show (w.runBlock inst vals (own site.path sites) injected.1 >>= _) = _
        rw [hblock]
        rfl
      · rw [Function.update_of_ne (Ne.symm hpath)] at hblock
        rw [own, if_neg hpath, Function.update_of_ne (Ne.symm hpath), hblock]
    · rw [hcount]
      cases injected.2 with
      | true => rw [Bool.true_and, Function.update_eq_self, if_pos rfl]
      | false =>
        -- the block of the placeholder has an error, and the count does not go down
        refine ⟨fun h => absurd h.1 (Nat.succ_ne_zero errcount), fun h => ?_⟩
        have hsite := h.2 site.path
        rw [Function.update_self] at hsite
        cases hsite

/-- Where the run over each block ends without an error of the program, so does the run over all of them. -/
theorem runScript_of_runBlock : ∀ {sites : List (Site (PlaceHolder C A))} {store : Blocks C} {errcount : Nat},
    (∀ path, ∃ r, w.runBlock inst vals (own path sites) (store path) = .ok r) →
      ∃ r, w.runScript inst vals sites store errcount = .ok r
  | [], store, errcount, _ => ⟨(store, errcount), rfl⟩
  | site :: sites, store, errcount, h => by
    obtain ⟨r, hr⟩ := h site.path
    rw [own, if_pos rfl] at hr
    obtain ⟨injected, hinject, hr⟩ := bind_eq_ok_iff.1 hr
    obtain ⟨rest, hrest, -⟩ := bind_eq_ok_iff.1 hr
    rw [runScript, hinject]
    refine runScript_of_runBlock fun path => ?_
    by_cases hpath : site.path = path
    · subst hpath
      rw [Function.update_self]
      exact ⟨rest, hrest⟩
    · obtain ⟨r, hr⟩ := h path
      rw [own, if_neg hpath] at hr
      rw [Function.update_of_ne (Ne.symm hpath)]
      exact ⟨r, hr⟩

/-- One direction for two scripts: what the first returns, the second returns. -/
theorem resolveBody_ok_of_own_eq {body : List (Code C (PlaceHolder C A))} {sites sites' : List (Site (PlaceHolder C A))}
    (hown : ∀ path, own path sites = own path sites') {result : List (Woven C) × Bool}
    (h : w.resolveBody inst vals sites body = .ok result) : w.resolveBody inst vals sites' body = .ok result := by
  obtain ⟨⟨store, count⟩, hrun, h⟩ := bind_eq_ok_iff.1 h
  obtain ⟨done, hblocks, hcount⟩ := runBlock_of_runScript hrun
  have hblocks' : ∀ path, ∃ r, w.runBlock inst vals (own path sites') (Blocks.loaded body path) = .ok r := by
    intro path
    rw [← hown path]
    exact ⟨_, hblocks path⟩
  have hruns : ∃ r, w.runScript inst vals sites' (Blocks.loaded body) 0 = .ok r := runScript_of_runBlock hblocks'
  obtain ⟨⟨store', count'⟩, hrun'⟩ := hruns
  obtain ⟨done', hdone, hcount'⟩ := runBlock_of_runScript hrun'
  have hsame : ∀ path, store' path = store path ∧ done' path = done path := by
    intro path
    have := hdone path
    rw [← hown path, hblocks path] at this
    exact ⟨(congrArg Prod.fst (Except.ok.inj this)).symm, (congrArg Prod.snd (Except.ok.inj this)).symm⟩
  have hstore : store' = store := funext fun path => (hsame path).1
  have hzero : (count' == 0) = (count == 0) := by
    rw [Bool.eq_iff_iff, beq_iff_eq, beq_iff_eq, hcount, hcount']
    simp only [fun path => (hsame path).2]
  rw [resolveBody, hrun']
  show Except.ok (store'.read [] body, count' == 0) = _
  rw [hstore, hzero]
  exact h

end Weaver

/-! ## All blocks in the order of the text -/

/-- The error of a placeholder, if it has one. -/
def failure (outcome : P → Except String (Outcome C)) (p : P) : Option String :=
  match outcome p with
  | .error e => some e
  | .ok _ => none

/-- The outcome of a placeholder that raises no error. -/
def settled (outcome : P → Except String (Outcome C)) (p : P) : Outcome C :=
  match outcome p with
  | .error _ => Outcome.failed
  | .ok o => o

theorem failure_eq_some {outcome : P → Except String (Outcome C)} {p : P} {e : String} :
    failure outcome p = some e ↔ outcome p = .error e := by
  unfold failure
  cases outcome p with
  | error e' => simp
  | ok o => simp

theorem failure_eq_none {outcome : P → Except String (Outcome C)} {p : P} :
    failure outcome p = none ↔ outcome p = .ok (settled outcome p) := by
  unfold failure settled
  cases outcome p with
  | error e => simp
  | ok o => simp

/-- **A run over all blocks.** Each block has its part of the run to go through, whatever is done to the others in
between. The run ends with the error of the first placeholder that has one; if none has, each block becomes what its
part leads to, and the errors counted are the placeholders not resolved. -/
theorem Weaver.runScript_cases {w : Weaver C A D V} {inst : Instance C A D V} {vals : V}
    {final : BlockPath → List (Stmt (Entry C))} :
    ∀ {sites : List (Site (PlaceHolder C A))} {store : Blocks C} {errcount : Nat},
      (∀ site ∈ sites, ¬ w.FallsBack site.placeHolder) →
      (∀ path, Progress (settled (w.outcome inst vals)) (store path) (own path sites) (final path)) →
        (∃ e, (sites.map Site.placeHolder).findSome? (failure (w.outcome inst vals)) = some e ∧
          w.runScript inst vals sites store errcount = .error e) ∨
        ((sites.map Site.placeHolder).findSome? (failure (w.outcome inst vals)) = none ∧
          ∃ store' count, w.runScript inst vals sites store errcount = .ok (store', count) ∧
            (∀ path, (store' path).stmts = final path) ∧
            (count = 0 ↔ errcount = 0 ∧
              ∀ site ∈ sites, (settled (w.outcome inst vals) site.placeHolder).resolved = true)) := by
  intro sites
  induction sites with
  | nil =>
    intro store errcount _ hprogress
    exact .inr ⟨rfl, store, errcount, rfl, fun path => (hprogress path).stmts_eq, by simp⟩
  | cons site sites ih =>
    intro store errcount hdefault hprogress
    obtain ⟨hsite, hsites⟩ := List.forall_mem_cons.1 hdefault
    have hown := hprogress site.path
    rw [own, if_pos rfl] at hown
    obtain ⟨l, x, r, hentries, hlen, hnext⟩ := hown.next
    have hinject : w.inject inst vals (store site.path) site.blockIdx site.placeHolder =
        w.outcome inst vals site.placeHolder >>= fun o =>
          .ok (o.applied (store site.path) l r (site.placeHolder.phName site.blockIdx), o.resolved) :=
      Weaver.inject_eq hsite hentries hlen
    rw [List.map_cons, List.findSome?_cons, Weaver.runScript, hinject]
    cases hfailure : failure (w.outcome inst vals) site.placeHolder with
    | some e =>
      refine .inl ⟨e, rfl, ?_⟩
      rw [failure_eq_some.1 hfailure]
      rfl
    | none =>
      have houtcome := failure_eq_none.1 hfailure
      rw [houtcome]
      -- the block of the placeholder is one step ahead, the others are where they were
      have hprogress' : ∀ path, Progress (settled (w.outcome inst vals))
          (Function.update store site.path ((settled (w.outcome inst vals) site.placeHolder).applied
            (store site.path) l r (site.placeHolder.phName site.blockIdx)) path) (own path sites) (final path) := by
        intro path
        by_cases hpath : path = site.path
        · subst hpath
          rw [Function.update_self]
          exact hnext _
        · have hold := hprogress path
          rw [own, if_neg (Ne.symm hpath)] at hold
          rw [Function.update_of_ne hpath]
          exact hold
      rcases @ih _ (if (settled (w.outcome inst vals) site.placeHolder).resolved then errcount else errcount + 1)
        hsites hprogress' with ⟨e, he, hrun⟩ | ⟨hnone, store', count, hrun, hstmts, hcount⟩
      · exact .inl ⟨e, he, hrun⟩
      · refine .inr ⟨hnone, store', count, hrun, hstmts, ?_⟩
        rw [hcount, List.forall_mem_cons]
        cases (settled (w.outcome inst vals) site.placeHolder).resolved with
        | true => simp
        | false => simp

/-! ## The blocks of a body -/

mutual

/-- The placeholders of a statement are in its block or in one within it. -/
theorem suffix_of_mem_compileStmt (path : BlockPath) (i : Nat) :
    ∀ (s : Code C P), ∀ site ∈ compileStmt path i s, path <:+ site.path
  | .placeHolder p, site, h => by
    rw [compileStmt, List.mem_singleton] at h
    subst h
    exact List.suffix_refl path
  | .stmt c blocks, site, h => by
    rw [compileStmt] at h
    obtain ⟨k, hsuffix⟩ := suffix_of_mem_compileBlocks path i blocks 0 site h
    exact (List.suffix_cons _ _).trans hsuffix
  | .cast, site, h => absurd h List.not_mem_nil

theorem suffix_of_mem_compileBlock (path : BlockPath) :
    ∀ (stmts : List (Code C P)) (i : Nat), ∀ site ∈ compileBlock path i stmts, path <:+ site.path
  | [], _, site, h => absurd h (List.not_mem_nil)
  | s :: stmts, i, site, h => by
    rw [compileBlock] at h
    rcases List.mem_append.1 h with h | h
    · exact suffix_of_mem_compileStmt path i s site h
    · exact suffix_of_mem_compileBlock path stmts (i + 1) site h

/-- Those of the blocks of a statement are in one of the blocks. -/
theorem suffix_of_mem_compileBlocks (path : BlockPath) (i : Nat) :
    ∀ (blocks : List (List (Code C P))) (k : Nat), ∀ site ∈ compileBlocks path i k blocks,
      ∃ k', ((i, k') :: path) <:+ site.path
  | [], _, site, h => absurd h (List.not_mem_nil)
  | block :: blocks, k, site, h => by
    rw [compileBlocks] at h
    rcases List.mem_append.1 h with h | h
    · exact ⟨k, suffix_of_mem_compileBlock ((i, k) :: path) block 0 site h⟩
    · exact suffix_of_mem_compileBlocks path i blocks (k + 1) site h

end

/-- Two blocks side by side have no block in common. -/
theorem eq_of_suffix {a b : Nat × Nat} {u path : BlockPath} (h : (a :: path) <:+ (u ++ b :: path)) : a = b := by
  obtain ⟨v, hv⟩ := h
  obtain ⟨-, htail⟩ := List.append_inj' hv rfl
  exact (List.cons.inj htail).1

/-- The placeholders of one block of a statement. -/
theorem own_compileBlocks (u path : BlockPath) (i j m : Nat) :
    ∀ (blocks : List (List (Code C P))) (k : Nat),
      own (u ++ (j, m) :: path) (compileBlocks path i k blocks) =
        if j = i ∧ k ≤ m then
          own (u ++ (j, m) :: path) (compileBlock ((j, m) :: path) 0 (blocks[m - k]?.getD []))
        else []
  | [], k => by simp [compileBlocks, own, compileBlock]
  | block :: blocks, k => by
    rw [compileBlocks, own_append, own_compileBlocks u path i j m blocks (k + 1)]
    by_cases hblock : j = i ∧ m = k
    · obtain ⟨rfl, rfl⟩ := hblock
      have hlater : ¬ (j = j ∧ m + 1 ≤ m) := by omega
      rw [if_neg hlater, if_pos ⟨rfl, Nat.le_refl m⟩, Nat.sub_self, List.append_nil]
      rfl
    · have hnone : own (u ++ (j, m) :: path) (compileBlock ((i, k) :: path) 0 block) = [] := by
        apply own_eq_nil
        intro site hsite hpath
        have hsuffix := suffix_of_mem_compileBlock _ _ _ _ hsite
        rw [hpath] at hsuffix
        obtain ⟨rfl, rfl⟩ := Prod.mk.inj (eq_of_suffix hsuffix)
        exact hblock ⟨rfl, rfl⟩
      rw [hnone, List.nil_append]
      by_cases hlater : j = i ∧ k + 1 ≤ m
      · have hindex : m - k = m - (k + 1) + 1 := by omega
        rw [if_pos hlater, if_pos ⟨hlater.1, by omega⟩, hindex, List.getElem?_cons_succ]
      · have hbefore : ¬ (j = i ∧ k ≤ m) := by omega
        rw [if_neg hlater, if_neg hbefore]

/-- The block of a statement that a step leads to. -/
def innerBlock (k : Nat) : Option (Code C P) → List (Code C P)
  | some (.stmt _ blocks) => blocks[k]?.getD []
  | some (.placeHolder _) => []
  | some .cast => []
  | none => []

theorem blockAt_cons (body : List (Code C P)) (i k : Nat) (path : BlockPath) :
    blockAt body ((i, k) :: path) = innerBlock k (blockAt body path)[i]? := by
  rw [blockAt]
  cases (blockAt body path)[i]? with
  | none => rfl
  | some s =>
    cases s with
    | stmt c blocks => rfl
    | placeHolder p => rfl
    | cast => rfl

theorem castsFirst_getElem? {blocks : List (List (Code C P))} (h : castsFirstBlocks blocks = true) (k : Nat) :
    castsFirst (blocks[k]?.getD []) = true := by
  induction blocks generalizing k with
  | nil => rfl
  | cons block blocks ih =>
    rw [castsFirstBlocks, Bool.and_eq_true] at h
    cases k with
    | zero => exact h.1
    | succ k => exact ih h.2 k

theorem castsFirst_innerBlock {stmts : List (Code C P)} (h : castsFirst stmts = true) (i k : Nat) :
    castsFirst (innerBlock k stmts[i]?) = true := by
  induction stmts generalizing i with
  | nil => rfl
  | cons s stmts ih =>
    obtain ⟨-, hwithin, hrest⟩ := castsFirst_cons h
    cases i with
    | succ i => exact ih hrest i
    | zero =>
      cases s with
      | stmt c blocks => exact castsFirst_getElem? hwithin k
      | placeHolder p => rfl
      | cast => rfl

/-- What holds of a body holds of each of its blocks. -/
theorem castsFirst_blockAt {body : List (Code C P)} (h : castsFirst body = true) :
    ∀ path, castsFirst (blockAt body path) = true
  | [] => h
  | (i, k) :: path => by
    rw [blockAt_cons]
    exact castsFirst_innerBlock (castsFirst_blockAt h path) i k

/-- The placeholders of a block within a statement. -/
theorem own_compileStmt (u path : BlockPath) (i j m : Nat) (s : Code C P) :
    own (u ++ (j, m) :: path) (compileStmt path i s) =
      if j = i then own (u ++ (j, m) :: path) (compileBlock ((j, m) :: path) 0 (innerBlock m (some s))) else [] := by
  cases s with
  | placeHolder p =>
    have hne : path ≠ u ++ (j, m) :: path := by
      intro h
      have := congrArg List.length h
      simp only [List.length_append, List.length_cons] at this
      omega
    rw [compileStmt, own, if_neg hne]
    simp [innerBlock, compileBlock, own]
  | stmt c blocks =>
    rw [compileStmt, own_compileBlocks]
    simp [innerBlock]
  | cast => simp [compileStmt, innerBlock, compileBlock, own]

/-- The placeholders of a block within a block. -/
theorem own_compileBlock_inner (u path : BlockPath) (j m : Nat) :
    ∀ (stmts : List (Code C P)) (i : Nat),
      own (u ++ (j, m) :: path) (compileBlock path i stmts) =
        if i ≤ j then
          own (u ++ (j, m) :: path) (compileBlock ((j, m) :: path) 0 (innerBlock m stmts[j - i]?))
        else []
  | [], i => by simp [compileBlock, own, innerBlock]
  | s :: stmts, i => by
    rw [compileBlock, own_append, own_compileStmt, own_compileBlock_inner u path j m stmts (i + 1)]
    -- the statement itself is the one asked for, or a later one is, or one before it
    rcases Nat.lt_trichotomy j i with hlt | rfl | hgt
    · rw [if_neg (by omega), if_neg (by omega), if_neg (by omega)]
      rfl
    · rw [if_pos rfl, if_neg (by omega), if_pos (Nat.le_refl _), Nat.sub_self, List.append_nil]
      rfl
    · have hindex : j - i = j - (i + 1) + 1 := by omega
      rw [if_neg (by omega), if_pos (by omega), if_pos (by omega), hindex, List.getElem?_cons_succ]
      rfl

/-- The placeholders of a block itself. -/
theorem own_compileBlock_self (path : BlockPath) :
    ∀ (stmts : List (Code C P)) (i : Nat),
      own path (compileBlock path i stmts) = ownHoles i stmts
  | [], _ => rfl
  | .placeHolder p :: stmts, i => by
    rw [compileBlock, own_append, own_compileBlock_self path stmts (i + 1), compileStmt, own, if_pos rfl]
    rfl
  | .stmt c blocks :: stmts, i => by
    have hinner : own path (compileBlocks path i 0 blocks) = [] := by
      apply own_eq_nil
      intro site hsite hpath
      obtain ⟨k', hsuffix⟩ := suffix_of_mem_compileBlocks path i blocks 0 site hsite
      have := hsuffix.length_le
      rw [hpath, List.length_cons] at this
      omega
    rw [compileBlock, own_append, compileStmt, hinner, own_compileBlock_self path stmts (i + 1)]
    rfl
  | .cast :: stmts, i => by
    rw [compileBlock, own_append, compileStmt, own_compileBlock_self path stmts (i + 1)]
    rfl

/-- The placeholders of a block of a body are compiled as if the block stood alone. -/
theorem own_compileBlock (body : List (Code C P)) (path : BlockPath) :
    own path (compileBlock [] 0 body) = ownHoles 0 (blockAt body path) := by
  have hlocal : ∀ (path u : BlockPath), own (u ++ path) (compileBlock [] 0 body) =
      own (u ++ path) (compileBlock path 0 (blockAt body path)) := by
    intro path
    induction path with
    | nil => exact fun u => rfl
    | cons step path ih =>
      intro u
      obtain ⟨j, m⟩ := step
      have hstep := ih (u ++ [(j, m)])
      rw [List.append_assoc, List.singleton_append] at hstep
      rw [hstep, own_compileBlock_inner, if_pos (Nat.zero_le j), blockAt_cons]
      rfl
  have h := hlocal path []
  rw [List.nil_append] at h
  rw [h, own_compileBlock_self]

/-! ## Reading the result -/

mutual

/-- What a statement becomes, in terms of the outcomes. -/
def wovenStmt (out : P → Outcome C) : Code C P → List (Woven C)
  | .placeHolder p => (out p).shown
  | .stmt c blocks => [.stmt c (wovenBlocks out blocks)]
  | .cast => []

/-- What a block becomes. -/
def wovenBlock (out : P → Outcome C) : List (Code C P) → List (Woven C)
  | [] => []
  | s :: stmts => wovenStmt out s ++ wovenBlock out stmts

/-- What the blocks of a statement become. -/
def wovenBlocks (out : P → Outcome C) : List (List (Code C P)) → List (List (Woven C))
  | [] => []
  | block :: blocks => wovenBlock out block :: wovenBlocks out blocks

end

/-- What the entries of a block show when the statements kept have become what they should. -/
theorem map_shown_result (out : P → Outcome C) (kept : List (Woven C)) :
    ∀ (stmts : List (Code C P)) (i : Nat),
      (∀ j c blocks, stmts[j]? = some (.stmt c blocks) → kept[i + j]? = some (.stmt c (wovenBlocks out blocks))) →
        ((sources i stmts).flatMap (Source.result out)).map (Stmt.shown kept) = wovenBlock out stmts
  | [], _, _ => rfl
  | s :: stmts, i, h => by
    have hrest : ∀ j c blocks, stmts[j]? = some (.stmt c blocks) →
        kept[i + 1 + j]? = some (.stmt c (wovenBlocks out blocks)) := by
      intro j c blocks hj
      rw [Nat.add_assoc, Nat.add_comm 1 j]
      exact h (j + 1) c blocks hj
    have ih := map_shown_result out kept stmts (i + 1) hrest
    cases s with
    | placeHolder p =>
      rw [sources, List.flatMap_cons, List.map_append, ih, wovenBlock, wovenStmt, Source.result, Outcome.shown]
      cases (out p).stmts with
      | none => rfl
      | some ts => simp [copies, Stmt.shown, Function.comp_def]
    | stmt c blocks =>
      have hkept := h 0 c blocks rfl
      rw [Nat.add_zero] at hkept
      rw [sources, List.flatMap_cons, List.map_append, ih, wovenBlock, wovenStmt]
      simp [Source.result, Stmt.shown, hkept]
    | cast => exact ih

section Read

variable {body : List (Code C P)} {store : Blocks C} {out : P → Outcome C}

mutual

theorem readStmt_eq
    (hstore : ∀ path, (store path).stmts = (sources 0 (blockAt body path)).flatMap (Source.result out))
    (path : BlockPath) (i : Nat) :
    ∀ (s : Code C P), (blockAt body path)[i]? = some s → ∀ c blocks, s = .stmt c blocks →
      store.readStmt path i s = .stmt c (wovenBlocks out blocks)
  | .placeHolder p, _, c, blocks, h => by cases h
  | .cast, _, c, blocks, h => by cases h
  | .stmt c' blocks', hs, c, blocks, h => by
    obtain ⟨rfl, rfl⟩ := Code.stmt.inj h
    rw [Blocks.readStmt, readBlocks_eq hstore path i c' blocks' hs blocks' 0 fun m => by rw [Nat.zero_add]]

theorem readStmts_eq
    (hstore : ∀ path, (store path).stmts = (sources 0 (blockAt body path)).flatMap (Source.result out))
    (path : BlockPath) :
    ∀ (stmts : List (Code C P)) (i : Nat), (∀ j, (blockAt body path)[i + j]? = stmts[j]?) →
      ∀ (j : Nat) (c : C) (blocks : List (List (Code C P))), stmts[j]? = some (.stmt c blocks) →
        (store.readStmts path i stmts)[j]? = some (.stmt c (wovenBlocks out blocks))
  | [], _, _, j, c, blocks, h => by cases h
  | s :: stmts, i, hbody, j, c, blocks, h => by
    have hrest : ∀ j, (blockAt body path)[i + 1 + j]? = stmts[j]? := by
      intro j
      rw [Nat.add_assoc, Nat.add_comm 1 j]
      exact hbody (j + 1)
    cases j with
    | zero =>
      rw [List.getElem?_cons_zero] at h
      have hread := readStmt_eq hstore path i s (hbody 0) c blocks (Option.some.inj h)
      rw [Blocks.readStmts, List.getElem?_cons_zero, hread]
    | succ j => exact readStmts_eq hstore path stmts (i + 1) hrest j c blocks h

theorem readBlocks_eq
    (hstore : ∀ path, (store path).stmts = (sources 0 (blockAt body path)).flatMap (Source.result out))
    (path : BlockPath) (i : Nat) (c : C) (all : List (List (Code C P)))
    (hall : (blockAt body path)[i]? = some (.stmt c all)) :
    ∀ (blocks : List (List (Code C P))) (k : Nat), (∀ m, all[k + m]? = blocks[m]?) →
      store.readBlocks path i k blocks = wovenBlocks out blocks
  | [], _, _ => rfl
  | block :: blocks, k, hblocks => by
    have hblock : blockAt body ((i, k) :: path) = block := by
      have hk := hblocks 0
      rw [Nat.add_zero, List.getElem?_cons_zero] at hk
      rw [blockAt_cons, hall, innerBlock, hk]
      rfl
    have hrest : ∀ m, all[k + 1 + m]? = blocks[m]? := by
      intro m
      rw [Nat.add_assoc, Nat.add_comm 1 m]
      exact hblocks (m + 1)
    have hkept := readStmts_eq hstore ((i, k) :: path) block 0 fun j => by rw [Nat.zero_add, hblock]
    rw [Blocks.readBlocks, hstore, hblock, wovenBlocks, readBlocks_eq hstore path i c all hall blocks (k + 1) hrest,
      map_shown_result out _ block 0 fun j c blocks hj => by rw [Nat.zero_add]; exact hkept j c blocks hj]

end

/-- Where each block has become what its statements amount to, the tree is the expanded body. -/
theorem read_eq
    (hstore : ∀ path, (store path).stmts = (sources 0 (blockAt body path)).flatMap (Source.result out)) :
    store.read [] body = wovenBlock out body := by
  have hkept := readStmts_eq hstore [] body 0 fun j => by rw [Nat.zero_add]; rfl
  rw [Blocks.read, hstore]
  exact map_shown_result out _ body 0 fun j c blocks hj => by rw [Nat.zero_add]; exact hkept j c blocks hj

end Read

/-! ## The expansion -/

/-- A result that stands when none of some placeholders raises an error, with whether all of them are resolved. -/
def settle {α : Type} (outcome : P → Except String (Outcome C)) (ps : List P) (r : α) : Except String (α × Bool) :=
  match ps.findSome? (failure outcome) with
  | some e => .error e
  | none => .ok (r, ps.all fun p => (settled outcome p).resolved)

theorem settle_append {α β γ : Type} (outcome : P → Except String (Outcome C)) (ps qs : List P) (f : α → β → γ)
    (r : α) (s : β) :
    settle outcome (ps ++ qs) (f r s) = (do
      let x ← settle outcome ps r
      let y ← settle outcome qs s
      return (f x.1 y.1, x.2 && y.2)) := by
  unfold settle
  rw [List.findSome?_append, List.all_append]
  cases ps.findSome? (failure outcome) with
  | some e => rfl
  | none =>
    cases qs.findSome? (failure outcome) with
    | some e => rfl
    | none => rfl

mutual

theorem expandStmt_eq (outcome : P → Except String (Outcome C)) (path : BlockPath) (i : Nat) :
    ∀ (s : Code C P), expandStmt outcome s =
      settle outcome ((compileStmt path i s).map Site.placeHolder) (wovenStmt (settled outcome) s)
  | .placeHolder p => by
    rw [expandStmt, compileStmt, wovenStmt, settle, List.map_singleton, List.findSome?_cons]
    unfold failure settled
    cases houtcome : outcome p with
    | error e => rfl
    | ok o => simp [bind, Except.bind, pure, Except.pure, houtcome]
  | .stmt c blocks => by
    rw [expandStmt, compileStmt, wovenStmt, expandBlocks_eq outcome path i blocks 0, settle, settle]
    cases ((compileBlocks path i 0 blocks).map Site.placeHolder).findSome? (failure outcome) with
    | some e => rfl
    | none => rfl
  | .cast => rfl

theorem expandBlock_eq (outcome : P → Except String (Outcome C)) (path : BlockPath) :
    ∀ (stmts : List (Code C P)) (i : Nat), expandBlock outcome stmts =
      settle outcome ((compileBlock path i stmts).map Site.placeHolder) (wovenBlock (settled outcome) stmts)
  | [], _ => rfl
  | s :: stmts, i => by
    rw [expandBlock, compileBlock, wovenBlock, List.map_append,
      settle_append outcome _ _ (· ++ ·), expandStmt_eq outcome path i s,
      expandBlock_eq outcome path stmts (i + 1)]

theorem expandBlocks_eq (outcome : P → Except String (Outcome C)) (path : BlockPath) (i : Nat) :
    ∀ (blocks : List (List (Code C P))) (k : Nat), expandBlocks outcome blocks =
      settle outcome ((compileBlocks path i k blocks).map Site.placeHolder) (wovenBlocks (settled outcome) blocks)
  | [], _ => rfl
  | block :: blocks, k => by
    rw [expandBlocks, compileBlocks, wovenBlocks, List.map_append,
      settle_append outcome _ _ (· :: ·), expandBlock_eq outcome ((i, k) :: path) block 0,
      expandBlocks_eq outcome path i blocks (k + 1)]

end

namespace Weaver

variable {w : Weaver C A D V} {inst : Instance C A D V} {vals : V} {body : List (Code C (PlaceHolder C A))}

/-- The script of a chunk whose blocks start out aligned ends with the first error it meets, or with the expanded
body. -/
theorem resolveBody_cases (hcasts : castsFirst body = true)
    (hdefault : ∀ site ∈ compileBlock [] 0 body, ¬ w.FallsBack site.placeHolder) :
    w.resolveBody inst vals (compileBlock [] 0 body) body =
      settle (w.outcome inst vals) (holes body) (wovenBlock (settled (w.outcome inst vals)) body) := by
  have hprogress : ∀ path, Progress (settled (w.outcome inst vals)) (Blocks.loaded body path)
      (own path (compileBlock [] 0 body))
      ((sources 0 (blockAt body path)).flatMap (Source.result (settled (w.outcome inst vals)))) := by
    intro path
    rw [own_compileBlock body path]
    exact Progress.loaded _ (castsFirst_blockAt hcasts path)
  rw [resolveBody, settle, holes]
  rcases runScript_cases hdefault hprogress with ⟨e, he, hrun⟩ | ⟨hnone, store, count, hrun, hstmts, hcount⟩
  · rw [hrun, he]
    rfl
  · rw [hrun, hnone]
    have hflag : (count == 0) = ((compileBlock [] 0 body).map Site.placeHolder).all
        fun p => (settled (w.outcome inst vals) p).resolved := by
      rw [Bool.eq_iff_iff, beq_iff_eq, hcount, List.all_eq_true, List.forall_mem_map]
      simp
    show Except.ok (store.read [] body, count == 0) = _
    rw [read_eq hstmts, hflag]

/-- **Weaving is expansion.** The script generated for a chunk, working with recorded positions and one modifier for
each block, gives the statements and the verdict of the expansion, or its error. -/
theorem resolveBody_eq_expandBlock (hcasts : castsFirst body = true)
    (hdefault : ∀ p ∈ holes body, ¬ w.FallsBack p) :
    w.resolveBody inst vals (compileBlock [] 0 body) body = expandBlock (w.outcome inst vals) body := by
  rw [expandBlock_eq (w.outcome inst vals) [] body 0]
  exact resolveBody_cases hcasts fun site hsite => hdefault _ (List.mem_map_of_mem hsite)

end Weaver

/-- A cache with one chunk, for the pointcut `LKM::init()`. -/
def initWeaver (body : List (Code String (PlaceHolder String Unit))) : Weaver String Unit Unit Unit where
  session := oneChunk ⟨"init", .refl true⟩
  config := Table.empty
  loadItem _ := .ok ⟨(), (), body⟩
  loadMethod _ := .error "no method"
  buildParameterResVals _ _ _ := .ok ((), true)
  buildSequenceResVals _ _ _ := .ok ((), true)
  appendSelf vals _ _ := vals
  lessEqual := textLessEqual

/-- The pointcut as a placeholder. -/
def initPlaceHolder : PlaceHolder String Unit := .pointcut (lkmPointcut ⟨"init", .refl true⟩ none)

theorem initPlaceHolder_not_fallsBack (w : Weaver String Unit Unit Unit) : ¬ w.FallsBack initPlaceHolder := by
  rintro ⟨hsome, -⟩
  cases hsome

/-- A cast, and the pointcut in a block and behind the statement with the block. -/
def nestedInit : List (Code String (PlaceHolder String Unit)) :=
  [.cast, .stmt "if" [[.placeHolder initPlaceHolder, .stmt "x" []]], .placeHolder initPlaceHolder]

theorem mem_holes_nestedInit {p : PlaceHolder String Unit} (h : p ∈ holes nestedInit) : p = initPlaceHolder := by
  have hlist : p ∈ [initPlaceHolder, initPlaceHolder] := h
  simpa using hlist

end Rathaxes.Resolve
