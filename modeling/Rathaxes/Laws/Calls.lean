import Rathaxes.Laws.Implementation

/-!
# What replacing the calls of a sequence does and reports

Three things can go wrong with a call: its chunk cannot be loaded, its arguments cannot be built, the script of
the chunk fails. Only the first one makes `rtxResolve_replaceCalls` return false. The second is traced and the
third is counted in a variable that nothing reads, so a body is replaced, and inserted, with whatever the
script left (`replaceCalls_reports_iff`).
-/

set_option autoImplicit false

namespace Rathaxes.Resolve

open CodeWorker

variable {C A T V : Type}

namespace FrontGeneration

variable {g : FrontGeneration C A T V} {resolverValues : V}

/-! ## Outcomes of a call -/

/-- The chunk of a call is loaded, its arguments are built with the verdict `built`, and its script leaves `stmts` with
the verdict `done`. -/
def Outcome (g : FrontGeneration C A T V) (resolverValues : V) (call : Call A) (built done : Bool)
    (stmts : List C) : Prop :=
  ∃ chunkTree resVals, g.loadTplChunk call.1 (callProto call.1) = .ok (some chunkTree) ∧
    g.buildCallResVals resolverValues call.2 chunkTree = .ok (resVals, built) ∧
    g.instanceChunk resVals chunkTree = .ok (stmts, done)

/-- The chunk loads and its script succeeds. -/
def Instantiates (g : FrontGeneration C A T V) (resolverValues : V) (call : Call A) (stmts : List C) : Prop :=
  ∃ built, g.Outcome resolverValues call built true stmts

/-- No step of the call raises an error, and its chunk is loaded. -/
def Runs (g : FrontGeneration C A T V) (resolverValues : V) (call : Call A) : Prop :=
  ∃ built done stmts, g.Outcome resolverValues call built done stmts

/-- All three steps of the call succeed. -/
def Succeeds (g : FrontGeneration C A T V) (resolverValues : V) (call : Call A) : Prop :=
  ∃ stmts, g.Outcome resolverValues call true true stmts

/-- A call expands to what its script leaves, whatever the verdicts. -/
theorem expandCall_eq_some_iff {call : Call A} {stmts : List C} :
    g.expandCall resolverValues call.stmt = .ok (some stmts) ↔
      ∃ built done, g.Outcome resolverValues call built done stmts := by
  constructor
  · intro h
    obtain ⟨loaded, hload, h⟩ := bind_eq_ok_iff.1 h
    cases loaded with
    | none => cases h
    | some chunkTree =>
      obtain ⟨⟨resVals, built⟩, hbuild, h⟩ := bind_eq_ok_iff.1 h
      obtain ⟨⟨left, done⟩, hinstance, h⟩ := bind_eq_ok_iff.1 h
      cases h
      exact ⟨built, done, chunkTree, resVals, hload, hbuild, hinstance⟩
  · rintro ⟨built, done, chunkTree, resVals, hload, hbuild, hinstance⟩
    refine bind_eq_ok_iff.2 ⟨some chunkTree, hload, ?_⟩
    exact bind_eq_ok_iff.2 ⟨(resVals, built), hbuild, bind_eq_ok_iff.2 ⟨(stmts, done), hinstance, rfl⟩⟩

theorem runs_iff {call : Call A} :
    g.Runs resolverValues call ↔
      ∃ stmts, g.expandCall resolverValues call.stmt = .ok (some stmts) := by
  simp only [Runs, expandCall_eq_some_iff]
  exact ⟨fun ⟨built, done, stmts, h⟩ => ⟨stmts, built, done, h⟩,
    fun ⟨stmts, built, done, h⟩ => ⟨built, done, stmts, h⟩⟩

/-! ## The whole body -/

/-- **Calls that load and instantiate** are replaced, each once and in order, by what their chunks instantiate to. The
loop comes to its end after as many rounds as there are calls: an inserted statement met as a call would
have raised an error. -/
theorem replaceCalls_concatenates (g : FrontGeneration C A T V) (resolverValues : V)
    (calls : List (Call A)) (code : Call A → List C)
    (h : ∀ call ∈ calls, g.Instantiates resolverValues call (code call)) :
    ∃ b : Block (SeqStmt C A),
      (∀ fuel ≥ calls.length, g.replaceCallsLoop resolverValues fuel
        ⟨Block.parsed (calls.map Call.stmt), 0, 0⟩ = .ok (b, true)) ∧
      g.replaceCalls resolverValues (Block.parsed (calls.map Call.stmt)) = .ok (b, true) ∧
      b.stmts = (calls.flatMap code).map .code := by
  refine replaceCalls_calls fun call hcall => ?_
  obtain ⟨built, houtcome⟩ := h call hcall
  exact expandCall_eq_some_iff.2 ⟨built, true, houtcome⟩

/-- Two calls of one sequence, each replaced by its statement. -/
theorem replaceCalls_concatenates_two_calls :
    ∃ b : Block (SeqStmt String Unit),
      (∀ fuel ≥ 2, callGeneration.replaceCallsLoop () fuel
        ⟨Block.parsed (([(plainType ⟨"f", rfl⟩, ()), (plainType ⟨"h", rfl⟩, ())] :
          List (Call Unit)).map Call.stmt), 0, 0⟩ = .ok (b, true)) ∧
      callGeneration.replaceCalls ()
        (Block.parsed (([(plainType ⟨"f", rfl⟩, ()), (plainType ⟨"h", rfl⟩, ())] :
          List (Call Unit)).map Call.stmt)) = .ok (b, true) ∧
      b.stmts = ["a", "a"].map .code :=
  replaceCalls_concatenates callGeneration ()
    [(plainType ⟨"f", rfl⟩, ()), (plainType ⟨"h", rfl⟩, ())] (fun _ => ["a"])
    fun _ _ => ⟨true, (), (), rfl, rfl, rfl⟩

/-- A run that ends with true has expanded every call. -/
theorem expands_of_replaceCallsLoop {calls : List (Call A)} {r l : List (String × SeqStmt C A)}
    {modifier : Option Int} {phIdx fuel : Nat} {b : Block (SeqStmt C A)}
    (hr : r.map Prod.snd = calls.map Call.stmt)
    (hrun : g.replaceCallsLoop resolverValues fuel (Cursor.between l r modifier phIdx) = .ok (b, true)) :
    ∀ call ∈ calls, ∃ stmts, g.expandCall resolverValues call.stmt = .ok (some stmts) := by
  induction calls generalizing r l modifier phIdx fuel with
  | nil => exact fun call hcall => nomatch hcall
  | cons call calls ih =>
    obtain ⟨⟨k, stmt⟩, r, rfl, hstmt, hr⟩ := List.map_eq_cons_iff.1 hr
    cases fuel with
    | zero =>
      -- the call is still there, and the loop is cut off
      rw [replaceCallsLoop, if_pos] at hrun
      · cases hrun
      · show (l.length : Int) < (l ++ (k, stmt) :: r).length
        rw [List.length_append, List.length_cons]
        push_cast
        omega
    | succ fuel =>
      rw [replaceCallsLoop_round] at hrun
      obtain ⟨expanded, hexpand, hrun⟩ := bind_eq_ok_iff.1 hrun
      rw [show stmt = call.stmt from hstmt] at hexpand
      cases expanded with
      | none => cases hrun
      | some stmts =>
        intro other hother
        rcases List.mem_cons.1 hother with rfl | hother
        · exact ⟨stmts, hexpand⟩
        · exact ih hr hrun other hother

/-- The calls of a parsed sequence are replaced exactly when each of them runs. -/
theorem replaceCalls_eq_true_iff {calls : List (Call A)} :
    (∃ b, g.replaceCalls resolverValues (Block.parsed (calls.map Call.stmt)) = .ok (b, true)) ↔
      ∀ call ∈ calls, g.Runs resolverValues call := by
  have hstmts : (Block.positioned 0 (calls.map (Call.stmt : Call A → SeqStmt C A))).map Prod.snd =
      calls.map Call.stmt := Block.stmts_positioned 0 _
  simp only [runs_iff]
  constructor
  · rintro ⟨b, hrun⟩
    exact expands_of_replaceCallsLoop (l := []) hstmts hrun
  · intro hexpand
    let code : Call A → List C := fun call =>
      (g.expandCall resolverValues call.stmt).toOption.join.getD []
    have hcode : ∀ call ∈ calls, g.expandCall resolverValues call.stmt = .ok (some (code call)) := by
      intro call hcall
      obtain ⟨stmts, hstmts⟩ := hexpand call hcall
      simp only [code, hstmts]
      rfl
    obtain ⟨b, -, hrun, -⟩ := replaceCalls_calls hcode
    exact ⟨b, hrun⟩

/-- An injection that succeeds has replaced the calls of the implementation it found. -/
theorem replaceCalls_of_injectImplementation {tree tree' : FrontTree C A} {o : Occurrence C A V}
    {theBlock : Block (Stmt C)} {decl : Sequence C A} {built : Bool}
    (hdecl : tree.implements o.tplHash = some decl)
    (hbuild : g.buildSequenceResVals o.resolverValues o.parameters decl.seqParamName =
      .ok (resolverValues, built))
    (h : g.injectImplementation tree o = .ok (tree', theBlock, true)) :
    ∃ b, g.replaceCalls resolverValues decl.body = .ok (b, true) := by
  rw [injectImplementation, hdecl] at h
  obtain ⟨resVals, hresVals, h⟩ := bind_eq_ok_iff.1 h
  cases hbuild.symm.trans hresVals
  obtain ⟨⟨b, replaced⟩, hreplace, h⟩ := bind_eq_ok_iff.1 h
  cases replaced with
  | true => exact ⟨b, hreplace⟩
  | false => cases h

/-- **What replacing the calls reports.** That true stands for the success of all three steps of every call, and
that an injection which succeeds has inserted the code of no failed call, holds of a body exactly when it
cannot be that every call runs and one of them fails to build its arguments or to instantiate. -/
theorem replaceCalls_reports_iff (g : FrontGeneration C A T V) (resolverValues : V)
    (calls : List (Call A)) :
    (((∃ b, g.replaceCalls resolverValues (Block.parsed (calls.map Call.stmt)) = .ok (b, true)) →
          ∀ call ∈ calls, g.Succeeds resolverValues call) ∧
        ∀ (tree : FrontTree C A) (o : Occurrence C A V) (decl : Sequence C A) (built : Bool),
          tree.implements o.tplHash = some decl → decl.body = Block.parsed (calls.map Call.stmt) →
          g.buildSequenceResVals o.resolverValues o.parameters decl.seqParamName =
            .ok (resolverValues, built) →
          (∃ tree' theBlock, g.injectImplementation tree o = .ok (tree', theBlock, true)) →
            ∀ call ∈ calls, g.Succeeds resolverValues call) ↔
      ((∀ call ∈ calls, g.Runs resolverValues call) →
        ∀ call ∈ calls, g.Succeeds resolverValues call) := by
  rw [replaceCalls_eq_true_iff]
  refine ⟨fun h => h.1, fun h => ⟨h, ?_⟩⟩
  rintro tree o decl built hdecl hbody hbuild ⟨tree', theBlock, hinject⟩
  have hreplace := replaceCalls_of_injectImplementation hdecl hbuild hinject
  rw [hbody] at hreplace
  exact h (replaceCalls_eq_true_iff.1 hreplace)

end FrontGeneration

/-- A generation whose scripts leave a statement and fail. -/
def failingGeneration : FrontGeneration String Unit Unit Unit where
  toGeneration := { callGeneration.toGeneration with instanceChunk := fun _ _ => .ok (["half"], false) }
  loadTplChunk _ _ := .ok (some ())
  buildCallResVals _ _ _ := .ok ((), true)
  buildSequenceResVals _ _ _ := .ok ((), true)

/-- A call whose chunk fails to instantiate: the calls are reported as replaced, and what the script left is
inserted in the place of the pointcut. -/
theorem failed_instance_inserted :
    (∃ b, failingGeneration.replaceCalls ()
        (Block.parsed (([(plainType ⟨"f", rfl⟩, ())] : List (Call Unit)).map Call.stmt)) =
          .ok (b, true)) ∧
      ¬ failingGeneration.Succeeds () (plainType ⟨"f", rfl⟩, ()) ∧
      (failingGeneration.injectImplementation sampleTree (sampleOccurrence ⟨"init", rfl⟩)).map
          (fun r => (r.2.1.stmts, r.2.2)) = .ok ([.code "half"], true) := by
  refine ⟨⟨_, rfl⟩, ?_, rfl⟩
  rintro ⟨stmts, chunkTree, resVals, -, -, hinstance⟩
  cases hinstance

end Rathaxes.Resolve
