import Rathaxes.Laws.Pointcut
import Rathaxes.Resolve.Implementation

/-!
# Implementations resolved again

The first resolution of a sequence implementation inserts the statements of its calls, and leaves them
in the tree in place of the calls. A later one reads them as calls: it raises an error as soon as there
is a statement, and inserts nothing when there is none. So the implementation of one sequence can be
asked for again exactly when nothing was to be inserted in the first place.

The induction runs over the occurrences of a generation. The invariant (`Resolved`) says of every
sequence that its body is as parsed until its first occurrence, and what that one inserted afterwards.
-/

set_option autoImplicit false

namespace Rathaxes.Resolve

open CodeWorker

variable {C A T V : Type}

/-! ## The tree -/

section

variable {tplHash : String} {body : Block (SeqStmt C A)}

theorem DeviceDecl.implements_withBody (decl : DeviceDecl C A) :
    (decl.withBody body).implements tplHash =
      (decl.implements tplHash).map fun theSeq => { theSeq with body := body } := by
  cases decl with
  | other => rfl
  | sequence theSeq =>
    rw [withBody, implements, implements]
    split
    · rfl
    · rfl

/-- A declaration implements one sequence. -/
theorem DeviceDecl.implements_of_ne {tplHash' : String} (hne : tplHash' ≠ tplHash)
    (decl : DeviceDecl C A) (h : (decl.implements tplHash).isSome = true) :
    decl.implements tplHash' = none := by
  cases decl with
  | other => rfl
  | sequence theSeq =>
    rw [implements] at h ⊢
    split at h
    · rename_i hhash
      rw [hhash, if_neg hne.symm]
    · cases h

theorem FrontItem.implements_withBody (item : FrontItem C A) :
    (item.withBody tplHash body).implements tplHash =
      (item.implements tplHash).map fun theSeq => { theSeq with body := body } := by
  cases item with
  | other => rfl
  | device decls =>
    exact findSome?_updateFirst (fun _ => rfl) DeviceDecl.implements_withBody decls

theorem FrontItem.implements_withBody_of_ne {tplHash' : String} (hne : tplHash' ≠ tplHash)
    (item : FrontItem C A) :
    (item.withBody tplHash body).implements tplHash' = item.implements tplHash' := by
  cases item with
  | other => rfl
  | device decls =>
    apply findSome?_updateFirst_of_eq
    intro decl hdecl
    rw [DeviceDecl.implements_withBody, DeviceDecl.implements_of_ne hne decl hdecl]
    rfl

/-- A new body is found again under the hash of its sequence. -/
theorem FrontTree.implements_withBody (tree : FrontTree C A) :
    (tree.withBody tplHash body).implements tplHash =
      (tree.implements tplHash).map fun theSeq => { theSeq with body := body } :=
  findSome?_updateFirst (fun _ => rfl) FrontItem.implements_withBody tree

/-- The other sequences keep theirs. -/
theorem FrontTree.implements_withBody_of_ne (tree : FrontTree C A) {tplHash' : String}
    (hne : tplHash' ≠ tplHash) :
    (tree.withBody tplHash body).implements tplHash' = tree.implements tplHash' :=
  findSome?_updateFirst_of_eq (fun item _ => FrontItem.implements_withBody_of_ne hne item) tree

end

/-! ## Replacing the calls -/

/-- A call of a sequence implementation: the prototype it calls and its arguments. -/
abbrev Call (A : Type) := RType × A

/-- The node of a call. -/
def Call.stmt (call : Call A) : SeqStmt C A := .call call.1 call.2

namespace FrontGeneration

variable {g : FrontGeneration C A T V} {resolverValues : V}

theorem replaceCallsLoop_done (fuel : Nat) {cursor : Cursor (SeqStmt C A)}
    (h : ¬ cursor.startIdx < cursor.block.entries.length) :
    g.replaceCallsLoop resolverValues fuel cursor = .ok (cursor.block, true) := by
  cases fuel with
  | zero => rw [replaceCallsLoop, if_neg h]
  | succ fuel => rw [replaceCallsLoop, if_neg h]

/-- One round: what the call at the cursor expands to decides. An expansion takes the place of the call,
and the cursor stands behind its statements. -/
theorem replaceCallsLoop_round {fuel phIdx : Nat} {l r : List (String × SeqStmt C A)}
    {call : String × SeqStmt C A} {modifier : Option Int} :
    g.replaceCallsLoop resolverValues (fuel + 1) (Cursor.between l (call :: r) modifier phIdx) =
      (g.expandCall resolverValues call.2 >>= fun expanded =>
        match expanded with
        | none => .ok (⟨l ++ call :: r, modifier⟩, false)
        | some stmts =>
          g.replaceCallsLoop resolverValues fuel
            (Cursor.between (l ++ insertedEntries "call" phIdx (stmts.map .code)) r
              (some (modifier.getD 0 - 1 + (stmts.length : Int))) (phIdx + stmts.length))) := by
  have hlt : (l.length : Int) < (l ++ call :: r).length := by
    rw [List.length_append, List.length_cons]
    push_cast
    omega
  have hremove : insertModifier (⟨l ++ call :: r, modifier⟩ : Block (SeqStmt C A))
      (l.length - modifier.getD 0) =
        .ok (⟨l ++ r, some (modifier.getD 0 - 1)⟩, (l.length : Int)) := by
    refine insertModifier_eq_ok_iff.2 ⟨?_, l, call, r, rfl, rfl, rfl⟩
    show (l.length : Int) = l.length - modifier.getD 0 + modifier.getD 0
    omega
  rw [replaceCallsLoop]
  show (if (l.length : Int) < (l ++ call :: r).length then _ else _) = _
  rw [if_pos hlt]
  show (getAt (l ++ call :: r) l.length >>= _) = _
  rw [getAt_between]
  show (g.expandCall resolverValues call.2 >>= _) = _
  congr 1
  funext expanded
  cases expanded with
  | none => rfl
  | some stmts =>
    have hinsert := insertCode_between "call" l r (some (modifier.getD 0 - 1)) phIdx
      (stmts.map (SeqStmt.code : C → SeqStmt C A))
    rw [List.length_map] at hinsert
    show (insertModifier (⟨l ++ call :: r, modifier⟩ : Block (SeqStmt C A))
      (l.length - modifier.getD 0) >>= _) = _
    rw [hremove]
    show (insertCode (Cursor.between l r (some (modifier.getD 0 - 1)) phIdx) "call"
      (stmts.map SeqStmt.code) >>= _) = _
    rw [hinsert]
    rfl

/-- The round of a call that expands. -/
theorem replaceCallsLoop_step {fuel phIdx : Nat} {l r : List (String × SeqStmt C A)}
    {call : String × SeqStmt C A} {modifier : Option Int} {stmts : List C}
    (h : g.expandCall resolverValues call.2 = .ok (some stmts)) :
    g.replaceCallsLoop resolverValues (fuel + 1) (Cursor.between l (call :: r) modifier phIdx) =
      g.replaceCallsLoop resolverValues fuel
        (Cursor.between (l ++ insertedEntries "call" phIdx (stmts.map .code)) r
          (some (modifier.getD 0 - 1 + (stmts.length : Int))) (phIdx + stmts.length)) := by
  rw [replaceCallsLoop_round, h]
  rfl

/-- Calls that expand are replaced one after the other; as many rounds as there are calls are enough. -/
theorem replaceCallsLoop_calls {code : Call A → List C} :
    ∀ {calls : List (Call A)} {r l : List (String × SeqStmt C A)} {modifier : Option Int}
      {phIdx : Nat}, r.map Prod.snd = calls.map Call.stmt →
      (∀ call ∈ calls, g.expandCall resolverValues call.stmt = .ok (some (code call))) →
        ∃ b, (∀ fuel ≥ calls.length,
            g.replaceCallsLoop resolverValues fuel (Cursor.between l r modifier phIdx) =
              .ok (b, true)) ∧
          b.stmts = l.map Prod.snd ++ (calls.flatMap code).map .code := by
  intro calls
  induction calls with
  | nil =>
    intro r l modifier phIdx hr _
    cases List.map_eq_nil_iff.1 hr
    refine ⟨⟨l ++ [], modifier⟩, fun fuel _ => replaceCallsLoop_done fuel ?_, ?_⟩
    · show ¬ (l.length : Int) < (l ++ []).length
      rw [List.append_nil]
      omega
    · show (l ++ []).map Prod.snd = l.map Prod.snd ++ []
      rw [List.append_nil, List.append_nil]
  | cons call calls ih =>
    intro r l modifier phIdx hr hexpand
    obtain ⟨⟨k, stmt⟩, r, rfl, hstmt, hr⟩ := List.map_eq_cons_iff.1 hr
    have hhead := hexpand call List.mem_cons_self
    rw [← hstmt] at hhead
    obtain ⟨b, hrun, hstmts⟩ := ih hr fun c hc => hexpand c (List.mem_cons_of_mem _ hc)
    refine ⟨b, fun fuel hfuel => ?_, ?_⟩
    · cases fuel with
      | zero => cases hfuel
      | succ fuel =>
        rw [replaceCallsLoop_step hhead]
        exact hrun fuel (Nat.le_of_succ_le_succ hfuel)
    · rw [hstmts, List.map_append, map_snd_insertedEntries, List.flatMap_cons, List.map_append,
        List.append_assoc]

/-- The calls of a parsed sequence are replaced by their statements. -/
theorem replaceCalls_calls {code : Call A → List C} {calls : List (Call A)}
    (h : ∀ call ∈ calls, g.expandCall resolverValues call.stmt = .ok (some (code call))) :
    ∃ b, (∀ fuel ≥ calls.length, g.replaceCallsLoop resolverValues fuel
          ⟨Block.parsed (calls.map Call.stmt), 0, 0⟩ = .ok (b, true)) ∧
      g.replaceCalls resolverValues (Block.parsed (calls.map Call.stmt)) = .ok (b, true) ∧
      b.stmts = (calls.flatMap code).map .code := by
  have hstmts : (Block.positioned 0 (calls.map (Call.stmt : Call A → SeqStmt C A))).map Prod.snd =
      calls.map Call.stmt := Block.stmts_positioned 0 _
  obtain ⟨b, hrun, hb⟩ := replaceCallsLoop_calls (l := []) hstmts h
  refine ⟨b, hrun, hrun _ (Nat.le_of_eq ?_), hb⟩
  rw [Block.parsed, Block.length_positioned, List.length_map]

/-- C statements in the place of calls: an error, unless there are none. -/
theorem replaceCalls_code {body : Block (SeqStmt C A)} {stmts : List C}
    (h : body.stmts = stmts.map .code) :
    g.replaceCalls resolverValues body =
      if stmts = [] then .ok (body, true) else .error (unknownVariable "call.rtype") := by
  obtain ⟨entries, modifier⟩ := body
  cases stmts with
  | nil =>
    cases List.map_eq_nil_iff.1 h
    rw [if_pos rfl]
    exact replaceCallsLoop_done _ (Int.lt_irrefl 0)
  | cons c stmts =>
    obtain ⟨⟨k, stmt⟩, r, rfl, hstmt, -⟩ := List.map_eq_cons_iff.1 h
    have hexpand : g.expandCall resolverValues stmt = .error (unknownVariable "call.rtype") := by
      rw [show stmt = .code c from hstmt]
      rfl
    rw [if_neg (List.cons_ne_nil c stmts), replaceCalls, List.length_cons]
    refine (replaceCallsLoop_round (l := [])).trans ?_
    rw [hexpand]
    rfl

end FrontGeneration

/-! ## Occurrences -/

/-- The placeholder stands where the recorded position and the modifier say. -/
def Occurrence.Placed (o : Occurrence C A V) : Prop :=
  ∃ l x r, o.theBlock.entries = l ++ x :: r ∧ (l.length : Int) = o.blockIdx + o.theBlock.shift

/-- Replacing a placeholder that stands in the block goes through, and the result tells the
statements. -/
theorem replacePlaceHolder_placed {o : Occurrence C A V} (h : o.Placed) :
    ∃ weave : List (Stmt C) → Block (Stmt C), Function.Injective weave ∧
      ∀ stmts, replacePlaceHolder o.theBlock o.blockIdx stmts = .ok (weave stmts) := by
  obtain ⟨l, x, r, hentries, hlen⟩ := h
  have hremove := insertModifier_eq_ok_iff.2 ⟨hlen, l, x, r, hentries, rfl, rfl⟩
  refine ⟨fun stmts => ⟨l ++ insertedEntries (toString o.blockIdx) 0 stmts ++ r,
    some (o.theBlock.shift - 1 + (stmts.length : Int))⟩, ?_, ?_⟩
  · intro stmts stmts' heq
    have hins := List.append_cancel_left (List.append_cancel_right (Block.mk.inj heq).1)
    have hmap := congrArg (List.map Prod.snd) hins
    rwa [map_snd_insertedEntries, map_snd_insertedEntries] at hmap
  · intro stmts
    rw [replacePlaceHolder, hremove]
    show (insertCode (Cursor.between l r (some (o.theBlock.shift - 1)) 0) _ stmts >>= _) = _
    rw [insertCode_between]
    rfl

/-- The tree implements the sequence of an occurrence by calls whose chunks, instantiated with the
arguments of the occurrence, give these statements. -/
def FrontGeneration.Implements (g : FrontGeneration C A T V) (tree : FrontTree C A)
    (o : Occurrence C A V) (stmts : List C) : Prop :=
  ∃ (decl : Sequence C A) (calls : List (Call A)) (resVals : V × Bool) (code : Call A → List C),
    tree.implements o.tplHash = some decl ∧
      decl.body = Block.parsed (calls.map Call.stmt) ∧
      g.buildSequenceResVals o.resolverValues o.parameters decl.seqParamName = .ok resVals ∧
      (∀ call ∈ calls, g.expandCall resVals.1 call.stmt = .ok (some (code call))) ∧
      stmts = calls.flatMap code

/-- What the occurrences should become: each placeholder is replaced by the statements of its
implementation. -/
def weaveOccurrences (expansion : Occurrence C A V → List C) :
    List (Occurrence C A V) → Except String (List (Block (Stmt C) × Bool))
  | [] => .ok []
  | o :: occurrences => do
    let theBlock ← replacePlaceHolder o.theBlock o.blockIdx ((expansion o).map .code)
    let blocks ← weaveOccurrences expansion occurrences
    return (theBlock, true) :: blocks

theorem weaveOccurrences_placed (expansion : Occurrence C A V → List C) :
    ∀ {occurrences : List (Occurrence C A V)}, (∀ o ∈ occurrences, o.Placed) →
      ∃ blocks, weaveOccurrences expansion occurrences = .ok blocks := by
  intro occurrences
  induction occurrences with
  | nil =>
    intro _
    exact ⟨[], rfl⟩
  | cons o occurrences ih =>
    intro h
    obtain ⟨weave, -, hweave⟩ := replacePlaceHolder_placed (h o List.mem_cons_self)
    obtain ⟨blocks, hblocks⟩ := ih fun o' ho' => h o' (List.mem_cons_of_mem _ ho')
    refine ⟨(weave ((expansion o).map .code), true) :: blocks, ?_⟩
    rw [weaveOccurrences, hweave, hblocks]
    rfl

/-- After the occurrences `past`: the body of a sequence is the parsed one if none of them was about
it, and otherwise the statements each of them inserted. -/
def Resolved (expansion : Occurrence C A V → List C) (parsed : FrontTree C A)
    (past : List (Occurrence C A V)) (tree : FrontTree C A) : Prop :=
  ∀ tplHash decl, parsed.implements tplHash = some decl →
    ∃ body, tree.implements tplHash = some { decl with body := body } ∧
      ((∀ o ∈ past, o.tplHash ≠ tplHash) → body = decl.body) ∧
      ∀ o ∈ past, o.tplHash = tplHash → body.stmts = (expansion o).map .code

namespace Resolved

variable {expansion : Occurrence C A V → List C} {parsed tree : FrontTree C A}
  {past : List (Occurrence C A V)}

theorem start : Resolved expansion parsed [] parsed := by
  intro tplHash decl h
  exact ⟨decl.body, h, fun _ => rfl, fun o ho => (nomatch ho)⟩

/-- An occurrence that leaves its statements in the tree. -/
theorem cons (h : Resolved expansion parsed past tree) {o : Occurrence C A V}
    {body : Block (SeqStmt C A)} (hbody : body.stmts = (expansion o).map .code)
    (hpast : ∀ o' ∈ past, o'.tplHash = o.tplHash → expansion o' = expansion o) :
    Resolved expansion parsed (o :: past) (tree.withBody o.tplHash body) := by
  intro tplHash decl hdecl
  obtain ⟨old, htree, hfresh, hold⟩ := h tplHash decl hdecl
  by_cases hhash : tplHash = o.tplHash
  · subst hhash
    refine ⟨body, ?_, ?_, ?_⟩
    · rw [FrontTree.implements_withBody, htree]
      rfl
    · intro hne
      exact absurd rfl (hne o List.mem_cons_self)
    · intro o' ho' hsame
      rcases List.mem_cons.1 ho' with rfl | ho'
      · exact hbody
      · rw [hpast o' ho' hsame, hbody]
  · refine ⟨old, ?_, ?_, ?_⟩
    · rw [FrontTree.implements_withBody_of_ne tree hhash, htree]
    · intro hne
      exact hfresh fun o' ho' => hne o' (List.mem_cons_of_mem _ ho')
    · intro o' ho' hsame
      rcases List.mem_cons.1 ho' with rfl | ho'
      · exact absurd hsame.symm hhash
      · exact hold o' ho' hsame

/-- Past occurrences of one sequence have inserted the same. -/
theorem expansion_eq (h : Resolved expansion parsed past tree) {decl : Sequence C A}
    {tplHash : String} (hdecl : parsed.implements tplHash = some decl) {o o' : Occurrence C A V}
    (ho : o ∈ past) (ho' : o' ∈ past) (hhash : o.tplHash = tplHash) (hhash' : o'.tplHash = tplHash) :
    expansion o = expansion o' := by
  obtain ⟨body, -, -, hbody⟩ := h tplHash decl hdecl
  have hmap := (hbody o ho hhash).symm.trans (hbody o' ho' hhash')
  exact List.map_injective_iff.2 (fun _ _ heq => SeqStmt.code.inj heq) hmap

end Resolved

namespace FrontGeneration

variable {g : FrontGeneration C A T V} {expansion : Occurrence C A V → List C}
  {parsed tree : FrontTree C A} {past : List (Occurrence C A V)} {o : Occurrence C A V}

/-- The first occurrence of a sequence inserts the statements of its calls. -/
theorem injectImplementation_first (h : Resolved expansion parsed past tree)
    (himpl : g.Implements parsed o (expansion o)) (hfresh : ∀ o' ∈ past, o'.tplHash ≠ o.tplHash) :
    ∃ tree', Resolved expansion parsed (o :: past) tree' ∧
      g.injectImplementation tree o =
        (replacePlaceHolder o.theBlock o.blockIdx ((expansion o).map .code) >>= fun theBlock =>
          .ok (tree', theBlock, true)) := by
  obtain ⟨decl, calls, resVals, code, hdecl, hparsed, hbuild, hexpand, hstmts⟩ := himpl
  obtain ⟨body, htree, hbody, -⟩ := h o.tplHash decl hdecl
  obtain ⟨b, -, hreplace, hb⟩ := replaceCalls_calls hexpand
  have hbody : body = Block.parsed (calls.map Call.stmt) := (hbody hfresh).trans hparsed
  have hinserted : b.stmts.map SeqStmt.stmt = (expansion o).map .code := by
    rw [hb, hstmts, List.map_map]
    rfl
  refine ⟨tree.withBody o.tplHash b, h.cons (by rw [hb, hstmts]) ?_, ?_⟩
  · intro o' ho' hsame
    exact absurd hsame (hfresh o' ho')
  · rw [injectImplementation, htree, hbody]
    show (g.buildSequenceResVals o.resolverValues o.parameters decl.seqParamName >>= _) = _
    rw [hbuild]
    show (g.replaceCalls resVals.1 (Block.parsed (calls.map Call.stmt)) >>= _) = _
    rw [hreplace, ← hinserted]
    rfl

/-- A later occurrence meets what the earlier ones have left: an error, or nothing to insert. -/
theorem injectImplementation_again (h : Resolved expansion parsed past tree)
    (himpl : g.Implements parsed o (expansion o)) {o' : Occurrence C A V} (ho' : o' ∈ past)
    (hsame : o'.tplHash = o.tplHash) :
    ∃ body, body.stmts = (expansion o').map .code ∧
      g.injectImplementation tree o =
        if expansion o' = [] then
          replacePlaceHolder o.theBlock o.blockIdx [] >>= fun theBlock =>
            .ok (tree.withBody o.tplHash body, theBlock, true)
        else .error (unknownVariable "call.rtype") := by
  obtain ⟨decl, calls, resVals, code, hdecl, hparsed, hbuild, -, -⟩ := himpl
  obtain ⟨body, htree, -, hbody⟩ := h o.tplHash decl hdecl
  have hbody := hbody o' ho' hsame
  refine ⟨body, hbody, ?_⟩
  rw [injectImplementation, htree]
  show (g.buildSequenceResVals o.resolverValues o.parameters decl.seqParamName >>= _) = _
  rw [hbuild]
  show (g.replaceCalls resVals.1 body >>= _) = _
  rw [replaceCalls_code hbody]
  split
  · rename_i hempty
    have hnothing : body.stmts.map SeqStmt.stmt = ([] : List (Stmt C)) := by
      rw [hbody, hempty]
      rfl
    show (replacePlaceHolder o.theBlock o.blockIdx (body.stmts.map SeqStmt.stmt) >>= _) = _
    rw [hnothing]
    rfl
  · rfl

end FrontGeneration

/-- Two occurrences of one sequence, if they are, have nothing to insert. -/
def NothingTwice (expansion : Occurrence C A V → List C) (o o' : Occurrence C A V) : Prop :=
  o.tplHash = o'.tplHash → expansion o = [] ∧ expansion o' = []

namespace FrontGeneration

variable {g : FrontGeneration C A T V} {expansion : Occurrence C A V → List C}
  {parsed : FrontTree C A}

/-- What is left of a generation once the first occurrence has inserted the right statements. -/
theorem resolveOccurrences_cons {tree tree' : FrontTree C A} {o : Occurrence C A V}
    {occurrences : List (Occurrence C A V)} (hplaced : ∀ o' ∈ o :: occurrences, o'.Placed)
    (h : g.injectImplementation tree o =
      (replacePlaceHolder o.theBlock o.blockIdx ((expansion o).map .code) >>= fun theBlock =>
        .ok (tree', theBlock, true))) :
    g.resolveOccurrences tree (o :: occurrences) = weaveOccurrences expansion (o :: occurrences) ↔
      g.resolveOccurrences tree' occurrences = weaveOccurrences expansion occurrences := by
  obtain ⟨weave, -, hweave⟩ := replacePlaceHolder_placed (hplaced o List.mem_cons_self)
  obtain ⟨blocks, hblocks⟩ := weaveOccurrences_placed expansion
    fun o' ho' => hplaced o' (List.mem_cons_of_mem _ ho')
  rw [resolveOccurrences, weaveOccurrences, h, hweave, hblocks]
  show (g.resolveOccurrences tree' occurrences >>= fun blocks => Except.ok (_ :: blocks)) = _ ↔ _
  cases hrest : g.resolveOccurrences tree' occurrences with
  | error e => exact ⟨fun hc => (nomatch hc), fun hc => (nomatch hc)⟩
  | ok blocks' =>
    constructor
    · intro heq
      exact congrArg Except.ok (List.cons.inj (Except.ok.inj heq)).2
    · intro heq
      cases heq
      rfl

/-- A generation in which nothing is inserted for the first occurrence is right only if nothing should be. -/
theorem expansion_eq_nil_of_resolveOccurrences {tree tree' : FrontTree C A} {o : Occurrence C A V}
    {occurrences : List (Occurrence C A V)} (hplaced : ∀ o' ∈ o :: occurrences, o'.Placed)
    (h : g.injectImplementation tree o =
      (replacePlaceHolder o.theBlock o.blockIdx [] >>= fun theBlock => .ok (tree', theBlock, true)))
    (heq : g.resolveOccurrences tree (o :: occurrences) = weaveOccurrences expansion (o :: occurrences)) :
    expansion o = [] := by
  obtain ⟨weave, hinj, hweave⟩ := replacePlaceHolder_placed (hplaced o List.mem_cons_self)
  obtain ⟨blocks, hblocks⟩ := weaveOccurrences_placed expansion
    fun o' ho' => hplaced o' (List.mem_cons_of_mem _ ho')
  rw [resolveOccurrences, h, hweave, weaveOccurrences, hweave, hblocks] at heq
  obtain ⟨_, ⟨⟩, heq⟩ := bind_eq_ok_iff.1 heq
  obtain ⟨rest, -, hcons⟩ := bind_eq_ok_iff.1 heq
  have hblock := congrArg Prod.fst (List.cons.inj (Except.ok.inj hcons)).1
  exact List.map_eq_nil_iff.1 (hinj hblock).symm

/-- A generation that raises an error is not right. -/
theorem resolveOccurrences_ne_of_error {tree : FrontTree C A} {o : Occurrence C A V} {e : String}
    {occurrences : List (Occurrence C A V)} (hplaced : ∀ o' ∈ o :: occurrences, o'.Placed)
    (h : g.injectImplementation tree o = .error e) :
    g.resolveOccurrences tree (o :: occurrences) ≠ weaveOccurrences expansion (o :: occurrences) := by
  intro heq
  obtain ⟨weave, -, hweave⟩ := replacePlaceHolder_placed (hplaced o List.mem_cons_self)
  obtain ⟨blocks, hblocks⟩ := weaveOccurrences_placed expansion
    fun o' ho' => hplaced o' (List.mem_cons_of_mem _ ho')
  rw [resolveOccurrences, h, weaveOccurrences, hweave, hblocks] at heq
  cases heq

/-- The first of those to come joins those past. -/
theorem forall_pairwise_cons_iff {α : Type} {R : α → α → Prop} {past rest : List α} {a : α} :
    ((∀ p ∈ past, ∀ b ∈ a :: rest, R p b) ∧ (a :: rest).Pairwise R) ↔
      (∀ p ∈ past, R p a) ∧ (∀ p ∈ a :: past, ∀ b ∈ rest, R p b) ∧ rest.Pairwise R := by
  constructor
  · rintro ⟨hpast, hpairs⟩
    obtain ⟨ha, hrest⟩ := List.pairwise_cons.1 hpairs
    refine ⟨fun p hp => hpast p hp a List.mem_cons_self, List.forall_mem_cons.2 ⟨ha, ?_⟩, hrest⟩
    exact fun p hp b hb => hpast p hp b (List.mem_cons_of_mem _ hb)
  · rintro ⟨hfirst, hpast, hrest⟩
    obtain ⟨ha, hpast⟩ := List.forall_mem_cons.1 hpast
    refine ⟨fun p hp => ?_, List.pairwise_cons.2 ⟨ha, hrest⟩⟩
    exact List.forall_mem_cons.2 ⟨hfirst p hp, hpast p hp⟩

/-- The generation from any point on. -/
theorem resolveOccurrences_eq_iff :
    ∀ {occurrences past : List (Occurrence C A V)} {tree : FrontTree C A},
      Resolved expansion parsed past tree →
      (∀ o ∈ occurrences, g.Implements parsed o (expansion o)) → (∀ o ∈ occurrences, o.Placed) →
        (g.resolveOccurrences tree occurrences = weaveOccurrences expansion occurrences ↔
          (∀ o ∈ past, ∀ o' ∈ occurrences, NothingTwice expansion o o') ∧
            occurrences.Pairwise (NothingTwice expansion)) := by
  intro occurrences
  induction occurrences with
  | nil =>
    intro past tree _ _ _
    exact ⟨fun _ => ⟨fun _ _ _ h => (nomatch h), List.Pairwise.nil⟩, fun _ => rfl⟩
  | cons o occurrences ih =>
    intro past tree hresolved himpl hplaced
    have himpl' := fun o' ho' => himpl o' (List.mem_cons_of_mem _ ho')
    have hplaced' := fun o' ho' => hplaced o' (List.mem_cons_of_mem _ ho')
    rw [forall_pairwise_cons_iff]
    by_cases hfresh : ∀ p ∈ past, p.tplHash ≠ o.tplHash
    · obtain ⟨tree', hresolved', hinject⟩ :=
        injectImplementation_first hresolved (himpl o List.mem_cons_self) hfresh
      rw [resolveOccurrences_cons hplaced hinject, ih hresolved' himpl' hplaced']
      exact ⟨fun h => ⟨fun p hp hsame => absurd hsame (hfresh p hp), h⟩, fun h => h.2⟩
    · obtain ⟨p, hp, hsame⟩ : ∃ p ∈ past, p.tplHash = o.tplHash := by
        by_contra hnone
        exact hfresh fun p hp hsame => hnone ⟨p, hp, hsame⟩
      obtain ⟨body, hbody, hinject⟩ :=
        injectImplementation_again hresolved (himpl o List.mem_cons_self) hp hsame
      by_cases hleft : expansion p = []
      · rw [if_pos hleft] at hinject
        by_cases hnow : expansion o = []
        · -- nothing before and nothing now
          obtain ⟨decl, -, -, -, hdecl, -⟩ := himpl o List.mem_cons_self
          have hpast : ∀ q ∈ past, q.tplHash = o.tplHash → expansion q = expansion o := by
            intro q hq hqo
            rw [hresolved.expansion_eq hdecl hq hp hqo hsame, hleft, hnow]
          have hinject' : g.injectImplementation tree o =
              (replacePlaceHolder o.theBlock o.blockIdx ((expansion o).map .code) >>= fun theBlock =>
                .ok (tree.withBody o.tplHash body, theBlock, true)) := by
            rw [hinject, hnow]
            rfl
          rw [resolveOccurrences_cons hplaced hinject',
            ih (hresolved.cons (by rw [hbody, hleft, hnow]) hpast) himpl' hplaced']
          refine ⟨fun h => ⟨fun q hq hqo => ⟨(hpast q hq hqo).trans hnow, hnow⟩, h⟩, fun h => h.2⟩
        · -- nothing is inserted where something should be
          refine iff_of_false ?_ fun h => hnow (h.1 p hp hsame).2
          exact fun heq => hnow (expansion_eq_nil_of_resolveOccurrences hplaced hinject heq)
      · rw [if_neg hleft] at hinject
        refine iff_of_false ?_ fun h => hleft (h.1 p hp hsame).1
        exact resolveOccurrences_ne_of_error hplaced hinject

/-- **Implementations.** In a generation every occurrence of `::IMPLEMENTATION` inserts the statements
of the calls as they were written exactly when no sequence with anything to insert is asked for
twice. -/
theorem resolveOccurrences_iff {occurrences : List (Occurrence C A V)}
    (himpl : ∀ o ∈ occurrences, g.Implements parsed o (expansion o))
    (hplaced : ∀ o ∈ occurrences, o.Placed) :
    g.resolveOccurrences parsed occurrences = weaveOccurrences expansion occurrences ↔
      occurrences.Pairwise (NothingTwice expansion) := by
  rw [resolveOccurrences_eq_iff Resolved.start himpl hplaced]
  exact ⟨fun h => h.2, fun h => ⟨fun _ ho => (nomatch ho), h⟩⟩

end FrontGeneration

/-! ## Samples -/

/-- The prototype `name()`. -/
def plainType (name : Word) : RType := ⟨rtxNodeIdentifier name, []⟩

/-- A generation in which every call expands to one statement. -/
def callGeneration : FrontGeneration String Unit Unit Unit where
  toGeneration := sampleGeneration (Link.Session.fresh false) ["a"]
  loadTplChunk _ _ := .ok (some ())
  buildCallResVals _ _ _ := .ok ((), true)
  buildSequenceResVals _ _ _ := .ok ((), true)

/-- The implementation of `name()` by one call of `f()`. -/
def callsF (name : Word) : Sequence String Unit :=
  ⟨plainType name, [], Block.parsed ([(plainType ⟨"f", .refl true⟩, ())].map Call.stmt)⟩

/-- A device that implements `init()` and `exit()`. -/
def sampleTree : FrontTree String Unit :=
  [.other, .device [.other, .sequence (callsF ⟨"init", .refl true⟩), .sequence (callsF ⟨"exit", .refl true⟩)]]

/-- An occurrence of `::IMPLEMENTATION` alone in the template of `name()`. -/
def sampleOccurrence (name : Word) : Occurrence String Unit Unit :=
  ⟨(plainType name).rtxRTypeFullQualifiedName, (), (), Block.parsed [.hole], 0⟩

theorem implements_callsF {name : Word}
    (h : sampleTree.implements (plainType name).rtxRTypeFullQualifiedName = some (callsF name)) :
    callGeneration.Implements sampleTree (sampleOccurrence name) ["a"] := by
  refine ⟨callsF name, [(plainType ⟨"f", rfl⟩, ())], ((), true), fun _ => ["a"], h, rfl, rfl, ?_, rfl⟩
  intro call _
  rfl

theorem placed_sampleOccurrence (name : Word) : (sampleOccurrence name).Placed :=
  ⟨[], _, [], rfl, rfl⟩

theorem resolveOccurrences_two_sequences :
    callGeneration.resolveOccurrences sampleTree
        [sampleOccurrence ⟨"init", rfl⟩, sampleOccurrence ⟨"exit", rfl⟩] =
      weaveOccurrences (fun _ => ["a"])
        [sampleOccurrence ⟨"init", rfl⟩, sampleOccurrence ⟨"exit", rfl⟩] := by
  refine (FrontGeneration.resolveOccurrences_iff ?_ ?_).2 ?_
  · simp only [List.forall_mem_cons]
    exact ⟨implements_callsF rfl, implements_callsF rfl, fun _ h => (nomatch h)⟩
  · simp only [List.forall_mem_cons]
    exact ⟨placed_sampleOccurrence _, placed_sampleOccurrence _, fun _ h => (nomatch h)⟩
  · refine List.pairwise_pair.2 ?_
    intro hsame
    exact absurd hsame (by decide)

/-- The implementation of `init()` asked for twice: the second resolution raises an error. -/
theorem second_occurrence_raises :
    callGeneration.resolveOccurrences sampleTree
        [sampleOccurrence ⟨"init", rfl⟩, sampleOccurrence ⟨"init", rfl⟩] = .error (unknownVariable "call.rtype") ∧
      callGeneration.resolveOccurrences sampleTree
          [sampleOccurrence ⟨"init", rfl⟩, sampleOccurrence ⟨"init", rfl⟩] ≠
        weaveOccurrences (fun _ => ["a"])
          [sampleOccurrence ⟨"init", rfl⟩, sampleOccurrence ⟨"init", rfl⟩] := by
  refine ⟨rfl, ?_⟩
  intro h
  cases h

end Rathaxes.Resolve
