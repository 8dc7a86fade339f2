import Rathaxes.Resolve.Pointcut

/-!
# Sequence implementations

`inject_pointcut<"::IMPLEMENTATION">` and `rtxResolve_replaceCalls` of
`passes/common/rtxResolve.inc.cws`. A device of the front-end tree implements a sequence by a list of
calls. Where a template asks for the implementation, each call is replaced by the statements of the
`CALL` chunk of the sequence it calls, and the statements go where the pointcut stood.

The calls are replaced in the tree itself, which is passed by reference: the tree is part of the state,
and the implementation of a sequence is a block of calls at first and of C statements afterwards.
-/

set_option autoImplicit false

namespace Rathaxes.Resolve

open CodeWorker

variable {C A T V : Type}

/-! ## The front-end tree -/

/-- A statement of a sequence implementation: a call, or the C statement of a chunk. -/
inductive SeqStmt (C A : Type) where
  | call (rtype : RType) (args : A)
  | code (c : C)
deriving DecidableEq

/-- An `__rtx_sequence__` node: its prototype, the names of its parameters and its body. -/
structure Sequence (C A : Type) where
  rtype : RType
  seqParamName : List String
  body : Block (SeqStmt C A)

/-- A declaration of a device. -/
inductive DeviceDecl (C A : Type) where
  | sequence (theSeq : Sequence C A)
  | other

/-- An item of the front-end tree. -/
inductive FrontItem (C A : Type) where
  | device (decls : List (DeviceDecl C A))
  | other

/-- The declaration implements the sequence with this hash. -/
def DeviceDecl.implements (tplHash : String) : DeviceDecl C A → Option (Sequence C A)
  | .sequence theSeq => if theSeq.rtype.rtxRTypeFullQualifiedName = tplHash then some theSeq else none
  | .other => none

/-- The declaration with another body. -/
def DeviceDecl.withBody (body : Block (SeqStmt C A)) : DeviceDecl C A → DeviceDecl C A
  | .sequence theSeq => .sequence { theSeq with body := body }
  | .other => .other

/-- The implementation the loop over the declarations of an item stops at. -/
def FrontItem.implements (tplHash : String) : FrontItem C A → Option (Sequence C A)
  | .device decls => decls.findSome? (DeviceDecl.implements tplHash)
  | .other => none

/-- The item with another body for that implementation. -/
def FrontItem.withBody (tplHash : String) (body : Block (SeqStmt C A)) :
    FrontItem C A → FrontItem C A
  | .device decls =>
    .device (updateFirst (fun decl => (decl.implements tplHash).isSome) (DeviceDecl.withBody body) decls)
  | .other => .other

/-- The items of the front-end tree, `source_tree.block`. -/
abbrev FrontTree (C A : Type) := List (FrontItem C A)

/-- The implementation the two loops of `inject_pointcut<"::IMPLEMENTATION">` stop at. -/
def FrontTree.implements (tree : FrontTree C A) (tplHash : String) : Option (Sequence C A) :=
  tree.findSome? (FrontItem.implements tplHash)

/-- The tree with another body for that implementation. -/
def FrontTree.withBody (tree : FrontTree C A) (tplHash : String) (body : Block (SeqStmt C A)) :
    FrontTree C A :=
  updateFirst (fun item => (item.implements tplHash).isSome) (FrontItem.withBody tplHash body) tree

/-! ## Replacing the calls -/

/-- What the resolution of implementations works with besides: `rtxLink_LoadTplChunk` with the
specifier `sequence` (none when it returns false), `rtxResolve_BuildParameterResVals` on the arguments of a
call and, on those of the pointcut, for the parameters of the sequence. -/
structure FrontGeneration (C A T V : Type) extends Generation C A T V where
  loadTplChunk : RType → String → Except String (Option T)
  buildCallResVals : V → A → T → Except String (V × Bool)
  buildSequenceResVals : V → A → List String → Except String (V × Bool)

/-- The error of the model when its loop is cut off; no run gets there. -/
def outOfFuel : String := "out of fuel"

namespace FrontGeneration

/-- The statements of one call. A failure to build the arguments is traced, a failure of the script is
counted in `errcount`, which nothing reads. -/
def expandCall (g : FrontGeneration C A T V) (resolverValues : V) :
    SeqStmt C A → Except String (Option (List C))
  -- a C statement has no `rtype` to copy
  | .code _ => .error (unknownVariable "call.rtype")
  | .call rtype args => do
    match ← g.loadTplChunk rtype (callProto rtype) with
    | none => return none
    | some chunkTree =>
      let resVals ← g.buildCallResVals resolverValues args chunkTree
      let instantiated ← g.instanceChunk resVals.1 chunkTree
      return some instantiated.1

/-- The loop of `rtxResolve_replaceCalls`, from a cursor on: the body of the sequence and what the
function returns. -/
def replaceCallsLoop (g : FrontGeneration C A T V) (resolverValues : V) :
    Nat → Cursor (SeqStmt C A) → Except String (Block (SeqStmt C A) × Bool)
  | 0, cursor =>
    if cursor.startIdx < cursor.block.entries.length then .error outOfFuel
    else .ok (cursor.block, true)
  | fuel + 1, cursor =>
    if cursor.startIdx < cursor.block.entries.length then do
      let call ← getAt cursor.block.entries cursor.startIdx
      match ← g.expandCall resolverValues call.2 with
      | none => return (cursor.block, false)
      | some stmts =>
        let removed ← insertModifier cursor.block (cursor.startIdx - cursor.block.shift)
        let cursor ← insertCode ⟨removed.1, removed.2, cursor.phIdx⟩ "call" (stmts.map .code)
        g.replaceCallsLoop resolverValues fuel cursor
    else .ok (cursor.block, true)

/-- `rtxResolve_replaceCalls`. -/
def replaceCalls (g : FrontGeneration C A T V) (resolverValues : V) (body : Block (SeqStmt C A)) :
    Except String (Block (SeqStmt C A) × Bool) :=
  g.replaceCallsLoop resolverValues body.entries.length ⟨body, 0, 0⟩

end FrontGeneration

/-! ## The pointcut -/

/-- An inserted statement of an implementation. Every call has been replaced by then. -/
def SeqStmt.stmt : SeqStmt C A → Stmt C
  | call _ _ => .hole
  | code c => .code c

/-- The end of an injection: statements in place of a placeholder. -/
def replacePlaceHolder {ι : Type} (theBlock : Block ι) (blockIdx : Nat) (stmts : List ι) :
    Except String (Block ι) := do
  let removed ← insertModifier theBlock blockIdx
  let cursor ← insertCode ⟨removed.1, removed.2, 0⟩ (toString blockIdx) stmts
  return cursor.block

/-- A pointcut `::IMPLEMENTATION` met in a generation: the hash of the template it stands in, the values
and arguments there, the block and the position in it. -/
structure Occurrence (C A V : Type) where
  tplHash : String
  resolverValues : V
  parameters : A
  theBlock : Block (Stmt C)
  blockIdx : Nat

/-- `inject_pointcut<"::IMPLEMENTATION">`: the tree, the block and what the function returns. -/
def FrontGeneration.injectImplementation (g : FrontGeneration C A T V) (tree : FrontTree C A)
    (o : Occurrence C A V) : Except String (FrontTree C A × Block (Stmt C) × Bool) :=
  match tree.implements o.tplHash with
  | none => .ok (tree, o.theBlock, false)
  | some decl => do
    let resVals ← g.buildSequenceResVals o.resolverValues o.parameters decl.seqParamName
    let replaced ← g.replaceCalls resVals.1 decl.body
    let tree := tree.withBody o.tplHash replaced.1
    if replaced.2 then do
      let theBlock ← replacePlaceHolder o.theBlock o.blockIdx (replaced.1.stmts.map SeqStmt.stmt)
      return (tree, theBlock, true)
    else return (tree, o.theBlock, false)

/-- The occurrences of a generation, resolved one after the other over one tree. -/
def FrontGeneration.resolveOccurrences (g : FrontGeneration C A T V) :
    FrontTree C A → List (Occurrence C A V) → Except String (List (Block (Stmt C) × Bool))
  | _, [] => .ok []
  | tree, o :: occurrences => do
    let injected ← g.injectImplementation tree o
    let blocks ← g.resolveOccurrences injected.1 occurrences
    return injected.2 :: blocks

end Rathaxes.Resolve
