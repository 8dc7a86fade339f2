import Mathlib.Logic.Function.Basic
import Rathaxes.Resolve.Pointcut

/-!
# Instantiation of chunks

The scripts `rtxGenFunction` generates, as specialisations of `instanceChunk`, and the injections they call
(`inject`, `inject_pointcut` and `type_call` of `passes/common/rtxResolve.inc.cws`), for placeholders that stand as a
statement. A chunk is a tree of statements: a statement of C code may have blocks of its own, with placeholders in
them. Each placeholder keeps a reference to the block it stands in, and each block has its own modifier, so the state
of a resolution is a store of blocks. Introspection has removed the casts from their blocks and counted them in the
modifiers; the positions of the placeholders are those from before. Resolving a placeholder instantiates other chunks,
which are loaded, resolved the same way and copied into the block; the recursion ends only if no chunk comes to need
itself, hence the fuel.

Placeholders within an expression are not in the model: they are replaced where they stand and move nothing. Neither is
the pointcut `::IMPLEMENTATION`, which has a function of its own (`Rathaxes.Resolve.Implementation`). Every script runs
on the tree it was generated for, with values that stay as they are: an argument that names a field of a value, whose type
`rtxResolve_BuildParameterResVals` writes over the type of the value, is not in the model.
-/

set_option autoImplicit false

namespace Rathaxes.Resolve

open CodeWorker Rathaxes.Link

variable {C A D V P : Type}

/-! ## Trees of statements -/

/-- A parsed statement: C code with the blocks in it, a placeholder, or a cast, which introspection has removed. -/
inductive Code (C P : Type) where
  | stmt (c : C) (blocks : List (List (Code C P)))
  | placeHolder (p : P)
  | cast

/-- A statement of an instantiated chunk: C code with the blocks in it, or a placeholder that was not resolved. -/
inductive Woven (C : Type) where
  | stmt (c : C) (blocks : List (List (Woven C)))
  | unresolved

/-- What an entry of a block is: the statement parsed at a position, or one that was copied from an instantiated
chunk. -/
inductive Entry (C : Type) where
  | kept (i : Nat)
  | copied (t : Woven C)

/-- A block of a chunk: the statements to go through, each by its position and the number of the block in it, the last
one first. -/
abbrev BlockPath := List (Nat × Nat)

/-- An entry of `compile`: the block of the placeholder, its position there (`block_idx`) and the placeholder. -/
structure Site (P : Type) where
  path : BlockPath
  blockIdx : Nat
  placeHolder : P

mutual

/-- The table `compile` of a statement with this position in its block. -/
def compileStmt (path : BlockPath) (i : Nat) : Code C P → List (Site P)
  | .placeHolder p => [⟨path, i, p⟩]
  | .stmt _ blocks => compileBlocks path i 0 blocks
  | .cast => []

/-- The table of a block, from the statement with this position on. -/
def compileBlock (path : BlockPath) (i : Nat) : List (Code C P) → List (Site P)
  | [] => []
  | s :: stmts => compileStmt path i s ++ compileBlock path (i + 1) stmts

/-- The tables of the blocks of a statement, from the block with this number on. -/
def compileBlocks (path : BlockPath) (i k : Nat) : List (List (Code C P)) → List (Site P)
  | [] => []
  | block :: blocks => compileBlock ((i, k) :: path) 0 block ++ compileBlocks path i (k + 1) blocks

end

/-- The parsed statements of a block. -/
def blockAt (body : List (Code C P)) : BlockPath → List (Code C P)
  | [] => body
  | (i, k) :: path =>
    match (blockAt body path)[i]? with
    | some (.stmt _ blocks) => blocks[k]?.getD []
    | some (.placeHolder _) => []
    | some .cast => []
    | none => []

/-- The entries of a block, from the statement with this position on, under the positions as keys. -/
def loadedEntries (i : Nat) : List (Code C P) → List (String × Stmt (Entry C))
  | [] => []
  | .placeHolder _ :: stmts => (toString i, .hole) :: loadedEntries (i + 1) stmts
  | .stmt _ _ :: stmts => (toString i, .code (.kept i)) :: loadedEntries (i + 1) stmts
  | .cast :: stmts => loadedEntries (i + 1) stmts

/-- The number of casts in a block. -/
def casts : List (Code C P) → Nat
  | [] => 0
  | .placeHolder _ :: stmts => casts stmts
  | .stmt _ _ :: stmts => casts stmts
  | .cast :: stmts => casts stmts + 1

/-- A block as it is loaded. Introspection has made a modifier if there was a cast to remove. -/
def loadedBlock (stmts : List (Code C P)) : Block (Stmt (Entry C)) :=
  ⟨loadedEntries 0 stmts, if casts stmts = 0 then none else some (-casts stmts)⟩

/-- The blocks of a chunk that is being resolved. -/
abbrev Blocks (C : Type) := BlockPath → Block (Stmt (Entry C))

/-- The blocks as they are loaded. -/
def Blocks.loaded (body : List (Code C P)) : Blocks C := fun path => loadedBlock (blockAt body path)

/-- What an entry of a block has become, given what has become of the parsed statements. -/
def Stmt.shown (kept : List (Woven C)) : Stmt (Entry C) → Woven C
  | .code (.kept i) => kept[i]?.getD .unresolved
  | .code (.copied t) => t
  | .hole => .unresolved

mutual

/-- The tree of a parsed statement with this position in its block. -/
def Blocks.readStmt (store : Blocks C) (path : BlockPath) (i : Nat) : Code C P → Woven C
  | .placeHolder _ => .unresolved
  | .stmt c blocks => .stmt c (store.readBlocks path i 0 blocks)
  | .cast => .unresolved

/-- The trees of the parsed statements of a block, from the one with this position on. -/
def Blocks.readStmts (store : Blocks C) (path : BlockPath) (i : Nat) : List (Code C P) → List (Woven C)
  | [] => []
  | s :: stmts => store.readStmt path i s :: store.readStmts path (i + 1) stmts

/-- The trees of the blocks of a statement, from the one with this number on. -/
def Blocks.readBlocks (store : Blocks C) (path : BlockPath) (i k : Nat) :
    List (List (Code C P)) → List (List (Woven C))
  | [] => []
  | block :: blocks =>
    (store ((i, k) :: path)).stmts.map (Stmt.shown (store.readStmts ((i, k) :: path) 0 block)) ::
      store.readBlocks path i (k + 1) blocks

end

/-- The tree of a block. -/
def Blocks.read (store : Blocks C) (path : BlockPath) (stmts : List (Code C P)) : List (Woven C) :=
  (store path).stmts.map (Stmt.shown (store.readStmts path 0 stmts))

/-! ## Placeholders -/

/-- A call of a sequence: its name and its arguments, with the types introspection gave them. -/
structure SequenceCall (A : Type) where
  seqName : Ident
  seqArgs : A
  argTypes : List (Option RType)

/-- A call of a method: the type of the variable, the prototype of the method, the arguments, the name of the variable
and the text of the node the placeholder refers to. -/
structure MethodCall (A : Type) where
  rtype : RType
  chunkProto : String
  parameters : A
  var : String
  refPlaceholder : String

/-- A placeholder that stands as a statement. -/
inductive PlaceHolder (C A : Type) where
  | pointcut (thePointcut : Pointcut C A)
  | sequenceCall (theCall : SequenceCall A)
  | methodCall (theCall : MethodCall A)

/-- The tree of a chunk: its parameters, those of its template and its body. -/
structure ChunkTree (C A D : Type) where
  parameters : D
  tplParams : D
  body : List (Code C (PlaceHolder C A))

/-- What the resolution of chunks works with. Trees are loaded from the cache. `buildParameterResVals` and
`buildSequenceResVals` are `rtxResolve_BuildParameterResVals` on the parameters of a chunk and on those of a template,
`appendSelf` is `rtxNodeArgs_AppendArg` for `self`. -/
structure Weaver (C A D V : Type) where
  session : Session
  config : Config
  loadItem : CachedChunk → Except String (ChunkTree C A D)
  loadMethod : CachedMethod → Except String (ChunkTree C A D)
  buildParameterResVals : V → A → D → Except String (V × Bool)
  buildSequenceResVals : V → A → D → Except String (V × Bool)
  appendSelf : V → RType → String → V
  lessEqual : Nat → Nat → Bool

/-- `instanceChunk`, on the values and the tree it is called with: the statements of the tree, and what it returns. -/
abbrev Instance (C A D V : Type) := V → ChunkTree C A D → Except String (List (Woven C) × Bool)

namespace Weaver

/-- The generation that resolves pointcuts with this function. -/
def generation (w : Weaver C A D V) (instanceChunk : Instance C A D V) :
    Generation (Entry C) A (ChunkTree C A D) V where
  session := w.session
  config := w.config
  loadItem := w.loadItem
  buildParameterResVals resolverValues parameters tree :=
    w.buildParameterResVals resolverValues parameters tree.parameters
  instanceChunk resVals tree := do
    let instantiated ← instanceChunk resVals tree
    return (instantiated.1.map .copied, instantiated.2)
  lessEqual := w.lessEqual

/-- The default body is one statement. -/
def entryPointcut (thePointcut : Pointcut C A) : Pointcut (Entry C) A :=
  { thePointcut with default := thePointcut.default.map fun c => .copied (.stmt c []) }

/-- The end of a call: the statements of its chunk take the place of the placeholder, or the chunk could not be
instantiated and the placeholder stays. -/
def injectInstance (phName : String) (theBlock : Block (Stmt (Entry C))) (blockIdx : Nat) :
    List (Woven C) × Bool → Except String (Block (Stmt (Entry C)) × Bool)
  | (_, false) => .ok (theBlock, false)
  | (stmts, true) => do
    let removed ← insertModifier theBlock blockIdx
    let cursor ← insertCode ⟨removed.1, removed.2, 0⟩ phName (stmts.map fun t => .code (.copied t))
    return (cursor.block, true)

/-- The instantiation a sequence call asks for; `none` when the function returns false before it. Whether the values
could be built is not looked at. -/
def sequenceInstance (w : Weaver C A D V) (resolverValues : V) (theCall : SequenceCall A) :
    Except String (Option (V × ChunkTree C A D)) :=
  match theCall.argTypes.mapM id with
  | none => .ok none
  | some types => do
    let tplRtype : RType := ⟨theCall.seqName, types.map RType.name⟩
    match ← tplChunk w.session tplRtype (callProto tplRtype) w.config .sequence with
    | none => return none
    | some chunk =>
      let chunkTree ← w.loadItem chunk
      let resVals ← w.buildSequenceResVals resolverValues theCall.seqArgs chunkTree.tplParams
      return some (resVals.1, chunkTree)

/-- The instantiation a method call asks for; `none` when the function returns false before it. -/
def methodInstance (w : Weaver C A D V) (resolverValues : V) (theCall : MethodCall A) :
    Except String (Option (V × ChunkTree C A D)) := do
  match ← typeMethod w.session theCall.rtype theCall.chunkProto w.config with
  | none => return none
  | some theMethod =>
    let subtree ← w.loadMethod theMethod
    let resVals ← w.buildParameterResVals resolverValues theCall.parameters subtree.parameters
    return some (w.appendSelf resVals.1 theCall.rtype theCall.var, subtree)

/-- A call that asks for an instantiation, or for none. -/
def injectCall (instanceChunk : Instance C A D V) (phName : String) (theBlock : Block (Stmt (Entry C)))
    (blockIdx : Nat) : Option (V × ChunkTree C A D) → Except String (Block (Stmt (Entry C)) × Bool)
  | none => .ok (theBlock, false)
  | some (resVals, tree) => do
    let instantiated ← instanceChunk resVals tree
    injectInstance phName theBlock blockIdx instantiated

/-- `inject` on a placeholder, and `type_call`: the block and what the function returns. -/
def inject (w : Weaver C A D V) (instanceChunk : Instance C A D V) (resolverValues : V)
    (theBlock : Block (Stmt (Entry C))) (blockIdx : Nat) :
    PlaceHolder C A → Except String (Block (Stmt (Entry C)) × Bool)
  | .pointcut thePointcut =>
    (w.generation instanceChunk).injectPointcut resolverValues theBlock blockIdx (entryPointcut thePointcut)
  | .sequenceCall theCall => do
    let asked ← w.sequenceInstance resolverValues theCall
    injectCall instanceChunk ("_" ++ toString blockIdx) theBlock blockIdx asked
  | .methodCall theCall => do
    let asked ← w.methodInstance resolverValues theCall
    injectCall instanceChunk theCall.refPlaceholder theBlock blockIdx asked

/-- The calls of a generated script, one after the other, with the number of those that failed. -/
def runScript (w : Weaver C A D V) (instanceChunk : Instance C A D V) (resolverValues : V) :
    List (Site (PlaceHolder C A)) → Blocks C → Nat → Except String (Blocks C × Nat)
  | [], store, errcount => .ok (store, errcount)
  | site :: sites, store, errcount => do
    let injected ← w.inject instanceChunk resolverValues (store site.path) site.blockIdx site.placeHolder
    w.runScript instanceChunk resolverValues sites (Function.update store site.path injected.1)
      (if injected.2 then errcount else errcount + 1)

/-- A script on the body of a chunk that has been loaded. -/
def resolveBody (w : Weaver C A D V) (instanceChunk : Instance C A D V) (resolverValues : V)
    (sites : List (Site (PlaceHolder C A))) (body : List (Code C (PlaceHolder C A))) :
    Except String (List (Woven C) × Bool) := do
  let run ← w.runScript instanceChunk resolverValues sites (Blocks.loaded body) 0
  return (run.1.read [] body, run.2 == 0)

/-- The error of the model when a chunk needs more instantiations within each other than the fuel allows. -/
def tooDeep : String := "stack overflow"

/-- `instanceChunk<theTree.instanceKey>`, with the number of instantiations that may be within each other. -/
def instanceChunk (w : Weaver C A D V) : Nat → Instance C A D V
  | 0, _, _ => .error tooDeep
  | fuel + 1, resVals, tree =>
    w.resolveBody (w.instanceChunk fuel) resVals (compileBlock [] 0 tree.body) tree.body

end Weaver

end Rathaxes.Resolve
