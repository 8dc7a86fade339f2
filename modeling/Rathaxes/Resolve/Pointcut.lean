import Rathaxes.Link.Query
import Rathaxes.Resolve.Block

/-!
# Resolution of pointcuts

`inject_pointcut<T>` of `passes/common/rtxResolve.inc.cws`, for a pointcut that stands as a
statement: its `type_target` is `target_pointcut`, and `ref_placeholder` is the statement, so that
`theParent` is the array of the enclosing `__block__`. The chunks of the pointcut are asked of the
cache; each is loaded, its parameters are built, it is instantiated, and its statements go where
the pointcut stood. Without a compatible chunk the default body takes the place of the pointcut, and
without a default body the pointcut goes.

The placeholders of a block are resolved by the script generated for the chunk (`rtxGenFunction`):
one call after the other, in the order they were parsed in, counting those that fail.
-/

set_option autoImplicit false

namespace Rathaxes.Resolve

open CodeWorker Rathaxes.Link

variable {C A T V : Type}

/-- A statement of a block of C code: code, or a placeholder that has not been resolved. -/
inductive Stmt (C : Type) where
  | code (c : C)
  | hole
deriving DecidableEq

/-- An `__rtx_pointcut__` placeholder: the type introspection gave it, the arguments it passes and
its default body, which is one statement. -/
structure Pointcut (C A : Type) where
  rtype : RType
  parameters : A
  default : Option C
  location : String

/-- The prototype of the chunk a sequence is called with: `CALL`, without parameters, wherever the sequence is
declared. -/
def callProto (rtype : RType) : String :=
  RType.rtxRTypeFullQualifiedName
    ⟨{ rtype.name with name := ⟨"CALL", .refl true⟩, scope := Word.blank, global := true }, []⟩

/-- The operator `<=` outside of an arithmetic expression: numbers are compared as texts. -/
def textLessEqual (a b : Nat) : Bool := decide (toString a ≤ toString b)

/-- What a generation works with. The functions loaded or generated are parameters: a chunk's tree
`T`, the values `V` its parameters stand for and the statements its tree holds once the script has run,
each with what the function returns. An error they raise ends the generation.
`lessEqual` is how the interpreter compares two numbers outside of an arithmetic expression:
`textLessEqual`, or as numbers. -/
structure Generation (C A T V : Type) where
  session : Session
  config : Config
  loadItem : CachedChunk → Except String T
  buildParameterResVals : V → A → T → Except String (V × Bool)
  instanceChunk : V → T → Except String (List C × Bool)
  lessEqual : Nat → Nat → Bool

namespace Generation

/-- The loop of `inject_pointcut` over the chunks: the block and whether no chunk failed. -/
def injectChunks (g : Generation C A T V) (resolverValues : V) (parameters : A) (phName : String) :
    List CachedChunk → Cursor (Stmt C) → Nat → Except String (Block (Stmt C) × Bool)
  | [], cursor, errcount => .ok (cursor.block, errcount == 0)
  | chunk :: chunks, cursor, errcount => do
    -- `rtxLink_LoadItem` returns true or raises an error, so the count is never increased here
    let tree ← g.loadItem chunk
    match ← g.buildParameterResVals resolverValues parameters tree with
    | (_, false) => return (cursor.block, false)
    | (resVals, true) =>
      match ← g.instanceChunk resVals tree with
      | (stmts, true) =>
        let cursor ← insertCode cursor phName (stmts.map .code)
        g.injectChunks resolverValues parameters phName chunks cursor errcount
      | (_, false) => g.injectChunks resolverValues parameters phName chunks cursor (errcount + 1)

/-- The error of a default body that would be written past the end of the block. -/
def outsideBlock (thePointcut : Pointcut C A) (blockIdx : Nat) : String :=
  "[Error] inject_pointcut<T(\"" ++ thePointcut.rtype.rtxRTypeName ++ "\")>: Trying to get index " ++
    toString blockIdx ++ " at " ++ thePointcut.location ++ " into block "

/-- The fallback of `inject_pointcut`. The default body is written at the position the placeholder
was parsed at; only the removal goes through the modifier. -/
def injectDefault (g : Generation C A T V) (theParent : Block (Stmt C)) (blockIdx : Nat)
    (thePointcut : Pointcut C A) : Except String (Block (Stmt C) × Bool) :=
  match thePointcut.default with
  | some body =>
    if g.lessEqual theParent.entries.length blockIdx then
      .error (outsideBlock thePointcut blockIdx)
    else do
      let entries ← replaceAt theParent.entries blockIdx (.code body)
      return ({ theParent with entries := entries }, true)
  | none => do
    let removed ← insertModifier theParent blockIdx
    return (removed.1, true)

/-- `inject_pointcut<T>`: the block and what the function returns. -/
def injectPointcut (g : Generation C A T V) (resolverValues : V) (theParent : Block (Stmt C))
    (blockIdx : Nat) (thePointcut : Pointcut C A) : Except String (Block (Stmt C) × Bool) := do
  let found := findChunks g.session thePointcut.rtype.rtxRTypeFullQualifiedName
  let chunks ← selectCompatibleChunks found g.config
  if chunks.isEmpty then g.injectDefault theParent blockIdx thePointcut
  else do
    let removed ← insertModifier theParent blockIdx
    g.injectChunks resolverValues thePointcut.parameters (toString blockIdx) chunks
      ⟨removed.1, removed.2, 0⟩ 0

/-- The generated script, on the placeholders of one block with their positions. -/
def runScript (g : Generation C A T V) (resolverValues : V) :
    List (Nat × Pointcut C A) → Block (Stmt C) → Nat → Except String (Block (Stmt C) × Bool)
  | [], block, errcount => .ok (block, errcount == 0)
  | placeHolder :: placeHolders, block, errcount => do
    let injected ← g.injectPointcut resolverValues block placeHolder.1 placeHolder.2
    g.runScript resolverValues placeHolders injected.1
      (if injected.2 then errcount else errcount + 1)

end Generation

/-! ## Blocks with placeholders -/

/-- A statement as it was parsed: code, or a placeholder. -/
inductive Source (C P : Type) where
  | code (c : C)
  | placeHolder (p : P)
deriving DecidableEq

namespace Source

variable {P : Type}

/-- What stands in the block for a parsed statement. -/
def stmt : Source C P → Stmt C
  | code c => .code c
  | placeHolder _ => .hole

/-- The array `compile` that `rtxPH_mapPlaceHolder` fills: the placeholders with their positions. -/
def compile : Nat → List (Source C P) → List (Nat × P)
  | _, [] => []
  | n, code _ :: source => compile (n + 1) source
  | n, placeHolder p :: source => (n, p) :: compile (n + 1) source

/-- What a parsed statement becomes when the placeholder at each position stands for statements. -/
def replaced (replacement : Nat → P → List C) (n : Nat) : Source C P → List C
  | code c => [c]
  | placeHolder p => replacement n p

/-- The block with each placeholder replaced. -/
def weave (replacement : Nat → P → List C) : Nat → List (Source C P) → List C
  | _, [] => []
  | n, stmt :: source => stmt.replaced replacement n ++ weave replacement (n + 1) source

end Source

/-- Resolution of the placeholders of a parsed block. -/
def Generation.resolveBlock (g : Generation C A T V) (resolverValues : V)
    (source : List (Source C (Pointcut C A))) : Except String (Block (Stmt C) × Bool) :=
  g.runScript resolverValues (Source.compile 0 source) (Block.parsed (source.map Source.stmt)) 0

end Rathaxes.Resolve
