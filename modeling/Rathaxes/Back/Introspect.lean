import Rathaxes.Resolve.Pointcut

/-!
# Introspection of a chunk

`rtxIntrospect_walk<"__rtx_chunk__">` of `passes/back/rtxIntrospect.inc.cws`: every placeholder of a
chunk is given its type, in the order of parsing. A lone `cast` gives a type to a C variable instead;
it then goes from the block and from the placeholders to be resolved. The removal is by key, which is
the position the cast was parsed at, and it leaves its trace in the modifier of the block, which the
resolution reads later.

How the type of a pointcut follows from the variables known so far is a parameter: it may raise an
error, and it never removes the placeholder.
-/

set_option autoImplicit false

namespace Rathaxes.Back

open CodeWorker Rathaxes.Resolve

variable {C R P : Type}

/-- The type of a variable of the chunk: an entry of `theChunk.variables`. -/
inductive VariableOf (τ : Type) where
  | rtxtype (typeNode : τ)
  | ctype
deriving DecidableEq

/-- Such an entry, of whose type the rtype is read. -/
abbrev VariableType := VariableOf RType

/-- A placeholder standing as a statement, before its type is known. -/
inductive LonePlaceHolder (R : Type) where
  | cast (variableName : String) (rtype : RType)
  | pointcut (body : R)
deriving DecidableEq

/-- What introspection changes. -/
structure Introspected (C P : Type) where
  block : Block (Stmt C)
  chunkVariables : Table VariableType
  compile : List (Nat × P)

/-- `rtxIntrospect_InferPlaceHolderTypes<"__rtx_tpl_cast__">` on the variables and the block. -/
def inferCast (theVariables : Table VariableType) (theBlock : Block (Stmt C)) (blockIdx : Nat)
    (variableName : String) (rtype : RType) : Table VariableType × Block (Stmt C) :=
  (theVariables.set variableName (.rtxtype rtype),
    ⟨removeKey theBlock.entries (toString blockIdx), some (theBlock.shift - 1)⟩)

/-- The loop of `rtxIntrospect_walk<"__rtx_chunk__">` over the placeholders. The keys of the
placeholders a handler answers false for are collected and removed at the end, so the others
are left, in order. -/
def introspectPlaceHolders (infer : Table VariableType → R → Except String P) :
    List (Nat × LonePlaceHolder R) → Table VariableType → Block (Stmt C) →
      Except String (Introspected C P)
  | [], theVariables, theBlock => .ok ⟨theBlock, theVariables, []⟩
  | (blockIdx, .cast variableName rtype) :: placeHolders, theVariables, theBlock =>
    let inferred := inferCast theVariables theBlock blockIdx variableName rtype
    introspectPlaceHolders infer placeHolders inferred.1 inferred.2
  | (blockIdx, .pointcut body) :: placeHolders, theVariables, theBlock => do
    let typed ← infer theVariables body
    let left ← introspectPlaceHolders infer placeHolders theVariables theBlock
    return { left with compile := (blockIdx, typed) :: left.compile }

/-- Introspection of a parsed block, from the variables its declarations have. -/
def introspectChunk (infer : Table VariableType → R → Except String P)
    (theVariables : Table VariableType) (source : List (Source C (LonePlaceHolder R))) :
    Except String (Introspected C P) :=
  introspectPlaceHolders infer (Source.compile 0 source) theVariables
    (Block.parsed (source.map Source.stmt))

end Rathaxes.Back
