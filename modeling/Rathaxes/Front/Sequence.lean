import Rathaxes.Front.Call
import Rathaxes.Mid.Interface

/-!
# The type check of a sequence in the front end

`rtxTypeCheck_Sequence` of `typing/routines/rtxTypingRoutines_Front.inc.cws`. The prototype of a sequence a device
implements has to be declared, and not as a provided one; the sequences called have to be provided. The grammar
(`rtx_sequence_call` of `parse/rtxFront.cwp`) admits a block of further calls behind a call. The loop goes over the
calls of the body of the sequence.

The check works on the tree: the prototype of the sequence becomes the one the lookup leaves, and so does the `rtype`
of each call. It therefore returns the sequence besides the verdict.
-/

set_option autoImplicit false

namespace Rathaxes.Front

open CodeWorker Mid

/-- A call with the calls in its braces. -/
inductive CallNode where
  | mk (call : Call) (body : List CallNode)

namespace CallNode

/-- The call itself. -/
def call : CallNode → Call
  | mk call _ => call

/-- The calls in the braces. -/
def body : CallNode → List CallNode
  | mk _ body => body

end CallNode

/-- A call in the body of a sequence, with the `rtype` the check puts into it. -/
structure CallDecl where
  node : CallNode
  rtype : Option RType

/-- `rtxNodeSequence`. -/
structure SequenceDecl where
  rtype : RType
  seqParamName : List String
  body : List CallDecl

/-- The node of a sequence, with what is reached from it. -/
def SequenceDecl.node (theSequence : SequenceDecl) (device : List DeclHead) (registers : Option (Table Register)) :
    SequenceNode :=
  ⟨theSequence.rtype, theSequence.seqParamName, device, registers⟩

section Check

-- What the lookups work on and their fuel, and `map.registers` of the root.
variable (w : Interfaces) (fuel : Nat) (registers : Option (Table Register))

/-- What the lookup of a call leaves. The value of `rtxNodeCall_toRtype` is not looked at, but the name of the
prototype is put together. -/
def callAnswer (interfaceList : List Word) (theSequence : SequenceNode) (qualifier : Option Qualifier) (theCall : Call) :
    Except String (Option SequenceAnswer) := do
  let (sequence, params, _) ← toRtype theCall theSequence
  match params.mapM id with
  | none => .error badNodeType
  | some types => return itfNameDefinesSequence w fuel ⟨sequence, types⟩ sequence.scope interfaceList qualifier

/-- The call is of a provided sequence. -/
def isProvided (answer : SequenceAnswer) : Bool :=
  answer.found && decide (answer.outQualifier = some .provided)

/-- The loop over the calls of a sequence: the calls as it leaves them, and the number of errors. One variable
`qualifier` is used for all of them. -/
def checkCallDecls (interfaceList : List Word) (theSequence : SequenceNode) :
    (qualifier : Option Qualifier) → List CallDecl → Except String (Option (List CallDecl × Nat))
  | _, [] => .ok (some ([], 0))
  | qualifier, call :: calls => do
    match ← callAnswer w fuel interfaceList theSequence qualifier call.node.call with
    | none => return none
    | some answer =>
      match ← checkCallDecls interfaceList theSequence answer.outQualifier calls with
      | none => return none
      | some (calls, errcount) =>
        return some ({ call with rtype := some answer.theSequence } :: calls,
          if isProvided answer then errcount else errcount + 1)

/-- `rtxTypeCheck_Sequence`, with the tree it leaves. The prototype becomes the declared one, and the calls of a
sequence that is refused are not looked at. There is no result when a lookup does not come to an end. -/
def checkSequenceDecl (device : List DeclHead) (interfaceList : List Word) (theSequence : SequenceDecl) :
    Except String (Option (SequenceDecl × Bool)) :=
  match itfNameDefinesSequence w fuel theSequence.rtype theSequence.rtype.name.scope interfaceList none with
  | none => .ok none
  | some answer =>
    let declared := { theSequence with rtype := answer.theSequence }
    if answer.found = false ∨ answer.outQualifier = some .provided then .ok (some (declared, false))
    else do
      let checked ← checkCallDecls w fuel interfaceList (declared.node device registers) answer.outQualifier
        theSequence.body
      return checked.map fun checked => ({ declared with body := checked.1 }, decide (checked.2 = 0))

/-- What `rtxTypeCheck_Sequence` answers on a sequence as the parser leaves it, whose calls have no `rtype` yet. -/
def typeCheckSequence (theSequence : SequenceNode) (body : List CallNode) (interfaceList : List Word) :
    Except String (Option Bool) := do
  let checked ← checkSequenceDecl w fuel theSequence.registers theSequence.device interfaceList
    ⟨theSequence.rtype, theSequence.seqParamName, body.map fun call => ⟨call, none⟩⟩
  return checked.map Prod.snd

end Check

end Rathaxes.Front
