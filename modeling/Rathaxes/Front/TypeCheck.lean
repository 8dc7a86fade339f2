import Rathaxes.Front.Register
import Rathaxes.Front.Sequence
import Rathaxes.Mid.TypeCheck

/-!
# The type check of the front end

`rtxFront_TypeCheck` of `passes/front/rtxTypeCheck.inc.cws`, with `rtxTypeCheck_Device`,
`rtxTypeCheck_DeviceRespectsItf` and `rtxTypeCheck_DeviceHasSequence` of
`typing/routines/rtxTypingRoutines_Front.inc.cws`. The declarations of a device are checked one by one: its registers,
and the sequences it implements, in which every call is looked up. Then the device has to implement what the
interfaces it uses require.

The check works on the tree. The prototype of a sequence becomes the one the lookup leaves, and so does the `rtype` of
each of its calls; a register is annotated. The names compared afterwards, and in the generation, are those of the
tree the check leaves, so each check returns its node besides the verdict. A check that has no result is one whose
lookup does not come to an end.
-/

set_option autoImplicit false

namespace Rathaxes.Front

open CodeWorker Mid

/-! ## The tree -/

/-- A declaration of a device. -/
inductive DeviceItem where
  | register (theRegister : RegisterNode)
  | property
  | sequence (theSequence : SequenceDecl)

/-- `rtxNodeDevice`, with the interfaces it uses. -/
structure Device where
  name : Word
  use : List Word
  body : List DeviceItem

/-- An item of a source file. The check accepts those of the middle and the back end as they are. -/
inductive RootItem where
  | device (theDevice : Device)
  | config
  | other

/-- What the lookup of a symbol reads of a declaration. -/
def DeviceItem.decl : DeviceItem → DeclHead
  | .register theRegister => .register theRegister.name
  | .property => .property
  | .sequence _ => .sequence

section Check

-- What the lookups work on and their fuel, the bodies of the interfaces, and `map.registers` of the root.
variable (w : Interfaces) (fuel : Nat) (bodies : Itf → List ItfItem) (registers : Option (Table Register))

/-! ## Devices -/

/-- `rtxFront_TypeCheckNode` on a declaration of a device. -/
def checkDeviceItem (device : List DeclHead) (interfaceList : List Word) :
    DeviceItem → Except String (Option (DeviceItem × Bool))
  | .register theRegister =>
    let checked := rtxTypeCheckRegister theRegister
    .ok (some (.register checked.1, checked.2))
  | .property => .ok (some (.property, true))
  | .sequence theSequence => do
    let checked ← checkSequenceDecl w fuel registers device interfaceList theSequence
    return checked.map fun checked => (.sequence checked.1, checked.2)

/-- `rtxTypeCheck_DeviceHasSequence`. -/
def Device.hasSequence (theDevice : Device) (itfSeq : RType) : Bool :=
  theDevice.body.any fun
    | .sequence theSequence => itfSeq.rtxRTypeFullQualifiedName = theSequence.rtype.rtxRTypeFullQualifiedName
    | _ => false

/-- The prototype of a declaration as it is looked for in the device: without a scope it gets that of the
interface. -/
def requiredRType (itfName : Word) : ItfItem → Option RType
  | .sequence .required rtype _ =>
    some (if rtype.name.scope = Word.blank then withScope rtype itfName else rtype)
  | _ => none

/-- `rtxTypeCheck_DeviceRespectsItf`. -/
def Device.respectsItf (theDevice : Device) (itfName : Word) : Bool :=
  if itfName = Word.blank then false
  else
    match w.registered itfName with
    | none => false
    | some itfTree => ((bodies itfTree).filterMap (requiredRType itfTree.name)).all theDevice.hasSequence

/-- `rtxFront_TypeCheckNode<"__rtx_device__">`: its declarations, then `rtxTypeCheck_Device`. -/
def checkDevice (theDevice : Device) : Except String (Option (Device × Bool)) := do
  let checked ← checkAll (checkDeviceItem w fuel registers (theDevice.body.map DeviceItem.decl) theDevice.use)
    theDevice.body
  return checked.map fun checked =>
    let device := { theDevice with body := checked.1 }
    (device, checked.2 && device.use.all (device.respectsItf w bodies))

/-! ## Files -/

/-- `rtxFront_TypeCheckNode` on an item of a file. -/
def checkRootItem : RootItem → Except String (Option (RootItem × Bool))
  | .device theDevice => do
    let checked ← checkDevice w fuel bodies registers theDevice
    return checked.map fun checked => (.device checked.1, checked.2)
  | .config => .ok (some (.config, true))
  | .other => .ok (some (.other, true))

/-- `rtxFront_TypeCheck`. -/
def frontTypeCheck (file : List RootItem) : Except String (Option (List RootItem × Bool)) :=
  checkAll (checkRootItem w fuel bodies registers) file

end Check

end Rathaxes.Front
