import Rathaxes.Node.Back

/-!
# Type checking a back-end file

The walkers of `passes/back/rtxTypeCheck.inc.cws`. They return now a boolean, now a count of errors,
and each level compares what the level below returned with `false`, which in the scripting language
is the empty text. A counter that was never incremented is the empty text too.

The checks of a single template and of a single placeholder (`typing/routines`) are parameters: a
verdict, or an error raised. A node type the walkers do not manage raises an error as well.
-/

set_option autoImplicit false

namespace Rathaxes.Back

/-- The values the walkers return: the empty text, the text `true`, a number. -/
inductive Value where
  | empty
  | true
  | number (n : Nat)
deriving DecidableEq

namespace Value

/-- The comparison `v == false`. -/
def equalsFalse : Value → Bool
  | empty => Bool.true
  | true => Bool.false
  | number _ => Bool.false

/-- The constants `true` and `false`. -/
def ofBool : Bool → Value
  | .true => true
  | .false => empty

/-- `increment(v)`: an uninitialised variable becomes 1. -/
def increment : Value → Value
  | empty => number 1
  | true => number 1
  | number n => number (n + 1)

@[simp] theorem equalsFalse_ofBool (b : Bool) : (ofBool b).equalsFalse = !b := by cases b <;> rfl

@[simp] theorem equalsFalse_increment (v : Value) : v.increment.equalsFalse = Bool.false := by
  cases v <;> rfl

end Value

/-- The checks of single templates and placeholders. -/
structure Checks where
  /-- `rtxTypeCheck_Template`, given the interfaces of the enclosing with-block. -/
  template : Template → List Word → Except String Bool
  /-- `rtxTypeCheck_CheckPlaceholder`, given the name kept in `dummy_itf` and the interfaces. -/
  placeholder : PlaceHolder → String → List Word → Except String Bool

/-- The error of a node type the walkers do not know. -/
def unmanaged (T : String) : String := "rtxTpl_TypeCheck unmanaged type " ++ T

/-- `dummy_itf.name` after a placeholder: a pointcut leaves its scope there. -/
def nextItfName (itfName : String) : PlaceHolder → String
  | .pointcut name => name.scope.text
  | .other _ _ => itfName

section Walkers

variable (checks : Checks)

/-- The loop over the placeholders of a with-block, which counts errors. -/
def typeCheckPlaceHolders (interfaces : List Word) :
    (itfName : String) → (errcount : Nat) → List PlaceHolder → Except String Nat
  | _, errcount, [] => .ok errcount
  | itfName, errcount, ph :: phs =>
    match checks.placeholder ph (nextItfName itfName ph) interfaces with
    | .error e => .error e
    | .ok verdict =>
      typeCheckPlaceHolders interfaces (nextItfName itfName ph)
        (if verdict = false then errcount + 1 else errcount) phs

mutual

/-- `rtxTpl_TypeCheckFor<T>`. -/
def typeCheckFor (interfaces : List Word) : Item → Except String Value
  | .withBlock w cBlock _ body =>
    match typeCheckBlock w.interfaces .empty body with
    | .error e => .error e
    | .ok verdict =>
      let errcount := if verdict.equalsFalse then 1 else 0
      match typeCheckPlaceHolders checks w.interfaces "" errcount cBlock.compile with
      | .error e => .error e
      | .ok errcount => .ok (.ofBool (errcount = 0))
  | .tpl t =>
    match checks.template t interfaces with
    | .error e => .error e
    | .ok verdict => .ok (.ofBool verdict)
  | .chunk _ => .error (unmanaged "__rtx_chunk__")
  | .itf _ => .ok .true
  | .itfExtension _ => .error (unmanaged "__rtx_itf_extension__")
  | .device => .ok .true
  | .config => .ok .true
  | .other T => .error (unmanaged T)

/-- `rtxTpl_TypeCheckFor<"__block__">`, from the value of its counter. -/
def typeCheckBlock (interfaces : List Word) : (count : Value) → List Item → Except String Value
  | count, [] => .ok count
  | count, item :: items =>
    match typeCheckFor interfaces item with
    | .error e => .error e
    | .ok verdict =>
      typeCheckBlock interfaces (if verdict.equalsFalse then count.increment else count) items

end

/-- `rtxTpl_TypeCheck` on the root of a file. -/
def typeCheck (source : List Item) : Except String Value :=
  typeCheckBlock checks [] .empty source

end Walkers

end Rathaxes.Back
