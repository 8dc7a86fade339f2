import Rathaxes.Mid.Interface

/-!
# Looking a pointcut up by the name of an interface

`rtxTypeCheck_ItfNameDefinesPointcut` of `typing/routines/rtxTypingRoutines_Back.inc.cws` and the function
it wraps. They load the trees of registered interfaces, as the lookup of a sequence does.
-/

set_option autoImplicit false

namespace Rathaxes.Back

open CodeWorker Mid

variable (w : Interfaces)

/-- The loop over the parents of an interface. It ends at the first one that is not registered. -/
def definesInParents : List Word → PointcutSearch → Bool × PointcutSearch
  | [], s => (false, s)
  | name :: names, s =>
    match w.registered name with
    | none => (false, s)
    | some parentTree =>
      let (found, s) := s.defines parentTree
      if found then (true, { s with rtype := withScope s.rtype name }) else definesInParents names s

/-- `rtxTypeCheck_ItfNameDefinesPointcut_recursive` with a name: the interface and its own parents. -/
def definesInItf (itfName : Word) (s : PointcutSearch) : Bool × PointcutSearch :=
  match w.registered itfName with
  | none => (false, s)
  | some itfTree =>
    let (found, s) := s.defines itfTree
    if found then (true, { s with rtype := withScope s.rtype itfName })
    else definesInParents w itfTree.inheritance s

/-- The loop over the interfaces in use. Called without a name and without a list the function finds
nothing. -/
def definesInList : List Word → PointcutSearch → Bool × PointcutSearch
  | [], s => (false, s)
  | name :: names, s =>
    match w.registered name with
    | none => (false, s)
    | some _ =>
      let (found, s) := if name ≠ Word.blank then definesInItf w name s else (false, s)
      if found then (true, { s with rtype := withScope s.rtype name }) else definesInList names s

/-- `rtxTypeCheck_ItfNameDefinesPointcut_recursive`. -/
def nameDefinesPointcut (itfName : Word) (interfaceList : List Word) (s : PointcutSearch) :
    Bool × PointcutSearch :=
  if itfName ≠ Word.blank then definesInItf w itfName s
  else if s.rtype.name.global = false then definesInList w interfaceList s
  else (decide (s.rtype.name.name.text ∈ builtinPointcuts), s)

/-- `rtxTypeCheck_ItfNameDefinesPointcut`. The declarations found are told apart by the text of their nodes,
and the node of a declaration has none: the first one stands for all. -/
def itfNameDefinesPointcut (pointcutRtype : RType) (itfName : Word) (interfaceList : List Word) :
    Bool × RType :=
  let r := nameDefinesPointcut w itfName interfaceList ⟨pointcutRtype, Table.empty, []⟩
  if r.1 then (true, r.2.rtype)
  else
    match (Table.uniques (fun _ => "") (r.2.possibilities.entries.map Prod.snd)).only? with
    | some entry => (true, entry.rtype)
    | none => (false, r.2.rtype)

end Rathaxes.Back
