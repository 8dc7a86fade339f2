import Mathlib.Data.List.Basic

/-!
# Variables and references

A function of a script has variables of its own and may be given variables of its callers by reference. `ref x = y` makes
`x` refer to `y`: from then on what is read from `x` is read from `y`, and what is assigned to `x` goes there. A variable
a function was given is the caller's own, so the caller sees the reference.

The variables of a function go when it returns. A reference to one of them goes with it, and the variable that referred
to it has again what was assigned to it before (`owns_leave_refer`).
-/

set_option autoImplicit false

namespace CodeWorker

variable {τ : Type}

/-- A variable: what was assigned to it, if anything, and the variable it refers to. -/
structure Variable (τ : Type) where
  own : Option τ
  target : Option Nat
deriving DecidableEq

/-- The variables of the functions that are running, those of the callers first. -/
abbrev Variables (τ : Type) := List (Variable τ)

namespace Variables

/-- `local x;` -/
def declare (s : Variables τ) : Variables τ := s ++ [⟨none, none⟩]

/-- The variable at the end of the references from one, followed this many times. -/
def follow (s : Variables τ) : Nat → Nat → Nat
  | 0, x => x
  | n + 1, x =>
    match s[x]?.bind Variable.target with
    | none => x
    | some y => follow s n y

/-- The variable that stands for one. There are no more references to follow than there are variables. -/
def place (s : Variables τ) (x : Nat) : Nat := s.follow s.length x

/-- What is read from a variable. -/
def read (s : Variables τ) (x : Nat) : Option τ := s[s.place x]?.bind Variable.own

/-- `setall x = v;` -/
def assign (s : Variables τ) (x : Nat) (v : Option τ) : Variables τ :=
  s.modify (s.place x) fun theVar => { theVar with own := v }

/-- `ref x = y;` -/
def refer (s : Variables τ) (x y : Nat) : Variables τ := s.modify x fun theVar => { theVar with target := some y }

/-- The return of a function to one with this many variables before it. -/
def leave (s : Variables τ) (size : Nat) : Variables τ :=
  (s.take size).map fun theVar => { theVar with target := theVar.target.filter (· < size) }

/-- A variable that refers to no other and has this. -/
def Owns (s : Variables τ) (x : Nat) (v : Option τ) : Prop := s[x]? = some ⟨v, none⟩

section Owns

variable {s : Variables τ} {x y size : Nat} {u v v' : Option τ}

theorem Owns.lt_length (h : s.Owns x v) : x < s.length := (List.getElem?_eq_some_iff.1 h).1

theorem Owns.place_eq (h : s.Owns x v) : s.place x = x := by
  unfold Variables.place
  cases s.length with
  | zero => rfl
  | succ n =>
    rw [follow, show s[x]? = _ from h]
    rfl

theorem Owns.read_eq (h : s.Owns x v) : s.read x = v := by
  rw [read, h.place_eq, show s[x]? = _ from h]
  rfl

@[simp] theorem length_declare (s : Variables τ) : s.declare.length = s.length + 1 := by
  simp [Variables.declare]

theorem owns_declare (s : Variables τ) : s.declare.Owns s.length none := by
  simp [declare, Owns]

theorem Owns.declare (h : s.Owns x v) : s.declare.Owns x v := by
  rw [Owns, Variables.declare, List.getElem?_append_left h.lt_length]
  exact h

theorem Owns.assign (h : s.Owns x v) (v' : Option τ) : (s.assign x v').Owns x v' := by
  rw [Owns, Variables.assign, h.place_eq, List.getElem?_modify, show s[x]? = _ from h]
  simp

theorem Owns.assign_ne (h : s.Owns x v) (hy : s.Owns y u) (hne : y ≠ x) (v' : Option τ) : (s.assign y v').Owns x v := by
  rw [Owns, Variables.assign, hy.place_eq, List.getElem?_modify, show s[x]? = _ from h]
  simp [hne]

/-- A reference to a variable of a function that has returned is gone. -/
theorem owns_leave_refer (h : s.Owns x v) (hx : x < size) (hy : size ≤ y) : ((s.refer x y).leave size).Owns x v := by
  rw [Owns, leave, List.getElem?_map, List.getElem?_take_of_lt hx, refer, List.getElem?_modify, show s[x]? = _ from h]
  simpa using hy

theorem Owns.leave (h : s.Owns x v) (hx : x < size) : (s.leave size).Owns x v := by
  rw [Owns, Variables.leave, List.getElem?_map, List.getElem?_take_of_lt hx, show s[x]? = _ from h]
  rfl

end Owns

end Variables

end CodeWorker
