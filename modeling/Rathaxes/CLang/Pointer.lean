import Mathlib.Data.Option.Basic

/-!
# Addresses and pointees

Expressions of identifiers, literals and the unary operators `&` and `*`, and what they mean in C: an expression
may denote a value, and it may denote a place. A place has a value, the one that is stored there. Neither a
literal nor an address is at a place, so `&` cannot be applied to them.
-/

set_option autoImplicit false

namespace CLang

/-- The two operators. -/
inductive UnaryOp where
  | addr
  | deref
deriving DecidableEq

/-- Expressions. -/
inductive Expr where
  | ident (name : String)
  | literal (value : Nat)
  | unary (operator : UnaryOp) (right : Expr)
deriving DecidableEq

/-- The places of identifiers, and what is stored at places. -/
structure Memory where
  place : String → Option Nat
  read : Nat → Option Nat

mutual

/-- The place an expression denotes. -/
def Expr.lval (m : Memory) : Expr → Option Nat
  | .ident name => m.place name
  | .literal _ => none
  | .unary .addr _ => none
  | .unary .deref right => right.eval m

/-- The value an expression denotes. -/
def Expr.eval (m : Memory) : Expr → Option Nat
  | .ident name => (m.place name).bind m.read
  | .literal value => some value
  | .unary .addr right => right.lval m
  | .unary .deref right => (right.eval m).bind m.read

end

namespace Expr

/-- The expressions that have a place. -/
def IsLvalue : Expr → Prop
  | ident _ => True
  | literal _ => False
  | unary .addr _ => False
  | unary .deref _ => True

/-- `&` is applied to expressions with a place only. -/
def Valid : Expr → Prop
  | ident _ => True
  | literal _ => True
  | unary .addr right => right.IsLvalue ∧ right.Valid
  | unary .deref right => right.Valid

variable {m : Memory} {e : Expr}

theorem eval_addr : (unary .addr e).eval m = e.lval m := by rw [eval]

theorem eval_deref : (unary .deref e).eval m = (e.eval m).bind m.read := by rw [eval]

theorem lval_deref : (unary .deref e).lval m = e.eval m := by rw [lval]

theorem lval_of_not_lvalue (h : ¬ e.IsLvalue) : e.lval m = none := by
  cases e with
  | ident name => exact absurd trivial h
  | literal value => rw [lval]
  | unary operator right =>
    cases operator with
    | addr => rw [lval]
    | deref => exact absurd trivial h

/-- The value of an expression with a place is what is stored there. -/
theorem eval_of_lvalue (h : e.IsLvalue) : e.eval m = (e.lval m).bind m.read := by
  cases e with
  | ident name => rw [eval, lval]
  | literal value => exact h.elim
  | unary operator right =>
    cases operator with
    | addr => exact h.elim
    | deref => rw [eval_deref, lval_deref]

/-- An expression that is not valid denotes neither a value nor a place. -/
theorem none_of_not_valid (h : ¬ e.Valid) : e.eval m = none ∧ e.lval m = none := by
  induction e with
  | ident name => exact absurd trivial h
  | literal value => exact absurd trivial h
  | unary operator right ih =>
    cases operator with
    | addr =>
      refine ⟨?_, lval_of_not_lvalue id⟩
      rw [eval_addr]
      by_cases hlvalue : right.IsLvalue
      · exact (ih fun hvalid => h ⟨hlvalue, hvalid⟩).2
      · exact lval_of_not_lvalue hlvalue
    | deref =>
      have hright := (ih h).1
      exact ⟨by rw [eval_deref, hright, Option.bind_none], by rw [lval_deref, hright]⟩

/-- In some memory a valid expression denotes a value, and a place if it can. -/
theorem some_of_valid (h : e.Valid) :
    (e.eval ⟨fun _ => some 0, fun _ => some 0⟩).isSome ∧
      (e.IsLvalue → (e.lval ⟨fun _ => some 0, fun _ => some 0⟩).isSome) := by
  induction e with
  | ident name => exact ⟨by rw [eval]; rfl, fun _ => by rw [lval]; rfl⟩
  | literal value => exact ⟨by rw [eval]; rfl, fun hlvalue => hlvalue.elim⟩
  | unary operator right ih =>
    cases operator with
    | addr => exact ⟨by rw [eval_addr]; exact (ih h.2).2 h.1, fun hlvalue => hlvalue.elim⟩
    | deref =>
      obtain ⟨v, hv⟩ := Option.isSome_iff_exists.1 (ih h).1
      exact ⟨by rw [eval_deref, hv]; rfl, fun _ => by rw [lval_deref, hv]; rfl⟩

/-- **The value of an expression is what is stored at its place**, in every memory, exactly when it has a place or
is not valid. -/
theorem eval_eq_read_lval_iff :
    (∀ m : Memory, e.eval m = (e.lval m).bind m.read) ↔ e.IsLvalue ∨ ¬ e.Valid := by
  constructor
  · intro h
    by_contra hneither
    obtain ⟨hlvalue, hvalid⟩ := not_or.1 hneither
    have hsome := (some_of_valid (not_not.1 hvalid)).1
    rw [h, lval_of_not_lvalue hlvalue] at hsome
    cases hsome
  · rintro (hlvalue | hvalid) m
    · exact eval_of_lvalue hlvalue
    · rw [(none_of_not_valid hvalid).1, (none_of_not_valid hvalid).2, Option.bind_none]

end Expr

end CLang
