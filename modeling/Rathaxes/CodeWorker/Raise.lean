import Mathlib.Tactic.Common

/-!
# Computations that may raise an error

A script ends with a result or with an error. `Ends` is what is said of both at once, with a rule for sequences.

`Keeps` is a relation between a computation and a family of them that sequences keep. That all of the family are equal
to the computation is one such relation; another is that they have its result from some number on (`Reaches`), which
is how a function with fuel comes close to one without.
-/

set_option autoImplicit false

namespace CodeWorker

variable {α β : Type}

/-! ## What a computation ends with -/

/-- A result of a kind, or an error of a kind. -/
def Ends (P : α → Prop) (E : String → Prop) : Except String α → Prop
  | .ok a => P a
  | .error e => E e

namespace Ends

variable {P : α → Prop} {Q : β → Prop} {E : String → Prop} {x : Except String α} {f : α → Except String β}

theorem bind (hx : Ends P E x) (hf : ∀ a, P a → Ends Q E (f a)) : Ends Q E (x >>= f) := by
  cases x with
  | error e => exact hx
  | ok a => exact hf a hx

theorem of_eq_ok {a : α} (h : Ends P E x) (hx : x = .ok a) : P a := by
  rw [hx] at h
  exact h

end Ends

/-- Every computation ends. -/
theorem ends_true (x : Except String α) : Ends (fun _ => True) (fun _ => True) x := by
  cases x with
  | error e => exact True.intro
  | ok a => exact True.intro

/-! ## Relations between computations -/

/-- A relation that sequences keep. -/
structure Keeps {ι : Type} (R : {α : Type} → Except String α → (ι → Except String α) → Prop) : Prop where
  refl : ∀ {α : Type} (x : Except String α), R x fun _ => x
  bind : ∀ {α β : Type} {x : Except String α} {y : ι → Except String α} {f : α → Except String β}
    {g : ι → α → Except String β},
    R x y → (∀ a, x = .ok a → R (f a) fun i => g i a) → R (x >>= f) fun i => y i >>= g i

/-- Sequences are equal when they go on in the same way after the result there is. -/
theorem bind_congr_ok {x y : Except String α} {f g : α → Except String β} (hxy : x = y)
    (hfg : ∀ a, x = .ok a → f a = g a) : x >>= f = y >>= g := by
  subst hxy
  cases x with
  | error e => rfl
  | ok a => exact hfg a rfl

theorem keeps_eq {ι : Type} : Keeps (fun x (y : ι → Except String _) => ∀ i, x = y i) where
  refl _ _ := rfl
  bind hxy hfg i := bind_congr_ok (hxy i) fun a ha => hfg a ha i

/-- The computations have the result of the first one from some number on. -/
def Reaches (x : Except String α) (y : Nat → Except String α) : Prop :=
  ∀ a, x = .ok a → ∃ bound, ∀ n, bound ≤ n → y n = .ok a

theorem keeps_reaches : Keeps Reaches where
  refl _ _ h := ⟨0, fun _ _ => h⟩
  bind := by
    intro α β x y f g hxy hfg b h
    cases x with
    | error e => cases h
    | ok a =>
      obtain ⟨bound, hy⟩ := hxy a rfl
      obtain ⟨bound', hg⟩ := hfg a rfl b h
      refine ⟨max bound bound', fun n hn => ?_⟩
      show y n >>= g n = .ok b
      rw [hy n (Nat.le_trans (Nat.le_max_left _ _) hn)]
      exact hg n (Nat.le_trans (Nat.le_max_right _ _) hn)

end CodeWorker
