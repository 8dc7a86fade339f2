import Mathlib.Init

/-!
# While loops

A `while` is a relation between the state before it and the state after it: there is a state after it exactly when it
comes to an end. A run with a bound on the turns computes that state when the bound is large enough (`while_runWhile`),
and what each turn keeps holds afterwards (`While.keeps`).
-/

set_option autoImplicit false

namespace CodeWorker

variable {σ : Type} {cond : σ → Prop} {body : σ → σ}

/-- `while (cond) body`, from the state before it to the state after it. -/
inductive While (cond : σ → Prop) (body : σ → σ) : σ → σ → Prop
  | stop {s : σ} : ¬ cond s → While cond body s s
  | turn {s t : σ} : cond s → While cond body (body s) t → While cond body s t

/-- The loop, with a bound on its turns. -/
def runWhile (cond : σ → Prop) [DecidablePred cond] (body : σ → σ) : Nat → σ → σ
  | 0, s => s
  | fuel + 1, s => if cond s then runWhile cond body fuel (body s) else s

namespace While

theorem exit {s t : σ} (h : While cond body s t) : ¬ cond t := by
  induction h with
  | stop hstop => exact hstop
  | turn _ _ ih => exact ih

/-- **The invariant rule.** -/
theorem keeps {I : σ → Prop} (hturn : ∀ s, cond s → I s → I (body s)) {s t : σ} (h : While cond body s t)
    (hs : I s) : I t := by
  induction h with
  | stop _ => exact hs
  | turn hcond _ ih => exact ih (hturn _ hcond hs)

end While

/-- **A loop with a measure** comes to an end, at what as many turns compute. -/
theorem while_runWhile [DecidablePred cond] (measure : σ → Nat)
    (hdec : ∀ s, cond s → measure (body s) < measure s) :
    ∀ {fuel : Nat} {s : σ}, measure s ≤ fuel → While cond body s (runWhile cond body fuel s) := by
  intro fuel
  induction fuel with
  | zero =>
    intro s hs
    refine .stop fun hcond => ?_
    have hlt := hdec s hcond
    omega
  | succ fuel ih =>
    intro s hs
    unfold runWhile
    split
    · rename_i hcond
      have hlt := hdec s hcond
      exact .turn hcond (ih (by omega))
    · rename_i hcond
      exact .stop hcond

end CodeWorker
