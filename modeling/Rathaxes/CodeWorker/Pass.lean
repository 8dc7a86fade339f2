import Mathlib.Data.List.Forall2
import Rathaxes.CodeWorker.Position

/-!
# Passes that rewrite a tree and may fail

A pass goes over the items of a list with a state, rewrites each item and says whether it is in order. It
goes on after an item that is not, so that all errors are shown. A computation that does not come to an end
has no result.

`Ensures I f Q` says that `f` keeps the invariant `I` of the state and that its results have `Q`.
-/

set_option autoImplicit false

namespace CodeWorker

variable {σ α β : Type} {I : σ → Prop}

/-! ## What a computation ensures -/

/-- When `f` has a result, the invariant is kept and the result is as stated. -/
def Ensures (I : σ → Prop) (f : StateT σ Option α) (Q : α → Prop) : Prop :=
  ∀ ⦃s : σ⦄, I s → ∀ ⦃r : α × σ⦄, f s = some r → I r.2 ∧ Q r.1

theorem ensures_pure {a : α} {Q : α → Prop} (h : Q a) : Ensures I (pure a) Q := by
  intro s hs r hr
  cases hr
  exact ⟨hs, h⟩

theorem ensures_get : Ensures I get I := by
  intro s hs r hr
  cases hr
  exact ⟨hs, hs⟩

theorem ensures_set {s' : σ} (h : I s') : Ensures I (set s') fun _ => True := by
  intro s _ r hr
  cases hr
  exact ⟨h, trivial⟩

theorem Ensures.bind {f : StateT σ Option α} {g : α → StateT σ Option β} {P : α → Prop} {Q : β → Prop}
    (hf : Ensures I f P) (hg : ∀ a, P a → Ensures I (g a) Q) : Ensures I (f >>= g) Q := by
  intro s hs r hr
  obtain ⟨⟨a, t⟩, hft, hgt⟩ := Option.bind_eq_some_iff.1 hr
  obtain ⟨ht, ha⟩ := hf hs hft
  exact hg a ha ht hgt

theorem Ensures.mono {f : StateT σ Option α} {P Q : α → Prop} (hf : Ensures I f P)
    (h : ∀ a, P a → Q a) : Ensures I f Q := by
  intro s hs r hr
  obtain ⟨ht, ha⟩ := hf hs hr
  exact ⟨ht, h _ ha⟩

theorem ensures_ite {c : Prop} [Decidable c] {f g : StateT σ Option α} {Q : α → Prop}
    (hf : c → Ensures I f Q) (hg : ¬ c → Ensures I g Q) : Ensures I (if c then f else g) Q := by
  split
  · exact hf ‹c›
  · exact hg ‹¬ c›

/-! ## What a computation does -/

/-- The rest of a computation goes on with the result of the first part. -/
theorem bind_run {f : StateT σ Option α} {g : α → StateT σ Option β} {s t : σ} {a : α} (h : f s = some (a, t)) :
    (f >>= g) s = g a t := by
  show (f s).bind _ = _
  rw [h]
  rfl

/-! ## Loops -/

/-- The loop of a pass: every item is checked, and the list is in order when all of them are. -/
def checkEach (check : α → StateT σ Option (Bool × α)) : List α → StateT σ Option (Bool × List α)
  | [] => pure (true, [])
  | item :: items => do
    let (ok, item') ← check item
    let (oks, items') ← checkEach check items
    pure (ok && oks, item' :: items')

/-- **A loop ensures of a list that is in order** what the check ensures of each item. -/
theorem ensures_checkEach {check : α → StateT σ Option (Bool × α)} {R : α → α → Prop} :
    ∀ {items : List α}, (∀ item ∈ items, Ensures I (check item) fun r => r.1 = true → R item r.2) →
      Ensures I (checkEach check items) fun r => r.1 = true → List.Forall₂ R items r.2
  | [], _ => ensures_pure fun _ => List.Forall₂.nil
  | item :: items, h => by
    obtain ⟨hitem, hitems⟩ := List.forall_mem_cons.1 h
    refine hitem.bind fun r hr => (ensures_checkEach hitems).bind fun rs hrs => ensures_pure ?_
    intro hok
    obtain ⟨hok, hoks⟩ := Bool.and_eq_true_iff.1 hok
    exact List.Forall₂.cons (hr hok) (hrs hoks)

/-- A list is not in order when one of its items never is. -/
theorem ensures_checkEach_refused {check : α → StateT σ Option (Bool × α)} {item : α}
    (hitem : Ensures (fun _ => True) (check item) fun r => r.1 = false) :
    ∀ {items : List α}, item ∈ items → Ensures (fun _ => True) (checkEach check items) fun r => r.1 = false
  | first :: items, hmem => by
    rcases List.mem_cons.1 hmem with rfl | hmem
    · refine hitem.bind fun r hr => ?_
      have hany : Ensures (fun _ => True) (checkEach check items) fun _ => True := fun _ _ _ _ => ⟨trivial, trivial⟩
      refine hany.bind fun rs _ => ensures_pure ?_
      rw [hr, Bool.false_and]
    · have hany : Ensures (fun _ => True) (check first) fun _ => True := fun _ _ _ _ => ⟨trivial, trivial⟩
      refine hany.bind fun r _ => (ensures_checkEach_refused hitem hmem).bind fun rs hrs => ensures_pure ?_
      rw [hrs, Bool.and_false]

/-- The loop of a pass without a state, which may raise an error. -/
def checkAll (check : α → Except String (Option (α × Bool))) : List α → Except String (Option (List α × Bool))
  | [] => .ok (some ([], true))
  | item :: items => do
    match ← check item with
    | none => return none
    | some (item', ok) =>
      match ← checkAll check items with
      | none => return none
      | some (items', oks) => return some (item' :: items', ok && oks)

/-- **What such a loop leaves of a list that is in order** is what the check leaves of each item. -/
theorem forall₂_of_checkAll {check : α → Except String (Option (α × Bool))} :
    ∀ {items items' : List α}, checkAll check items = .ok (some (items', true)) →
      List.Forall₂ (fun item item' => check item = .ok (some (item', true))) items items'
  | [], items', h => by
    cases h
    exact List.Forall₂.nil
  | item :: items, items', h => by
    obtain ⟨checked, hcheck, h⟩ := bind_eq_ok_iff.1 h
    cases checked with
    | none => cases h
    | some checked =>
      obtain ⟨rest, hrest, h⟩ := bind_eq_ok_iff.1 h
      cases rest with
      | none => cases h
      | some rest =>
        obtain ⟨item', ok⟩ := checked
        obtain ⟨items', oks⟩ := rest
        have hresult := Option.some.inj (Except.ok.inj h)
        simp only [Prod.mk.injEq, Bool.and_eq_true] at hresult
        obtain ⟨rfl, rfl, rfl⟩ := hresult
        exact List.Forall₂.cons hcheck (forall₂_of_checkAll hrest)

/-- What is in the list that a loop leaves was left of an item. -/
theorem exists_left_of_forall₂ {P : α → β → Prop} {as : List α} {bs : List β} {b : β} (h : List.Forall₂ P as bs)
    (hb : b ∈ bs) : ∃ a ∈ as, P a b := by
  induction h with
  | nil => cases hb
  | @cons a b' as bs hab hrest ih =>
    rcases List.mem_cons.1 hb with rfl | hb
    · exact ⟨a, List.mem_cons_self, hab⟩
    · obtain ⟨a', ha', hP⟩ := ih hb
      exact ⟨a', List.mem_cons_of_mem _ ha', hP⟩

/-- Something is left of every item. -/
theorem exists_right_of_forall₂ {P : α → β → Prop} {as : List α} {bs : List β} {a : α} (h : List.Forall₂ P as bs)
    (ha : a ∈ as) : ∃ b ∈ bs, P a b :=
  exists_left_of_forall₂ h.flip ha

/-- A property of the items is carried over to the rewritten list. -/
theorem forall_iff_of_forall₂ {P : α → Prop} {Q : β → Prop} {as : List α} {bs : List β}
    (h : List.Forall₂ (fun a b => Q b ↔ P a) as bs) : (∀ b ∈ bs, Q b) ↔ ∀ a ∈ as, P a := by
  induction h with
  | nil => simp
  | cons hab _ ih => rw [List.forall_mem_cons, List.forall_mem_cons, hab, ih]

end CodeWorker
