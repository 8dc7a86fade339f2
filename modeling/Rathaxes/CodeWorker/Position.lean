import Rathaxes.CodeWorker.Table

/-!
# Access by position

`a#[i]` is the entry at a position, whatever its key. A position is the result of arithmetic on
texts, so it may be negative or past the end; the interpreter then raises an error. Every operation
here cuts the array at the position first, and its law says what it does to the two parts: a proof
about positions names the part before the position and never computes an index.
-/

set_option autoImplicit false

namespace CodeWorker

variable {α : Type}

/-- The error of a position the array does not have. -/
def outOfBounds (i : Int) : String := "index out of bounds: " ++ toString i

/-- The entries before a position and those from it on. -/
def cut (xs : List α) (i : Int) : Option (List α × List α) :=
  if 0 ≤ i ∧ i ≤ xs.length then some (xs.take i.toNat, xs.drop i.toNat) else none

/-- Reading `a#[i]`. -/
def getAt (xs : List α) (i : Int) : Except String α :=
  match cut xs i with
  | some (_, x :: _) => .ok x
  | _ => .error (outOfBounds i)

/-- `removeVariable(a#[i])`. -/
def removeAt (xs : List α) (i : Int) : Except String (List α) :=
  match cut xs i with
  | some (l, _ :: r) => .ok (l ++ r)
  | _ => .error (outOfBounds i)

/-- `insertElementAt(a, key, i)` followed by `setall a#[i] = x`. -/
def insertAt (xs : List α) (i : Int) (x : α) : Except String (List α) :=
  match cut xs i with
  | some (l, r) => .ok (l ++ x :: r)
  | none => .error (outOfBounds i)

/-- `setall a#[i] = v`: the entry keeps its key. -/
def replaceAt (xs : List (String × α)) (i : Int) (v : α) : Except String (List (String × α)) :=
  match cut xs i with
  | some (l, (k, _) :: r) => .ok (l ++ (k, v) :: r)
  | _ => .error (outOfBounds i)

/-- `removeElement(a, k)`: the entry under a key goes, the others keep theirs. -/
def removeKey (xs : List (String × α)) (k : String) : List (String × α) :=
  xs.filter (fun e => e.1 ≠ k)

theorem cut_eq_some_iff {xs l r : List α} {i : Int} :
    cut xs i = some (l, r) ↔ xs = l ++ r ∧ (l.length : Int) = i := by
  unfold cut
  constructor
  · intro h
    split at h
    · rename_i hbound
      obtain ⟨rfl, rfl⟩ := Prod.mk.inj (Option.some.inj h)
      refine ⟨(List.take_append_drop _ _).symm, ?_⟩
      rw [List.length_take]
      omega
    · cases h
  · rintro ⟨rfl, rfl⟩
    rw [if_pos ⟨by omega, by rw [List.length_append]; omega⟩, Int.toNat_natCast,
      List.take_left, List.drop_left]

theorem getAt_between {l r : List α} {x : α} : getAt (l ++ x :: r) l.length = .ok x := by
  unfold getAt
  rw [cut_eq_some_iff.2 ⟨rfl, rfl⟩]

theorem mem_of_getAt {xs : List α} {i : Int} {x : α} (h : getAt xs i = .ok x) : x ∈ xs := by
  unfold getAt at h
  split at h
  · rename_i l y r hcut
    cases h
    rw [(cut_eq_some_iff.1 hcut).1]
    exact List.mem_append_right l List.mem_cons_self
  · cases h

theorem removeAt_eq_ok_iff {xs ys : List α} {i : Int} :
    removeAt xs i = .ok ys ↔
      ∃ l x r, xs = l ++ x :: r ∧ (l.length : Int) = i ∧ ys = l ++ r := by
  unfold removeAt
  constructor
  · intro h
    split at h
    · rename_i l x r hcut
      obtain ⟨hxs, hlen⟩ := cut_eq_some_iff.1 hcut
      exact ⟨l, x, r, hxs, hlen, (Except.ok.inj h).symm⟩
    · cases h
  · rintro ⟨l, x, r, hxs, hlen, rfl⟩
    rw [cut_eq_some_iff.2 ⟨hxs, hlen⟩]

theorem insertAt_eq_ok_iff {xs ys : List α} {i : Int} {x : α} :
    insertAt xs i x = .ok ys ↔
      ∃ l r, xs = l ++ r ∧ (l.length : Int) = i ∧ ys = l ++ x :: r := by
  unfold insertAt
  constructor
  · intro h
    split at h
    · rename_i l r hcut
      obtain ⟨hxs, hlen⟩ := cut_eq_some_iff.1 hcut
      exact ⟨l, r, hxs, hlen, (Except.ok.inj h).symm⟩
    · cases h
  · rintro ⟨l, r, hxs, hlen, rfl⟩
    rw [cut_eq_some_iff.2 ⟨hxs, hlen⟩]

theorem replaceAt_eq_ok_iff {xs ys : List (String × α)} {i : Int} {v : α} :
    replaceAt xs i v = .ok ys ↔
      ∃ l k x r, xs = l ++ (k, x) :: r ∧ (l.length : Int) = i ∧ ys = l ++ (k, v) :: r := by
  unfold replaceAt
  constructor
  · intro h
    split at h
    · rename_i l k x r hcut
      obtain ⟨hxs, hlen⟩ := cut_eq_some_iff.1 hcut
      exact ⟨l, k, x, r, hxs, hlen, (Except.ok.inj h).symm⟩
    · cases h
  · rintro ⟨l, k, x, r, hxs, hlen, rfl⟩
    rw [cut_eq_some_iff.2 ⟨hxs, hlen⟩]

/-- An entry that stands in the front part of a list. -/
theorem split_of_front {β : Type} {l r done rest : List β} {x : β} (h : l ++ x :: r = done ++ rest)
    (hlt : l.length < done.length) : ∃ mid, done = l ++ x :: mid ∧ r = mid ++ rest := by
  rcases List.append_eq_append_iff.1 h with ⟨mid, hdone, hrest⟩ | ⟨mid, hl, -⟩
  · cases mid with
    | nil =>
      rw [hdone, List.append_nil] at hlt
      exact absurd hlt (Nat.lt_irrefl _)
    | cons e mid =>
      obtain ⟨rfl, hr⟩ := List.cons.inj hrest
      exact ⟨mid, hdone, hr⟩
  · rw [hl, List.length_append] at hlt
    omega

/-- The entry behind the front part of a list is not changed by an assignment further back. -/
theorem getElem?_of_behind {β : Type} {l r done rest : List β} {x y e : β} (h : l ++ x :: r = done ++ e :: rest)
    (hlt : done.length < l.length) : (l ++ y :: r)[done.length]? = some e := by
  obtain ⟨mid, rfl, -⟩ := split_of_front h.symm hlt
  simp

/-- The entry under a key no other entry has is the only one to go. -/
theorem removeKey_mid {l r : List (String × α)} {k : String} {x : α}
    (hl : ∀ e ∈ l, e.1 ≠ k) (hr : ∀ e ∈ r, e.1 ≠ k) :
    removeKey (l ++ (k, x) :: r) k = l ++ r := by
  have keep : ∀ xs : List (String × α), (∀ e ∈ xs, e.1 ≠ k) →
      xs.filter (fun e => decide (e.1 ≠ k)) = xs := by
    intro xs h
    apply List.filter_eq_self.2
    intro e he
    exact decide_eq_true (h e he)
  rw [removeKey, List.filter_append, List.filter_cons, keep l hl, keep r hr]
  simp

/-! ## The first of a kind

A loop that changes the first entry of a kind and returns. -/

/-- Apply an operation to the first entry that passes a test. -/
def updateFirst (p : α → Bool) (f : α → α) : List α → List α
  | [] => []
  | x :: xs => if p x then f x :: xs else x :: updateFirst p f xs

/-- An update that would not change the first entry that passes the test changes nothing. -/
theorem updateFirst_eq_self {p : α → Bool} {f : α → α} : ∀ {xs : List α},
    (∀ x, xs.find? p = some x → f x = x) → updateFirst p f xs = xs
  | [], _ => rfl
  | x :: xs, h => by
    rw [updateFirst]
    split
    · rename_i hp
      rw [h x (List.find?_cons_of_pos hp)]
    · rename_i hp
      rw [updateFirst_eq_self fun y hy => h y ((List.find?_cons_of_neg hp).trans hy)]

/-- What stands in the list after an update. -/
theorem mem_updateFirst {p : α → Bool} {f : α → α} {x : α} : ∀ {xs : List α},
    x ∈ updateFirst p f xs → x ∈ xs ∨ ∃ y ∈ xs, p y = true ∧ x = f y
  | [], h => Or.inl h
  | a :: xs, h => by
    rw [updateFirst] at h
    split at h
    · rename_i ha
      rcases List.mem_cons.1 h with rfl | h
      · exact Or.inr ⟨a, List.mem_cons_self, ha, rfl⟩
      · exact Or.inl (List.mem_cons_of_mem a h)
    · rcases List.mem_cons.1 h with rfl | h
      · exact Or.inl List.mem_cons_self
      · rcases mem_updateFirst h with h | ⟨y, hy, hp, rfl⟩
        · exact Or.inl (List.mem_cons_of_mem a h)
        · exact Or.inr ⟨y, List.mem_cons_of_mem a hy, hp, rfl⟩

/-- An entry stays in the list, or it passes the test and stands there updated. -/
theorem stays_updateFirst {p : α → Bool} {f : α → α} {x : α} : ∀ {xs : List α},
    x ∈ xs → x ∈ updateFirst p f xs ∨ (p x = true ∧ f x ∈ updateFirst p f xs)
  | a :: xs, h => by
    rw [updateFirst]
    split
    · rename_i ha
      rcases List.mem_cons.1 h with rfl | h
      · exact Or.inr ⟨ha, List.mem_cons_self⟩
      · exact Or.inl (List.mem_cons_of_mem _ h)
    · rcases List.mem_cons.1 h with rfl | h
      · exact Or.inl List.mem_cons_self
      · exact (stays_updateFirst h).imp (List.mem_cons_of_mem a) fun hx => ⟨hx.1, List.mem_cons_of_mem a hx.2⟩

/-- When an entry passes the test, one does and stands there updated. -/
theorem exists_updateFirst {p : α → Bool} {f : α → α} : ∀ {xs : List α}, xs.any p = true →
    ∃ x ∈ xs, p x = true ∧ f x ∈ updateFirst p f xs
  | a :: xs, h => by
    rw [updateFirst]
    split
    · rename_i ha
      exact ⟨a, List.mem_cons_self, ha, List.mem_cons_self⟩
    · rename_i ha
      have hxs : xs.any p = true := by simpa [ha] using h
      obtain ⟨x, hx, hp, hmem⟩ := exists_updateFirst hxs
      exact ⟨x, List.mem_cons_of_mem a hx, hp, List.mem_cons_of_mem a hmem⟩

/-- A relation that the update keeps for what passes the test. -/
theorem forall₂_updateFirst {β : Type} {R : β → α → Prop} {p : α → Bool} {f : α → α}
    (hupdate : ∀ b x, R b x → p x = true → R b (f x)) : ∀ {bs : List β} {xs : List α}, List.Forall₂ R bs xs →
      List.Forall₂ R bs (updateFirst p f xs)
  | [], [], .nil => .nil
  | b :: bs, x :: xs, .cons hx hxs => by
    rw [updateFirst]
    split
    · rename_i hp
      exact .cons (hupdate b x hx hp) hxs
    · exact .cons hx (forall₂_updateFirst hupdate hxs)

/-- What an update keeps of each entry it keeps of the list. -/
theorem flatMap_updateFirst {β : Type} {p : α → Bool} {f : α → α} {g : α → List β} (hsame : ∀ x, g (f x) = g x) :
    ∀ xs : List α, (updateFirst p f xs).flatMap g = xs.flatMap g
  | [] => rfl
  | a :: xs => by
    rw [updateFirst]
    split
    · rw [List.flatMap_cons, List.flatMap_cons, hsame]
    · rw [List.flatMap_cons, List.flatMap_cons, flatMap_updateFirst hsame xs]

section

variable {β : Type} {p : α → Bool} {f : α → α} {g : α → Option β}

/-- A search for what the update is about finds the updated value. -/
theorem findSome?_updateFirst {h : β → β} (hfound : ∀ x, p x = (g x).isSome)
    (hupdate : ∀ x, g (f x) = (g x).map h) :
    ∀ xs : List α, (updateFirst p f xs).findSome? g = (xs.findSome? g).map h
  | [] => rfl
  | x :: xs => by
    rw [updateFirst, List.findSome?_cons, hfound]
    cases hx : g x with
    | none =>
      rw [Option.isSome_none, if_neg Bool.false_ne_true, List.findSome?_cons, hx]
      exact findSome?_updateFirst hfound hupdate xs
    | some b =>
      rw [Option.isSome_some, if_pos rfl, List.findSome?_cons, hupdate, hx]
      rfl

/-- A search the update does not interfere with finds what it found before. -/
theorem findSome?_updateFirst_of_eq (hsame : ∀ x, p x = true → g (f x) = g x) :
    ∀ xs : List α, (updateFirst p f xs).findSome? g = xs.findSome? g
  | [] => rfl
  | x :: xs => by
    rw [updateFirst]
    split
    · rename_i hx
      rw [List.findSome?_cons, List.findSome?_cons, hsame x hx]
    · rw [List.findSome?_cons, List.findSome?_cons, findSome?_updateFirst_of_eq hsame xs]

end

/-- A computation that goes through has gone through its first part. -/
theorem bind_eq_ok_iff {β : Type} {x : Except String α} {f : α → Except String β} {b : β} :
    (x >>= f) = .ok b ↔ ∃ a, x = .ok a ∧ f a = .ok b := by
  cases x with
  | error e =>
    constructor
    · intro h
      cases h
    · rintro ⟨_, h, _⟩
      cases h
  | ok a =>
    constructor
    · intro h
      exact ⟨a, rfl, h⟩
    · rintro ⟨_, ⟨⟩, h⟩
      exact h

/-- One that raises an error raises that of its first part, or goes on and raises one later. -/
theorem bind_eq_error {β : Type} {x : Except String α} {f : α → Except String β} {e : String}
    (h : (x >>= f) = .error e) : x = .error e ∨ ∃ a, x = .ok a ∧ f a = .error e := by
  cases x with
  | error e' =>
    cases h
    exact Or.inl rfl
  | ok a => exact Or.inr ⟨a, rfl, h⟩

/-- What every turn of a loop preserves holds when the loop is through. -/
theorem foldlM_invariant {σ β : Type} {step : σ → β → Except String σ} {P : σ → Prop} :
    ∀ {bs : List β} {s s' : σ}, (∀ s b s', b ∈ bs → P s → step s b = .ok s' → P s') → P s →
      bs.foldlM step s = .ok s' → P s' := by
  intro bs
  induction bs with
  | nil =>
    intro s s' _ hs h
    cases h
    exact hs
  | cons b bs ih =>
    intro s s' hstep hs h
    rw [List.foldlM_cons] at h
    obtain ⟨s₁, hfirst, h⟩ := bind_eq_ok_iff.1 h
    refine ih ?_ (hstep s b s₁ List.mem_cons_self hs hfirst) h
    intro s b' s' hb'
    exact hstep s b' s' (List.mem_cons_of_mem b hb')

/-- When a loop is through, each entry has had its turn. -/
theorem turn_of_foldlM {σ β : Type} {step : σ → β → Except String σ} : ∀ {bs : List β} {s s' : σ},
    bs.foldlM step s = .ok s' → ∀ b ∈ bs, ∃ s₁ s₂, step s₁ b = .ok s₂ := by
  intro bs
  induction bs with
  | nil =>
    intro s s' _ b hb
    cases hb
  | cons b bs ih =>
    intro s s' h
    rw [List.foldlM_cons] at h
    obtain ⟨s₁, hfirst, hrest⟩ := bind_eq_ok_iff.1 h
    exact List.forall_mem_cons.2 ⟨⟨s, s₁, hfirst⟩, ih hrest⟩

/-- A turn that raises an error unless a condition holds, and otherwise does nothing. -/
def Guards {σ β : Type} (step : σ → β → Except String σ) (P : β → Prop) : Prop :=
  ∀ s b s', step s b = .ok s' ↔ P b ∧ s' = s

/-- A loop of such turns is one for the condition on all entries. -/
theorem Guards.foldlM {σ β : Type} {step : σ → β → Except String σ} {P : β → Prop}
    (h : Guards step P) : Guards (fun s bs => List.foldlM step s bs) fun bs => ∀ b ∈ bs, P b := by
  intro s bs s'
  show List.foldlM step s bs = .ok s' ↔ (∀ b ∈ bs, P b) ∧ s' = s
  induction bs with
  | nil =>
    constructor
    · rintro ⟨⟩
      exact ⟨fun b hb => (nomatch hb), rfl⟩
    · rintro ⟨-, rfl⟩
      rfl
  | cons b bs ih =>
    rw [List.foldlM_cons, bind_eq_ok_iff, List.forall_mem_cons, and_assoc, ← ih]
    constructor
    · rintro ⟨s₁, hfirst, hrest⟩
      obtain ⟨hb, rfl⟩ := (h s b s₁).1 hfirst
      exact ⟨hb, hrest⟩
    · rintro ⟨hb, hrest⟩
      exact ⟨s, (h s b s).2 ⟨hb, rfl⟩, hrest⟩

end CodeWorker
