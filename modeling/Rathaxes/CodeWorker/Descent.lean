import Mathlib.Data.Fintype.Card
import Mathlib.Data.Set.Finite.Basic
import Mathlib.Logic.Relation

/-!
# Functions that call themselves along a graph

A function that calls itself for the nodes next to a node, and keeps no list of those it has met, has a
result exactly where no infinite path starts. Such a function is modelled with a fuel argument, and the
question is whether some fuel is enough.

`Grounded` says that no infinite path starts at a node. `terminates_of_grounded` and
`grounded_of_terminates` are the two directions for a function with fuel: it has to be shown that one
turn is through when the calls are, and that it makes all of them. On a finite graph a node is grounded
when no path leads from it to a cycle (`grounded_iff`).
-/

set_option autoImplicit false

namespace CodeWorker

variable {ν α σ ρ : Type}

/-! ## Cycles -/

/-- A call from a node to one next to it. -/
def Calls (next : ν → List ν) (n m : ν) : Prop := m ∈ next n

/-- A path leads to a node that lies on a cycle. -/
def LeadsToCycle (next : ν → List ν) (n : ν) : Prop :=
  ∃ m, Relation.ReflTransGen (Calls next) n m ∧ Relation.TransGen (Calls next) m m

/-- No infinite path starts at the node. -/
def Grounded (next : ν → List ν) (n : ν) : Prop := Acc (fun m n => Calls next n m) n

variable {next : ν → List ν}

theorem Grounded.reach {n m : ν} (h : Grounded next n)
    (hreach : Relation.ReflTransGen (Calls next) n m) : Grounded next m := by
  induction hreach with
  | refl => exact h
  | tail _ hstep ih => exact ih.inv hstep

/-- A node on a cycle is not grounded. -/
theorem Grounded.not_cycle {n : ν} (h : Grounded next n) :
    ¬ Relation.TransGen (Calls next) n n := by
  induction h with
  | intro n _ ih =>
    intro hcycle
    obtain ⟨m, hstep, hback⟩ := Relation.TransGen.head'_iff.1 hcycle
    exact ih m hstep (Relation.TransGen.tail' hback hstep)

/-- **On a finite graph** the nodes that are not grounded are those that lead to a cycle. -/
theorem grounded_iff {nodes : List ν} (hfinite : ∀ n, ∀ m ∈ next n, m ∈ nodes) {n : ν} :
    Grounded next n ↔ ¬ LeadsToCycle next n := by
  constructor
  · rintro h ⟨m, hreach, hcycle⟩
    exact (h.reach hreach).not_cycle hcycle
  · intro h
    -- the nodes that can be reached, ordered by the paths between them
    let Reached := { m : ν // m ∈ nodes ∧ Relation.ReflTransGen (Calls next) n m }
    have : Finite Reached := (nodes.finite_toSet.subset fun m hm => hm.1).to_subtype
    let below : Reached → Reached → Prop := fun a b => Relation.TransGen (Calls next) b.1 a.1
    have : IsTrans Reached below := ⟨fun a b c hab hbc => hbc.trans hab⟩
    have : Std.Irrefl below := ⟨fun a hcycle => h ⟨a.1, a.2.2, hcycle⟩⟩
    have hwf : WellFounded below := Finite.wellFounded_of_trans_of_irrefl below
    have hall : ∀ m : Reached, Grounded next m.1 := by
      intro m
      induction m using hwf.induction with
      | h m ih =>
        constructor
        intro m' hstep
        have hreached : m' ∈ nodes ∧ Relation.ReflTransGen (Calls next) n m' :=
          ⟨hfinite m.1 m' hstep, m.2.2.tail hstep⟩
        exact ih ⟨m', hreached⟩ (Relation.TransGen.single hstep)
    constructor
    intro m hstep
    exact hall ⟨m, hfinite n m hstep, Relation.ReflTransGen.single hstep⟩

/-! ## Functions with fuel -/

/-- With enough fuel there is a result. -/
def Terminates (run : Nat → Option ρ) : Prop := ∃ bound, ∀ fuel, bound ≤ fuel → (run fuel).isSome

/-- One bound for the entries of a list. -/
theorem exists_bound {P : α → Nat → Prop} {as : List α}
    (h : ∀ a ∈ as, ∃ bound, ∀ fuel, bound ≤ fuel → P a fuel) :
    ∃ bound, ∀ fuel, bound ≤ fuel → ∀ a ∈ as, P a fuel := by
  induction as with
  | nil => exact ⟨0, fun _ _ a ha => (nomatch ha)⟩
  | cons a as ih =>
    obtain ⟨hfirst, hrest⟩ := List.forall_mem_cons.1 h
    obtain ⟨b₁, h₁⟩ := hfirst
    obtain ⟨b₂, h₂⟩ := ih hrest
    refine ⟨max b₁ b₂, fun fuel hfuel => List.forall_mem_cons.2 ⟨?_, ?_⟩⟩
    · exact h₁ fuel (le_trans (le_max_left b₁ b₂) hfuel)
    · exact h₂ fuel (le_trans (le_max_right b₁ b₂) hfuel)

/-- **A function that calls itself for nodes next to the node only** has a result where no infinite path
starts, with one bound for all its other arguments. -/
theorem terminates_of_grounded {run : Nat → ν → σ → Option ρ}
    (hturn : ∀ fuel n, (∀ m ∈ next n, ∀ s, (run fuel m s).isSome) → ∀ s, (run (fuel + 1) n s).isSome)
    {n : ν} (h : Grounded next n) : ∃ bound, ∀ fuel, bound ≤ fuel → ∀ s, (run fuel n s).isSome := by
  induction h with
  | intro n _ ih =>
    obtain ⟨bound, hbound⟩ := exists_bound (P := fun m fuel => ∀ s, (run fuel m s).isSome)
      fun m (hm : m ∈ next n) => ih m hm
    refine ⟨bound + 1, fun fuel hfuel => ?_⟩
    obtain ⟨k, rfl⟩ := Nat.exists_eq_add_of_le' (Nat.le_of_add_left_le hfuel)
    exact hturn k n (hbound k (Nat.le_of_add_le_add_right hfuel))

/-- **A function that calls itself for all nodes next to the node**, if its other arguments are of some
kind, has no result where an infinite path starts. -/
theorem grounded_of_terminates {run : Nat → ν → σ → Option ρ} {P : σ → Prop}
    (hzero : ∀ n s, run 0 n s = none)
    (hturn : ∀ fuel n s, P s → (run (fuel + 1) n s).isSome →
      ∀ m ∈ next n, ∃ s', P s' ∧ (run fuel m s').isSome) :
    ∀ {fuel : Nat} {n : ν} {s : σ}, P s → (run fuel n s).isSome → Grounded next n := by
  intro fuel
  induction fuel with
  | zero =>
    intro n s _ h
    rw [hzero] at h
    cases h
  | succ fuel ih =>
    intro n s hs h
    constructor
    intro m hm
    obtain ⟨s', hs', hrun⟩ := hturn fuel n s hs h m hm
    exact ih hs' hrun

section Fuel

variable {G : Nat → ν → Prop}

/-- The same for what is true of some fuel and node. -/
theorem exists_fuel_of_grounded (hturn : ∀ fuel n, (∀ m ∈ next n, G fuel m) → G (fuel + 1) n) {n : ν}
    (h : Grounded next n) : ∃ bound, ∀ fuel, bound ≤ fuel → G fuel n := by
  induction h with
  | intro n _ ih =>
    obtain ⟨bound, hbound⟩ := exists_bound (P := fun m fuel => G fuel m) fun m (hm : m ∈ next n) => ih m hm
    refine ⟨bound + 1, fun fuel hfuel => ?_⟩
    obtain ⟨k, rfl⟩ := Nat.exists_eq_add_of_le' (Nat.le_of_add_left_le hfuel)
    exact hturn k n (hbound k (Nat.le_of_add_le_add_right hfuel))

theorem grounded_of_fuel (hzero : ∀ n, ¬ G 0 n) (hturn : ∀ fuel n, G (fuel + 1) n → ∀ m ∈ next n, G fuel m) :
    ∀ {fuel : Nat} {n : ν}, G fuel n → Grounded next n := by
  intro fuel
  induction fuel with
  | zero => exact fun h => absurd h (hzero _)
  | succ fuel ih =>
    intro n h
    constructor
    intro m hm
    exact ih (hturn fuel n h m hm)

end Fuel

/-! ## Loops over the calls -/

/-- A loop that does not look at what its turns return, and returns false. -/
def callAll (step : σ → α → Option (Bool × σ)) : σ → List α → Option (Bool × σ)
  | s, [] => some (false, s)
  | s, a :: as => (step s a).bind fun r => callAll step r.2 as

/-- A loop whose turns are all through is through. -/
theorem isSome_callAll {step : σ → α → Option (Bool × σ)} :
    ∀ {as : List α} {s : σ}, (∀ a ∈ as, ∀ s, (step s a).isSome) → (callAll step s as).isSome := by
  intro as
  induction as with
  | nil =>
    intro s _
    rfl
  | cons a as ih =>
    intro s h
    obtain ⟨hfirst, hrest⟩ := List.forall_mem_cons.1 h
    obtain ⟨r, hr⟩ := Option.isSome_iff_exists.1 (hfirst s)
    rw [callAll, hr, Option.bind_some]
    exact ih hrest

/-- A loop that is through has made all its turns, each from a state with what the turns preserve. -/
theorem turns_of_callAll {step : σ → α → Option (Bool × σ)} {P : σ → Prop}
    (hstep : ∀ s a r, P s → step s a = some r → P r.2) :
    ∀ {as : List α} {s : σ} {r : Bool × σ}, P s → callAll step s as = some r →
      P r.2 ∧ ∀ a ∈ as, ∃ s', P s' ∧ (step s' a).isSome := by
  intro as
  induction as with
  | nil =>
    intro s r hs h
    cases h
    exact ⟨hs, fun a ha => (nomatch ha)⟩
  | cons a as ih =>
    intro s r hs h
    obtain ⟨r₁, hfirst, hrest⟩ := Option.bind_eq_some_iff.1 h
    obtain ⟨hend, hturns⟩ := ih (hstep s a r₁ hs hfirst) hrest
    exact ⟨hend, List.forall_mem_cons.2 ⟨⟨s, hs, by rw [hfirst]; rfl⟩, hturns⟩⟩

/-- A loop that returns as soon as a turn returns true. -/
def untilTrue (step : σ → α → Option (Bool × σ)) : σ → List α → Option (Bool × σ)
  | s, [] => some (false, s)
  | s, a :: as =>
    (step s a).bind fun r => if r.1 then some r else untilTrue step r.2 as

theorem isSome_untilTrue {step : σ → α → Option (Bool × σ)} :
    ∀ {as : List α} {s : σ}, (∀ a ∈ as, ∀ s, (step s a).isSome) → (untilTrue step s as).isSome := by
  intro as
  induction as with
  | nil =>
    intro s _
    rfl
  | cons a as ih =>
    intro s h
    obtain ⟨hfirst, hrest⟩ := List.forall_mem_cons.1 h
    obtain ⟨r, hr⟩ := Option.isSome_iff_exists.1 (hfirst s)
    rw [untilTrue, hr, Option.bind_some]
    split
    · rfl
    · exact ih hrest

/-! ## What the loops keep -/

section Keep

variable {step : σ → α → Option (Bool × σ)} {P T : σ → Prop}

theorem callAll_keeps : ∀ {as : List α} {s : σ} {r : Bool × σ},
    (∀ a ∈ as, ∀ s r, P s → step s a = some r → P r.2) → P s → callAll step s as = some r →
      r.1 = false ∧ P r.2
  | [], _, _, _, hs, h => by
    cases h
    exact ⟨rfl, hs⟩
  | a :: as, s, r, hstep, hs, h => by
    obtain ⟨hfirst, hrest⟩ := List.forall_mem_cons.1 hstep
    obtain ⟨r₁, hr₁, htail⟩ := Option.bind_eq_some_iff.1 h
    exact callAll_keeps hrest (hfirst s r₁ hs hr₁) htail

/-- A loop whose turns each follow a list follows these lists in order. -/
theorem callAll_follows {β : Type} {F : List β → σ → σ → Prop} {trace : α → List β}
    (hnil : ∀ s, F [] s s)
    (happend : ∀ l l' s t u, F l s t → F l' t u → F (l ++ l') s u) :
    ∀ {as : List α} {s : σ} {r : Bool × σ},
      (∀ a ∈ as, ∀ s r, P s → step s a = some r → P r.2 ∧ F (trace a) s r.2) → P s →
      callAll step s as = some r → r.1 = false ∧ P r.2 ∧ F (as.flatMap trace) s r.2
  | [], s, _, _, hs, h => by
    cases h
    exact ⟨rfl, hs, hnil s⟩
  | a :: as, s, r, hstep, hs, h => by
    obtain ⟨hfirst, hrest⟩ := List.forall_mem_cons.1 hstep
    obtain ⟨r₁, hr₁, htail⟩ := Option.bind_eq_some_iff.1 h
    obtain ⟨hs₁, hturn⟩ := hfirst s r₁ hs hr₁
    obtain ⟨hfalse, hend, hloop⟩ := callAll_follows hnil happend hrest hs₁ htail
    exact ⟨hfalse, hend, happend _ _ _ _ _ hturn hloop⟩

/-- A turn that returns true ends the loop, so what it leaves is what the loop leaves. -/
theorem untilTrue_keeps : ∀ {as : List α} {s : σ} {r : Bool × σ},
    (∀ a ∈ as, ∀ s r, P s → step s a = some r → P r.2 ∧ (r.1 = true → T r.2)) → P s →
      untilTrue step s as = some r → P r.2 ∧ (r.1 = true → T r.2)
  | [], _, _, _, hs, h => by
    cases h
    exact ⟨hs, fun htrue => (nomatch htrue)⟩
  | a :: as, s, r, hstep, hs, h => by
    obtain ⟨hfirst, hrest⟩ := List.forall_mem_cons.1 hstep
    obtain ⟨r₁, hr₁, htail⟩ := Option.bind_eq_some_iff.1 h
    have hturn := hfirst s r₁ hs hr₁
    split at htail
    · cases htail
      exact hturn
    · exact untilTrue_keeps hrest hturn.1 htail

/-- Turns that leave the state as it is, with a verdict on each entry: the loop finds out whether one is
positive. -/
theorem untilTrue_verdict {V : α → Prop} {s : σ} : ∀ {as : List α} {r : Bool × σ},
    (∀ a ∈ as, ∀ r, step s a = some r → r.2 = s ∧ (r.1 = true ↔ V a)) → untilTrue step s as = some r →
      r.2 = s ∧ (r.1 = true ↔ ∃ a ∈ as, V a)
  | [], _, _, h => by
    cases h
    exact ⟨rfl, by simp⟩
  | a :: as, r, hstep, h => by
    obtain ⟨hfirst, hrest⟩ := List.forall_mem_cons.1 hstep
    obtain ⟨r₁, hr₁, htail⟩ := Option.bind_eq_some_iff.1 h
    obtain ⟨hstate, hverdict⟩ := hfirst r₁ hr₁
    rw [List.exists_mem_cons_iff]
    split at htail
    · rename_i htrue
      cases htail
      exact ⟨hstate, iff_of_true htrue (.inl (hverdict.1 htrue))⟩
    · rename_i hfalse
      rw [hstate] at htail
      obtain ⟨hend, hloop⟩ := untilTrue_verdict hrest htail
      refine ⟨hend, hloop.trans ⟨.inr, fun h => h.resolve_left fun hv => hfalse (hverdict.2 hv)⟩⟩

/-- Turns that keep a property and return true for the entries of a kind only, as long as no entry of the kind came
before: so does the loop. -/
theorem untilTrue_course {M : α → Prop} : ∀ {as : List α} {s : σ} {r : Bool × σ},
    (∀ before a after, as = before ++ a :: after → (∀ b ∈ before, ¬ M b) → ∀ s r, P s → step s a = some r →
      P r.2 ∧ (r.1 = true → T r.2) ∧ (r.1 = true ↔ M a)) → P s → untilTrue step s as = some r →
        P r.2 ∧ (r.1 = true → T r.2) ∧ (r.1 = true ↔ ∃ a ∈ as, M a)
  | [], _, _, _, hs, h => by
    cases h
    exact ⟨hs, fun htrue => (nomatch htrue), by simp⟩
  | a :: as, s, r, hstep, hs, h => by
    obtain ⟨r₁, hr₁, htail⟩ := Option.bind_eq_some_iff.1 h
    obtain ⟨hkept, hfound, hkind⟩ := hstep [] a as rfl (by simp) s r₁ hs hr₁
    rw [List.exists_mem_cons_iff]
    split at htail
    · rename_i htrue
      cases htail
      exact ⟨hkept, hfound, iff_of_true htrue (.inl (hkind.1 htrue))⟩
    · rename_i hfalse
      have hnot : ¬ M a := fun ha => hfalse (hkind.2 ha)
      have hrest := untilTrue_course (fun before b after hsplit hbefore => hstep (a :: before) b after
        (by rw [hsplit, List.cons_append]) (List.forall_mem_cons.2 ⟨hnot, hbefore⟩)) hkept htail
      exact ⟨hrest.1, hrest.2.1, hrest.2.2.trans ⟨.inr, fun h => h.resolve_left hnot⟩⟩

/-- Turns that keep a property and return false, up to one that returns true: what this one leaves is what the loop
leaves. -/
theorem untilTrue_first {a : α} {after : List α} (ha : ∀ s r, P s → step s a = some r → r.1 = true ∧ T r.2) :
    ∀ {before : List α} {s : σ} {r : Bool × σ},
      (∀ b ∈ before, ∀ s r, P s → step s b = some r → r.1 = false ∧ P r.2) → P s →
        untilTrue step s (before ++ a :: after) = some r → r.1 = true ∧ T r.2
  | [], s, r, _, hs, h => by
    obtain ⟨r₁, hr₁, htail⟩ := Option.bind_eq_some_iff.1 h
    rw [if_pos (ha s r₁ hs hr₁).1] at htail
    cases htail
    exact ha s r hs hr₁
  | b :: before, s, r, hbefore, hs, h => by
    obtain ⟨hfirst, hrest⟩ := List.forall_mem_cons.1 hbefore
    obtain ⟨r₁, hr₁, htail⟩ := Option.bind_eq_some_iff.1 h
    obtain ⟨hfalse, hkept⟩ := hfirst s r₁ hs hr₁
    rw [hfalse] at htail
    exact untilTrue_first ha hrest hkept htail

end Keep

/-! ## What a search collects -/

section Collect

variable {β : Type} {P : σ → Prop} {H : σ → β → Prop}

/-- A loop adds what its turns add. -/
theorem callAll_collects {step : σ → α → Option (Bool × σ)} {adds : α → β → Prop} :
    ∀ {as : List α} {s : σ} {r : Bool × σ},
      (∀ a ∈ as, ∀ s r, P s → step s a = some r → P r.2 ∧ ∀ b, H r.2 b ↔ H s b ∨ adds a b) →
      P s → callAll step s as = some r →
      r.1 = false ∧ P r.2 ∧ ∀ b, H r.2 b ↔ H s b ∨ ∃ a ∈ as, adds a b := by
  intro as
  induction as with
  | nil =>
    intro s r _ hs h
    cases h
    exact ⟨rfl, hs, by simp⟩
  | cons a as ih =>
    intro s r hstep hs h
    obtain ⟨hfirst, hrest⟩ := List.forall_mem_cons.1 hstep
    obtain ⟨r₁, hturn, hloop⟩ := Option.bind_eq_some_iff.1 h
    obtain ⟨hs₁, hadds⟩ := hfirst s r₁ hs hturn
    obtain ⟨hfalse, hend, hcollects⟩ := ih hrest hs₁ hloop
    refine ⟨hfalse, hend, fun b => ?_⟩
    rw [hcollects, hadds, List.exists_mem_cons_iff, or_assoc]

/-- **A search that adds what a node has and goes on to all nodes next to it** collects what the nodes it
reaches have. `Q` are the nodes it may be called for. -/
theorem collects_of_turn {f : Nat → ν → σ → Option (Bool × σ)} {has : ν → β → Prop} {Q : ν → Prop}
    (hclosed : ∀ n, Q n → ∀ m ∈ next n, Q m) (hzero : ∀ n s, f 0 n s = none)
    (hturn : ∀ fuel n s r, Q n → P s → f (fuel + 1) n s = some r →
      ∃ s₁, P s₁ ∧ (∀ b, H s₁ b ↔ H s b ∨ has n b) ∧
        callAll (fun s m => f fuel m s) s₁ (next n) = some r) :
    ∀ {fuel : Nat} {n : ν} {s : σ} {r : Bool × σ}, Q n → P s → f fuel n s = some r →
      r.1 = false ∧ P r.2 ∧ ∀ b, H r.2 b ↔
        H s b ∨ ∃ m, Relation.ReflTransGen (Calls next) n m ∧ has m b := by
  intro fuel
  induction fuel with
  | zero =>
    intro n s r _ _ h
    rw [hzero] at h
    cases h
  | succ fuel ih =>
    intro n s r hn hs h
    obtain ⟨s₁, hs₁, hown, hloop⟩ := hturn fuel n s r hn hs h
    have hcalls : ∀ m ∈ next n, ∀ s r, P s → f fuel m s = some r → P r.2 ∧ ∀ b, H r.2 b ↔
        H s b ∨ ∃ m', Relation.ReflTransGen (Calls next) m m' ∧ has m' b :=
      fun m hm s r hs hrun => (ih (hclosed n hn m hm) hs hrun).2
    obtain ⟨hfalse, hend, hcollects⟩ := callAll_collects hcalls hs₁ hloop
    refine ⟨hfalse, hend, fun b => ?_⟩
    -- a node is reached when it is the node itself or reached from one next to it
    have hreach : (∃ m, Relation.ReflTransGen (Calls next) n m ∧ has m b) ↔
        has n b ∨ ∃ m ∈ next n, ∃ m', Relation.ReflTransGen (Calls next) m m' ∧ has m' b := by
      constructor
      · rintro ⟨m', hpath, hhas⟩
        rcases Relation.ReflTransGen.cases_head hpath with rfl | ⟨m, hstep, hrest⟩
        · exact Or.inl hhas
        · exact Or.inr ⟨m, hstep, m', hrest, hhas⟩
      · rintro (hhas | ⟨m, hstep, m', hrest, hhas⟩)
        · exact ⟨n, Relation.ReflTransGen.refl, hhas⟩
        · exact ⟨m', Relation.ReflTransGen.head hstep hrest, hhas⟩
    rw [hcollects, hown, hreach, or_assoc]

end Collect

end CodeWorker
