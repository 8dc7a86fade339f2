import Mathlib.Data.List.Nodup
import Mathlib.Logic.Relation

/-!
# Depth-first walks

A walk visits a node once, its successors before it, and emits a key for it when it is left. Several
nodes may share a key; a key is emitted once, and a node whose key has been emitted already is not
entered. Cycles are allowed: a node met again while it is being visited is passed over.

The recursion is cut off by a fuel argument. `visit_isSome` says how much is enough on a finite graph.
`Invariant` packages the induction over a walk: what has to be shown of the three things a walk does, with
the nodes being visited at hand.
-/

set_option autoImplicit false

namespace CodeWorker

variable {ν κ : Type}

/-- The successors of a node, in order, and the key emitted for it. -/
structure KeyedGraph (ν κ : Type) where
  succ : ν → List ν
  key : ν → κ

/-- The nodes met and the keys emitted so far. -/
structure Walk (ν κ : Type) where
  seen : List ν
  out : List κ

namespace KeyedGraph

/-- One node depends on another over any number of edges. -/
def Reach (G : KeyedGraph ν κ) : ν → ν → Prop := Relation.ReflTransGen fun a b => b ∈ G.succ a

/-- A node is met. -/
def enter (w : Walk ν κ) (n : ν) : Walk ν κ := { w with seen := n :: w.seen }

/-- What reaches a node reaches its successors, and so does the node. -/
theorem reach_succ {G : KeyedGraph ν κ} {n : ν} {stack : List ν}
    (hreach : ∀ m ∈ stack, G.Reach m n) :
    ∀ x ∈ G.succ n, ∀ m ∈ n :: stack, G.Reach m x := by
  intro x hx m hm
  rcases List.mem_cons.1 hm with rfl | hm
  · exact Relation.ReflTransGen.single hx
  · exact (hreach m hm).tail hx

/-- The later walk has met what the earlier one had, and has emitted more behind it. -/
structure Grows (w w' : Walk ν κ) : Prop where
  seen : ∀ m ∈ w.seen, m ∈ w'.seen
  out : w.out.Sublist w'.out

theorem Grows.refl (w : Walk ν κ) : Grows w w := ⟨fun _ hm => hm, List.Sublist.refl _⟩

theorem Grows.trans {w₁ w₂ w₃ : Walk ν κ} (h : Grows w₁ w₂) (h' : Grows w₂ w₃) : Grows w₁ w₃ :=
  ⟨fun m hm => h'.seen m (h.seen m hm), h.out.trans h'.out⟩

theorem grows_enter (w : Walk ν κ) (n : ν) : Grows w (enter w n) :=
  ⟨fun _ hm => List.mem_cons_of_mem _ hm, List.Sublist.refl _⟩

variable [DecidableEq κ]

/-- A node is left. -/
def leave (G : KeyedGraph ν κ) (w : Walk ν κ) (n : ν) : Walk ν κ :=
  if G.key n ∈ w.out then w else { w with out := w.out ++ [G.key n] }

@[simp] theorem seen_leave (G : KeyedGraph ν κ) (w : Walk ν κ) (n : ν) :
    (G.leave w n).seen = w.seen := by
  unfold leave
  split <;> rfl

theorem mem_out_leave {G : KeyedGraph ν κ} {w : Walk ν κ} {n : ν} {k : κ} :
    k ∈ (G.leave w n).out ↔ k ∈ w.out ∨ k = G.key n := by
  unfold leave
  split
  · rename_i hkey
    refine ⟨Or.inl, ?_⟩
    rintro (hk | rfl)
    · exact hk
    · exact hkey
  · rw [List.mem_append, List.mem_singleton]

/-- What has been emitted stays in front. -/
theorem out_sublist_leave (G : KeyedGraph ν κ) (w : Walk ν κ) (n : ν) :
    w.out.Sublist (G.leave w n).out := by
  unfold leave
  split
  · exact List.Sublist.refl _
  · exact List.sublist_append_left _ _

theorem grows_leave (G : KeyedGraph ν κ) (w : Walk ν κ) (n : ν) : Grows w (G.leave w n) :=
  ⟨fun _ hm => by rwa [seen_leave], out_sublist_leave G w n⟩

variable [DecidableEq ν]

/-- The visit of a node. -/
def visit (G : KeyedGraph ν κ) (fuel : Nat) (w : Walk ν κ) (n : ν) : Option (Walk ν κ) :=
  if n ∈ w.seen then some w
  else if G.key n ∈ w.out then some (enter w n)
  else match fuel with
    | 0 => none
    | fuel + 1 => ((G.succ n).foldlM (G.visit fuel) (enter w n)).map (G.leave · n)

/-- The visits of nodes one after the other. -/
def visitAll (G : KeyedGraph ν κ) (fuel : Nat) (w : Walk ν κ) (ns : List ν) : Option (Walk ν κ) :=
  ns.foldlM (G.visit fuel) w

variable {G : KeyedGraph ν κ} {fuel : Nat} {w w' : Walk ν κ} {n : ν} {ns : List ν}

/-- What a visit can be: the node is known, or its key is, or its successors are visited first. -/
theorem visit_cases (h : G.visit fuel w n = some w') :
    (n ∈ w.seen ∧ w' = w) ∨ (n ∉ w.seen ∧ G.key n ∈ w.out ∧ w' = enter w n) ∨
      (n ∉ w.seen ∧ G.key n ∉ w.out ∧ ∃ fuel' w₁, fuel = fuel' + 1 ∧
        G.visitAll fuel' (enter w n) (G.succ n) = some w₁ ∧ w' = G.leave w₁ n) := by
  unfold visit at h
  split at h
  · rename_i hseen
    exact Or.inl ⟨hseen, (Option.some.inj h).symm⟩
  · rename_i hseen
    split at h
    · rename_i hkey
      exact Or.inr (Or.inl ⟨hseen, hkey, (Option.some.inj h).symm⟩)
    · rename_i hkey
      cases fuel with
      | zero => cases h
      | succ fuel =>
        obtain ⟨w₁, hw₁, hleave⟩ := Option.map_eq_some_iff.1 h
        exact Or.inr (Or.inr ⟨hseen, hkey, fuel, w₁, rfl, hw₁, hleave.symm⟩)

theorem visitAll_cons :
    G.visitAll fuel w (n :: ns) = some w' ↔
      ∃ w₁, G.visit fuel w n = some w₁ ∧ G.visitAll fuel w₁ ns = some w' := by
  unfold visitAll
  rw [List.foldlM_cons]
  exact Option.bind_eq_some_iff

theorem visitAll_append {ms : List ν} :
    G.visitAll fuel w (ns ++ ms) = some w' ↔
      ∃ w₁, G.visitAll fuel w ns = some w₁ ∧ G.visitAll fuel w₁ ms = some w' := by
  unfold visitAll
  rw [List.foldlM_append]
  exact Option.bind_eq_some_iff

/-- A relation that every visit keeps is kept by visits one after the other. -/
theorem visitAll_rule {R : Walk ν κ → Walk ν κ → Prop} (hrefl : ∀ w, R w w)
    (htrans : ∀ {w₁ w₂ w₃}, R w₁ w₂ → R w₂ w₃ → R w₁ w₃)
    (hvisit : ∀ {w w' n}, G.visit fuel w n = some w' → R w w') :
    ∀ {ns : List ν} {w w' : Walk ν κ}, G.visitAll fuel w ns = some w' → R w w' := by
  intro ns
  induction ns with
  | nil =>
    intro w w' h
    cases h
    exact hrefl w
  | cons n ns ih =>
    intro w w' h
    obtain ⟨w₁, h₁, hrest⟩ := visitAll_cons.1 h
    exact htrans (hvisit h₁) (ih hrest)

/-! ## What has been met stays met -/

/-- A visit meets its node. -/
theorem seen_of_visit : ∀ {fuel : Nat} {w w' : Walk ν κ} {n : ν}, G.visit fuel w n = some w' →
    n ∈ w'.seen ∧ Grows w w' := by
  intro fuel
  induction fuel with
  | zero =>
    intro w w' n h
    rcases visit_cases h with ⟨hseen, rfl⟩ | ⟨-, -, rfl⟩ | ⟨-, -, _, _, hfuel, -⟩
    · exact ⟨hseen, Grows.refl _⟩
    · exact ⟨List.mem_cons_self, grows_enter w n⟩
    · cases hfuel
  | succ fuel ih =>
    intro w w' n h
    rcases visit_cases h with ⟨hseen, rfl⟩ | ⟨-, -, rfl⟩ | ⟨-, -, fuel', w₁, hfuel, hall, rfl⟩
    · exact ⟨hseen, Grows.refl _⟩
    · exact ⟨List.mem_cons_self, grows_enter w n⟩
    · cases hfuel
      have hgrows : Grows (enter w n) (G.leave w₁ n) :=
        (visitAll_rule Grows.refl Grows.trans (fun hv => (ih hv).2) hall).trans (grows_leave G w₁ n)
      exact ⟨hgrows.seen n List.mem_cons_self, (grows_enter w n).trans hgrows⟩

theorem grows_of_visitAll (h : G.visitAll fuel w ns = some w') : Grows w w' :=
  visitAll_rule Grows.refl Grows.trans (fun hv => (seen_of_visit hv).2) h

theorem seen_of_visitAll : ∀ {ns : List ν} {w : Walk ν κ}, G.visitAll fuel w ns = some w' →
    ∀ n ∈ ns, n ∈ w'.seen := by
  intro ns
  induction ns with
  | nil =>
    intro w _ n hn
    cases hn
  | cons n ns ih =>
    intro w h m hm
    obtain ⟨w₁, h₁, hrest⟩ := visitAll_cons.1 h
    rcases List.mem_cons.1 hm with rfl | hm
    · exact (grows_of_visitAll hrest).seen _ (seen_of_visit h₁).1
    · exact ih hrest m hm

/-! ## Enough fuel -/

/-- The nodes of a finite graph a walk has not met. -/
def unseen (nodes : List ν) (w : Walk ν κ) : Nat := (nodes.filter (· ∉ w.seen)).length

omit [DecidableEq κ] in
theorem unseen_le {nodes : List ν} (h : Grows w w') : unseen nodes w' ≤ unseen nodes w := by
  apply List.Sublist.length_le
  apply List.monotone_filter_right
  intro m hm
  rw [decide_eq_true_iff] at hm ⊢
  exact fun hseen => hm (h.seen m hseen)

omit [DecidableEq κ] in
theorem unseen_enter_lt {nodes : List ν} (hn : n ∈ nodes) (hseen : n ∉ w.seen) :
    unseen nodes (enter w n) < unseen nodes w := by
  have hfilter : nodes.filter (· ∉ (enter w n).seen) =
      (nodes.filter (· ∉ w.seen)).filter (· ≠ n) := by
    rw [List.filter_filter]
    apply List.filter_congr
    intro m _
    simp [enter, Bool.decide_and]
  unfold unseen
  rw [hfilter]
  apply List.length_filter_lt_length_iff_exists.2
  exact ⟨n, List.mem_filter.2 ⟨hn, by simpa using hseen⟩, by simp⟩

/-- Visits one after the other need as much fuel as the first of them. -/
theorem visitAll_isSome_of {nodes : List ν}
    (hvisit : ∀ {w : Walk ν κ} {n : ν}, n ∈ nodes → unseen nodes w ≤ fuel →
      ∃ w', G.visit fuel w n = some w') :
    ∀ {ns : List ν} {w : Walk ν κ}, (∀ m ∈ ns, m ∈ nodes) → unseen nodes w ≤ fuel →
      ∃ w', G.visitAll fuel w ns = some w' := by
  intro ns
  induction ns with
  | nil =>
    intro w _ _
    exact ⟨w, rfl⟩
  | cons m ns ih =>
    intro w hns hw
    obtain ⟨w₁, h₁⟩ := hvisit (hns m List.mem_cons_self) hw
    obtain ⟨w₂, h₂⟩ := ih (fun m hm => hns m (List.mem_cons_of_mem _ hm))
      (Nat.le_trans (unseen_le (seen_of_visit h₁).2) hw)
    exact ⟨w₂, visitAll_cons.2 ⟨w₁, h₁, h₂⟩⟩

/-- On a finite set of nodes closed under successors, a visit needs no more fuel than there are nodes
it has not met. -/
theorem visit_isSome {nodes : List ν} (hclosed : ∀ n ∈ nodes, ∀ m ∈ G.succ n, m ∈ nodes) :
    ∀ {fuel : Nat} {w : Walk ν κ} {n : ν}, n ∈ nodes → unseen nodes w ≤ fuel →
      ∃ w', G.visit fuel w n = some w' := by
  intro fuel
  induction fuel with
  | zero =>
    intro w n hn hfuel
    have hseen : n ∈ w.seen := by
      by_contra hseen
      have := unseen_enter_lt hn hseen
      omega
    exact ⟨w, by unfold visit; rw [if_pos hseen]⟩
  | succ fuel ih =>
    intro w n hn hfuel
    by_cases hseen : n ∈ w.seen
    · exact ⟨w, by unfold visit; rw [if_pos hseen]⟩
    · by_cases hkey : G.key n ∈ w.out
      · exact ⟨enter w n, by unfold visit; rw [if_neg hseen, if_pos hkey]⟩
      · have hlt := unseen_enter_lt hn hseen
        have hfuel' : unseen nodes (enter w n) ≤ fuel := by omega
        obtain ⟨w₁, h₁⟩ := visitAll_isSome_of ih (hclosed n hn) hfuel'
        refine ⟨G.leave w₁ n, ?_⟩
        unfold visit
        rw [if_neg hseen, if_neg hkey]
        exact Option.map_eq_some_iff.2 ⟨w₁, h₁, rfl⟩

/-- As much fuel as there are nodes is enough. -/
theorem visitAll_isSome {nodes : List ν} (hclosed : ∀ n ∈ nodes, ∀ m ∈ G.succ n, m ∈ nodes)
    (hns : ∀ m ∈ ns, m ∈ nodes) : ∃ w', G.visitAll nodes.length w ns = some w' :=
  visitAll_isSome_of (visit_isSome hclosed) hns (List.length_filter_le _ _)

/-! ## Invariants -/

/-- A statement about the nodes being visited and the walk that everything a walk does preserves, as
long as it stays among nodes closed under successors. -/
structure Invariant (G : KeyedGraph ν κ) (P : ν → Prop) (I : List ν → Walk ν κ → Prop) : Prop where
  closed : ∀ {n}, P n → ∀ m ∈ G.succ n, P m
  skip : ∀ {stack w n}, P n → I stack w → n ∉ w.seen → G.key n ∈ w.out → I stack (enter w n)
  enter : ∀ {stack w n}, P n → I stack w → n ∉ w.seen → G.key n ∉ w.out → I (n :: stack) (enter w n)
  leave : ∀ {stack w n}, P n → I (n :: stack) w → (∀ m ∈ stack, G.Reach m n) →
    (∀ m ∈ G.succ n, m ∈ w.seen) → I stack (G.leave w n)

namespace Invariant

variable {P : ν → Prop} {I : List ν → Walk ν κ → Prop}

/-- Visits one after the other, if each of them keeps the statement. -/
theorem visitAll_of {stack : List ν}
    (hvisit : ∀ {w w' : Walk ν κ} {n : ν}, P n → (∀ m ∈ stack, G.Reach m n) → I stack w →
      G.visit fuel w n = some w' → I stack w') :
    ∀ {ns : List ν} {w w' : Walk ν κ}, (∀ n ∈ ns, P n) → (∀ n ∈ ns, ∀ m ∈ stack, G.Reach m n) →
      I stack w → G.visitAll fuel w ns = some w' → I stack w' := by
  intro ns
  induction ns with
  | nil =>
    intro w w' _ _ hw h
    cases h
    exact hw
  | cons n ns ih =>
    intro w w' hP hreach hw h
    obtain ⟨w₁, h₁, hrest⟩ := visitAll_cons.1 h
    exact ih (fun m hm => hP m (List.mem_cons_of_mem _ hm))
      (fun m hm => hreach m (List.mem_cons_of_mem _ hm))
      (hvisit (hP n List.mem_cons_self) (hreach n List.mem_cons_self) hw h₁) hrest

theorem visit (hI : G.Invariant P I) :
    ∀ {fuel : Nat} {stack : List ν} {w w' : Walk ν κ} {n : ν}, P n → (∀ m ∈ stack, G.Reach m n) →
      I stack w → G.visit fuel w n = some w' → I stack w' := by
  intro fuel
  induction fuel with
  | zero =>
    intro stack w w' n hP _ hw h
    rcases visit_cases h with ⟨-, rfl⟩ | ⟨hseen, hkey, rfl⟩ | ⟨-, -, _, _, hfuel, -⟩
    · exact hw
    · exact hI.skip hP hw hseen hkey
    · cases hfuel
  | succ fuel ih =>
    intro stack w w' n hP hreach hw h
    rcases visit_cases h with ⟨-, rfl⟩ | ⟨hseen, hkey, rfl⟩ | ⟨hseen, hkey, _, w₁, hfuel, hall, rfl⟩
    · exact hw
    · exact hI.skip hP hw hseen hkey
    · cases hfuel
      apply hI.leave hP _ hreach (seen_of_visitAll hall)
      exact visitAll_of ih (hI.closed hP) (reach_succ hreach) (hI.enter hP hw hseen hkey) hall

/-- Visits one after the other while the nodes of a stack are being visited. -/
theorem visitAll (hI : G.Invariant P I) {stack : List ν} (hP : ∀ n ∈ ns, P n)
    (hreach : ∀ n ∈ ns, ∀ m ∈ stack, G.Reach m n) (hw : I stack w)
    (h : G.visitAll fuel w ns = some w') : I stack w' :=
  visitAll_of hI.visit hP hreach hw h

/-- Visits one after the other with nothing being visited. -/
theorem visitAll_nil (hI : G.Invariant P I) (hP : ∀ n ∈ ns, P n) (hw : I [] w)
    (h : G.visitAll fuel w ns = some w') : I [] w' := by
  apply hI.visitAll hP _ hw h
  intro _ _ m hm
  cases hm

end Invariant

/-! ## The order of the keys -/

/-- The key of every node met and left has been emitted. -/
def Finished (G : KeyedGraph ν κ) (stack : List ν) (w : Walk ν κ) : Prop :=
  ∀ m ∈ w.seen, m ∉ stack → G.key m ∈ w.out

theorem finished_invariant (G : KeyedGraph ν κ) : G.Invariant (fun _ => True) G.Finished where
  closed _ _ _ := trivial
  skip := by
    intro stack w n _ hw _ hkey m hm hstack
    rcases List.mem_cons.1 hm with rfl | hm
    · exact hkey
    · exact hw m hm hstack
  enter := by
    intro stack w n _ hw _ _ m hm hstack
    rw [List.mem_cons, not_or] at hstack
    rcases List.mem_cons.1 hm with rfl | hm
    · exact absurd rfl hstack.1
    · exact hw m hm hstack.2
  leave := by
    intro stack w n _ hw _ _ m hm hstack
    rw [seen_leave] at hm
    rw [mem_out_leave]
    by_cases hmn : m = n
    · exact Or.inr (congrArg G.key hmn)
    · exact Or.inl (hw m hm (by rw [List.mem_cons, not_or]; exact ⟨hmn, hstack⟩))

omit [DecidableEq ν] in
/-- No key is emitted twice. -/
theorem nodup_invariant (G : KeyedGraph ν κ) :
    G.Invariant (fun _ => True) fun _ w => w.out.Nodup where
  closed _ _ _ := trivial
  skip _ hw _ _ := hw
  enter _ hw _ _ := hw
  leave := by
    intro stack w n _ hw _ _
    unfold leave
    split
    · exact hw
    · rename_i hkey
      rw [List.nodup_append]
      refine ⟨hw, List.nodup_singleton _, ?_⟩
      intro k hk k' hk'
      rw [List.mem_singleton.1 hk']
      rintro rfl
      exact hkey hk

omit [DecidableEq ν] in
/-- Every key emitted is that of a node of the walk. -/
theorem emitted_invariant {P : ν → Prop} (hclosed : ∀ {n}, P n → ∀ m ∈ G.succ n, P m) :
    G.Invariant P fun _ w => ∀ k ∈ w.out, ∃ n, P n ∧ G.key n = k where
  closed := hclosed
  skip _ hw _ _ := hw
  enter _ hw _ _ := hw
  leave := by
    intro stack w n hP hw _ _ k hk
    rcases mem_out_leave.1 hk with hk | rfl
    · exact hw k hk
    · exact ⟨n, hP, rfl⟩

omit [DecidableEq ν] in
/-- What a walk meets is among the nodes it stays with. -/
theorem seen_invariant {P : ν → Prop} (hclosed : ∀ {n}, P n → ∀ m ∈ G.succ n, P m) :
    G.Invariant P fun _ w => ∀ m ∈ w.seen, P m where
  closed := hclosed
  skip hn hw _ _ := List.forall_mem_cons.2 ⟨hn, hw⟩
  enter hn hw _ _ := List.forall_mem_cons.2 ⟨hn, hw⟩
  leave := by
    intro stack w n _ hw _ _
    rw [seen_leave]
    exact hw

/-- What a walk meets can be reached from where it starts. -/
theorem reached_of_visitAll (h : G.visitAll fuel ⟨[], []⟩ ns = some w') :
    ∀ m ∈ w'.seen, ∃ r ∈ ns, G.Reach r m := by
  have hclosed : ∀ {n}, (∃ r ∈ ns, G.Reach r n) → ∀ m ∈ G.succ n, ∃ r ∈ ns, G.Reach r m := by
    rintro n ⟨r, hr, hrn⟩ m hm
    exact ⟨r, hr, hrn.tail hm⟩
  refine (seen_invariant hclosed).visitAll_nil (fun r hr => ⟨r, hr, Relation.ReflTransGen.refl⟩) ?_ h
  intro m hm
  cases hm

/-- A node that all nodes of a key depend on and that depends on none of them: its key comes first. -/
theorem before_invariant {v : ν} {k : κ} (hsucc : ∀ u, G.key u = k → v ∈ G.succ u)
    (hreach : ∀ u, G.key u = k → ¬ G.Reach v u) :
    G.Invariant (fun _ => True)
      fun stack w => G.Finished stack w ∧ (k ∈ w.out → [G.key v, k].Sublist w.out) where
  closed _ _ _ := trivial
  skip := by
    rintro stack w n - ⟨hfinished, hbefore⟩ hseen hkey
    exact ⟨G.finished_invariant.skip trivial hfinished hseen hkey, hbefore⟩
  enter := by
    rintro stack w n - ⟨hfinished, hbefore⟩ hseen hkey
    exact ⟨G.finished_invariant.enter trivial hfinished hseen hkey, hbefore⟩
  leave := by
    rintro stack w n - ⟨hfinished, hbefore⟩ hstack hseen
    refine ⟨G.finished_invariant.leave trivial hfinished hstack hseen, ?_⟩
    intro hk
    by_cases hout : k ∈ w.out
    · exact (hbefore hout).trans (out_sublist_leave G w n)
    · -- `n` is the first node of the key to be left, and `v` has been left before
      have hn : k = G.key n := (mem_out_leave.1 hk).resolve_left hout
      have hv : G.key v ∈ w.out := by
        apply hfinished v (hseen v (hsucc n hn.symm))
        rw [List.mem_cons, not_or]
        refine ⟨?_, fun hmem => hreach n hn.symm (hstack v hmem)⟩
        rintro rfl
        exact hreach v hn.symm Relation.ReflTransGen.refl
      unfold leave
      rw [← hn, if_neg hout]
      exact (List.singleton_sublist.2 hv).append (List.Sublist.refl [k])

/-! ## Where a cycle is entered -/

/-- A walk over nodes with keys of their own: a key is emitted when its node is left, and what has been
left has all its successors met. -/
structure Exact (G : KeyedGraph ν κ) (stack : List ν) (w : Walk ν κ) : Prop where
  finished : G.Finished stack w
  pending : ∀ m ∈ stack, G.key m ∉ w.out
  emitted : ∀ k ∈ w.out, ∃ m ∈ w.seen, G.key m = k
  seen : ∀ m ∈ stack, m ∈ w.seen
  nodup : stack.Nodup
  closed : ∀ m ∈ w.seen, m ∉ stack → ∀ x ∈ G.succ m, x ∈ w.seen

namespace Exact

variable {stack : List ν} {n : ν}

omit [DecidableEq κ] [DecidableEq ν] in
theorem start : G.Exact [] (⟨[], []⟩ : Walk ν κ) := by
  refine ⟨?_, ?_, ?_, ?_, List.nodup_nil, ?_⟩
  all_goals
    intro m hm
    cases hm

theorem enter (hw : G.Exact stack w) (hseen : n ∉ w.seen) (hkey : G.key n ∉ w.out) :
    G.Exact (n :: stack) (enter w n) where
  finished := G.finished_invariant.enter trivial hw.finished hseen hkey
  pending := List.forall_mem_cons.2 ⟨hkey, hw.pending⟩
  emitted k hk := by
    obtain ⟨m, hm, heq⟩ := hw.emitted k hk
    exact ⟨m, List.mem_cons_of_mem _ hm, heq⟩
  seen := List.forall_mem_cons.2 ⟨List.mem_cons_self, fun m hm => List.mem_cons_of_mem _ (hw.seen m hm)⟩
  nodup := List.nodup_cons.2 ⟨fun hmem => hseen (hw.seen n hmem), hw.nodup⟩
  closed m hm hstack x hx := by
    rw [List.mem_cons, not_or] at hstack
    rcases List.mem_cons.1 hm with rfl | hm
    · exact absurd rfl hstack.1
    · exact List.mem_cons_of_mem _ (hw.closed m hm hstack.2 x hx)

theorem leave (hw : G.Exact (n :: stack) w) (hinj : ∀ m ∈ w.seen, G.key m = G.key n → m = n)
    (hstack : ∀ m ∈ stack, G.Reach m n) (hseen : ∀ m ∈ G.succ n, m ∈ w.seen) :
    G.Exact stack (G.leave w n) where
  finished := G.finished_invariant.leave trivial hw.finished hstack hseen
  pending m hm hout := by
    rcases mem_out_leave.1 hout with hout | heq
    · exact hw.pending m (List.mem_cons_of_mem _ hm) hout
    · have hmn := hinj m (hw.seen m (List.mem_cons_of_mem _ hm)) heq
      exact (List.nodup_cons.1 hw.nodup).1 (hmn ▸ hm)
  emitted k hk := by
    rw [seen_leave]
    rcases mem_out_leave.1 hk with hk | rfl
    · exact hw.emitted k hk
    · exact ⟨n, hw.seen n List.mem_cons_self, rfl⟩
  seen m hm := by
    rw [seen_leave]
    exact hw.seen m (List.mem_cons_of_mem _ hm)
  nodup := (List.nodup_cons.1 hw.nodup).2
  closed m hm hstack' x hx := by
    rw [seen_leave] at hm ⊢
    by_cases hmn : m = n
    · exact hseen x (hmn ▸ hx)
    · exact hw.closed m hm (by rw [List.mem_cons, not_or]; exact ⟨hmn, hstack'⟩) x hx

end Exact

theorem exact_invariant {P : ν → Prop} (hclosed : ∀ {n}, P n → ∀ m ∈ G.succ n, P m)
    (hinj : ∀ {a b}, P a → P b → G.key a = G.key b → a = b) :
    G.Invariant P fun stack w => G.Exact stack w ∧ ∀ m ∈ w.seen, P m where
  closed := hclosed
  skip := by
    rintro stack w n hn ⟨hw, hP⟩ hseen hkey
    obtain ⟨m, hm, heq⟩ := hw.emitted _ hkey
    exact absurd (hinj (hP m hm) hn heq ▸ hm) hseen
  enter := by
    rintro stack w n hn ⟨hw, hP⟩ hseen hkey
    exact ⟨hw.enter hseen hkey, List.forall_mem_cons.2 ⟨hn, hP⟩⟩
  leave := by
    rintro stack w n hn ⟨hw, hP⟩ hstack hseen
    refine ⟨hw.leave (fun m hm => hinj (hP m hm) hn) hstack hseen, ?_⟩
    rw [seen_leave]
    exact hP

omit [DecidableEq κ] in
/-- Everything reachable from the one node being visited has been met by the time its successors
have. -/
theorem Exact.reach_seen {v x : ν} (h : G.Exact [v] w) (hsucc : ∀ m ∈ G.succ v, m ∈ w.seen)
    (hreach : G.Reach v x) : x ∈ w.seen := by
  induction hreach with
  | refl => exact h.seen v List.mem_cons_self
  | @tail b c _ hstep ih =>
    by_cases hb : b = v
    · exact hsucc c (hb ▸ hstep)
    · exact h.closed b ih (by rw [List.mem_singleton]; exact hb) c hstep

/-- A cycle entered at a node: whatever else is on the cycle comes before that node. -/
theorem cycle_entry_last {P : ν → Prop} (hclosed : ∀ {n}, P n → ∀ m ∈ G.succ n, P m)
    (hinj : ∀ {a b}, P a → P b → G.key a = G.key b → a = b) {before after : List ν} {u v : ν}
    (hP : ∀ n ∈ before ++ v :: after, P n) (hbefore : ∀ r ∈ before, ¬ G.Reach r v)
    (hne : u ≠ v) (hcycle : G.Reach v u)
    (h : G.visitAll fuel ⟨[], []⟩ (before ++ v :: after) = some w') :
    [G.key u, G.key v].Sublist w'.out := by
  have hI := exact_invariant hclosed hinj
  obtain ⟨w₁, h₁, h⟩ := visitAll_append.1 h
  obtain ⟨w₂, h₂, hrest⟩ := visitAll_cons.1 h
  have hstart : G.Exact [] (⟨[], []⟩ : Walk ν κ) ∧ ∀ m ∈ (⟨[], []⟩ : Walk ν κ).seen, P m :=
    ⟨Exact.start, fun m hm => (nomatch hm)⟩
  obtain ⟨hw₁, hPw₁⟩ := hI.visitAll_nil (fun n hn => hP n (List.mem_append_left _ hn)) hstart h₁
  have hv : P v := hP v (List.mem_append_right _ List.mem_cons_self)
  have hfresh : v ∉ w₁.seen := by
    intro hmem
    obtain ⟨r, hr, hreach⟩ := reached_of_visitAll h₁ v hmem
    exact hbefore r hr hreach
  have hkey : G.key v ∉ w₁.out := by
    intro hmem
    obtain ⟨m, hm, heq⟩ := hw₁.emitted _ hmem
    exact hfresh (hinj (hPw₁ m hm) hv heq ▸ hm)
  rcases visit_cases h₂ with ⟨hseen, -⟩ | ⟨-, hout, -⟩ | ⟨-, -, fuel', w₃, -, hall, rfl⟩
  · exact absurd hseen hfresh
  · exact absurd hout hkey
  · have hsucc := seen_of_visitAll hall
    have hreach : ∀ m ∈ ([] : List ν), G.Reach m v := fun m hm => (nomatch hm)
    obtain ⟨hw₃, -⟩ := hI.visitAll (hclosed hv) (reach_succ hreach)
      (hI.enter hv ⟨hw₁, hPw₁⟩ hfresh hkey) hall
    have hu : G.key u ∈ w₃.out :=
      hw₃.finished u (hw₃.reach_seen hsucc hcycle) (by rw [List.mem_singleton]; exact hne)
    have hlast : (G.leave w₃ v).out = w₃.out ++ [G.key v] := by
      unfold leave
      rw [if_neg (hw₃.pending v List.mem_cons_self)]
    refine List.Sublist.trans ?_ (grows_of_visitAll hrest).out
    rw [hlast]
    exact (List.singleton_sublist.2 hu).append (List.Sublist.refl [G.key v])

end KeyedGraph

end CodeWorker
