import Rathaxes.Laws.PlaceHolders

/-!
# Positions of placeholders

A placeholder that stands for a statement is replaced in the block the statement is in, at the position `block_idx`. The
position is handed down by the walk, and the block is found by going up from the placeholder. Here they are shown to
be of one block, and the entries of one block to have positions that do not go down, which a later correction of
positions needs.
-/

set_option autoImplicit false

namespace Rathaxes

/-- The place of an attribute in the order of visits. -/
def Attr.rank : Attr → Nat
  | ctype => 0
  | index => 1
  | name => 2
  | colonExpr => 3
  | assignExpr => 4
  | left => 5
  | right => 6
  | expr => 7
  | label => 8
  | condition => 9
  | thenPart => 10
  | elsePart => 11
  | initial => 12
  | increment => 13
  | body => 14
  | identifier => 15
  | list => 16
  | param => 17
  | enum => 18
  | args => 19
  | id => 20

/-- The place of a step. -/
def Step.rank : Step → Nat
  | item _ _ => 0
  | attr a => a.rank
  | entry a _ => a.rank

namespace Back

open CodeWorker

/-! ## Addresses and blocks -/

/-- The innermost block around, and the position in it. -/
def container : Address → Option (Address × Nat)
  | [] => none
  | .item _ i :: A => some (A, i)
  | .attr _ :: A => container A
  | .entry _ _ :: A => container A

/-- The position in the innermost block. -/
def position (A : Address) : Int :=
  match container A with
  | some (_, i) => i
  | none => -1

/-- The innermost block is a `__block__`. -/
def inBlock : Address → Bool
  | [] => false
  | .item kind _ :: _ => kind = .block
  | .attr _ :: A => inBlock A
  | .entry _ _ :: A => inBlock A

theorem length_container {C : Address} {i : Nat} : ∀ {A : Address}, container A = some (C, i) → C.length < A.length
  | .item _ _ :: A, h => by
    cases h
    exact Nat.lt_succ_self _
  | .attr _ :: A, h => Nat.lt_succ_of_lt (length_container (A := A) h)
  | .entry _ _ :: A, h => Nat.lt_succ_of_lt (length_container (A := A) h)

theorem container_append (p : Step) (A : Address) : ∀ u : Address,
    (∃ w i, container (u ++ p :: A) = some (w ++ p :: A, i)) ∨ container (u ++ p :: A) = container (p :: A)
  | [] => Or.inr rfl
  | .item _ i :: u => Or.inl ⟨u, i, rfl⟩
  | .attr _ :: u => container_append p A u
  | .entry _ _ :: u => container_append p A u

/-- From a `__block__` around a statement the way up ends at the item the statement is in. -/
theorem climb_of_inBlock : ∀ {A : Address}, inBlock A = true →
    ∃ C i, container A = some (C, i) ∧ climb A = some (.item .block i :: C)
  | .item .block i :: C, _ => ⟨C, i, rfl, rfl⟩
  | .attr _ :: A, h => climb_of_inBlock (A := A) h
  | .entry _ _ :: A, h => climb_of_inBlock (A := A) h

/-- Two steps from one node, the first of them to what is visited first. -/
def Apart (p q : Step) : Prop := p ≠ q ∧ ∀ k i l j, p = .item k i → q = .item l j → i ≤ j

/-- In one block the position does not go down. -/
def InOrder (A B : Address) : Prop := ∀ C a b, container A = some (C, a) → container B = some (C, b) → a ≤ b

theorem container_ne (p : Step) (A : Address) {w : Address} {q : Step} {a : Nat}
    (h : container (p :: A) = some (w ++ q :: A, a)) : False := by
  have hlen := length_container h
  simp only [List.length_append, List.length_cons] at hlen
  omega

theorem container_ne_self (A : Address) {a : Nat} : container A ≠ some (A, a) := fun h =>
  absurd (length_container h) (Nat.lt_irrefl _)

/-- Parts of a tree with different steps to them share the blocks around both only. -/
theorem inOrder_of_apart {p q : Step} (h : Apart p q) (u v A : Address) : InOrder (u ++ p :: A) (v ++ q :: A) := by
  intro C a b hp hq
  rcases container_append p A u with ⟨w, i, hu⟩ | hu <;> rw [hu] at hp
  · cases hp
    rcases container_append q A v with ⟨w', j, hv⟩ | hv <;> rw [hv] at hq
    · obtain ⟨hC, -⟩ := Prod.mk.inj (Option.some.inj hq)
      exact absurd (List.cons.inj (List.append_inj_right' hC rfl)).1.symm h.1
    · exact (container_ne q A hq).elim
  · rcases container_append q A v with ⟨w', j, hv⟩ | hv <;> rw [hv] at hq
    · cases hq
      exact (container_ne p A hp).elim
    · -- both are in the block around `A`, or are items of the node at `A`
      cases p with
      | item k i =>
        cases hp
        cases q with
        | item l j =>
          cases hq
          exact h.2 k _ l _ rfl rfl
        | attr | entry => exact absurd hq (container_ne_self A)
      | attr | entry =>
        cases q with
        | item =>
          cases hq
          exact absurd hp (container_ne_self A)
        | attr | entry =>
          have hsame := (Prod.mk.inj (Option.some.inj (hp.symm.trans hq))).2
          exact Nat.le_of_eq hsame

/-! ## Spans -/

/-- Events at one node, behind some of the steps from it: where their texts are, and in what order. -/
structure Span (A : Address) (P : Step → Prop) (es : List Event) : Prop where
  under : ∀ x ∈ sites es, ∃ u p, P p ∧ x.address = u ++ p :: A
  atText : ∀ x ∈ sites es, ∃ a B, x.address = .attr a :: B
  position : ∀ x ∈ sites es, x.nodeIdx = position x.address
  ordered : (sites es).Pairwise (fun x y => InOrder x.address y.address)

/-- Steps visited before one with this rank. -/
def Below (k : Nat) (p : Step) : Prop := p.rank < k

/-- Entries of an attribute from a position on. -/
def From (step : Nat → Step) (j : Nat) (p : Step) : Prop := ∃ k, j ≤ k ∧ p = step k

namespace Span

variable {A : Address} {P Q : Step → Prop} {es fs : List Event} {k : Nat}

theorem quiet (h : sites es = []) : Span A P es where
  under := by simp [h]
  atText := by simp [h]
  position := by simp [h]
  ordered := by simp [h]

theorem mono (h : Span A P es) (hPQ : ∀ p, P p → Q p) : Span A Q es :=
  { h with
    under := fun x hx =>
      have ⟨u, p, hp, hu⟩ := h.under x hx
      ⟨u, p, hPQ p hp, hu⟩ }

theorem append (h : Span A P es) (h' : Span A Q fs) (hPQ : ∀ p q, P p → Q q → Apart p q) :
    Span A (fun p => P p ∨ Q p) (es ++ fs) where
  under := by
    intro x hx
    rw [sites_append, List.mem_append] at hx
    rcases hx with hx | hx
    · obtain ⟨u, p, hp, hu⟩ := h.under x hx
      exact ⟨u, p, Or.inl hp, hu⟩
    · obtain ⟨u, p, hp, hu⟩ := h'.under x hx
      exact ⟨u, p, Or.inr hp, hu⟩
  atText := by
    intro x hx
    rw [sites_append, List.mem_append] at hx
    exact hx.elim (h.atText x) (h'.atText x)
  position := by
    intro x hx
    rw [sites_append, List.mem_append] at hx
    exact hx.elim (h.position x) (h'.position x)
  ordered := by
    rw [sites_append, List.pairwise_append]
    refine ⟨h.ordered, h'.ordered, fun x hx y hy => ?_⟩
    obtain ⟨u, p, hp, hu⟩ := h.under x hx
    obtain ⟨v, q, hq, hv⟩ := h'.under y hy
    rw [hu, hv]
    exact inOrder_of_apart (hPQ p q hp hq) u v A

theorem child {p : Step} (h : Span (p :: A) P es) : Span A (· = p) es :=
  { h with
    under := fun x hx =>
      have ⟨u, q, _, hu⟩ := h.under x hx
      ⟨u ++ [q], p, rfl, by rw [hu, List.append_assoc]; rfl⟩ }

theorem text (a : Attr) (role : Role) (t : String) :
    Span A (· = .attr a) [.text ⟨.attr a :: A, Back.position A, role, t⟩] where
  under := by
    intro x hx
    obtain rfl := List.mem_singleton.1 hx
    exact ⟨[], _, rfl, rfl⟩
  atText := by
    intro x hx
    obtain rfl := List.mem_singleton.1 hx
    exact ⟨_, _, rfl⟩
  position := by
    intro x hx
    obtain rfl := List.mem_singleton.1 hx
    rfl
  ordered := List.pairwise_singleton _ _

theorem apart_of_rank {p q : Step} (h : p.rank < q.rank) : Apart p q := by
  refine ⟨fun he => ?_, fun _ _ _ _ hp hq => ?_⟩
  · rw [he] at h
    exact Nat.lt_irrefl _ h
  · rw [hp, hq] at h
    exact absurd h (Nat.lt_irrefl _)

/-- The part behind one more step. -/
theorem next {p : Step} (h : Span A (Below k) es) (h' : Span A (· = p) fs) (hk : k ≤ p.rank) :
    Span A (Below (p.rank + 1)) (es ++ fs) := by
  refine (h.append h' ?_).mono ?_
  · rintro q _ hq rfl
    exact apart_of_rank (Nat.lt_of_lt_of_le hq hk)
  · rintro q (hq | rfl)
    · exact Nat.lt_succ_of_lt (Nat.lt_of_lt_of_le hq hk)
    · exact Nat.lt_succ_self _

/-- The part behind the entries of one more attribute. -/
theorem nextEntries {a : Attr} {j : Nat} (h : Span A (Below k) es) (h' : Span A (From (.entry a) j) fs)
    (hk : k ≤ a.rank) : Span A (Below (a.rank + 1)) (es ++ fs) := by
  refine (h.append h' ?_).mono ?_
  · rintro q _ hq ⟨m, _, rfl⟩
    exact apart_of_rank (Nat.lt_of_lt_of_le hq hk)
  · rintro q (hq | ⟨m, _, rfl⟩)
    · exact Nat.lt_succ_of_lt (Nat.lt_of_lt_of_le hq hk)
    · exact Nat.lt_succ_self _

/-- One more entry before the others. -/
theorem cons {step : Nat → Step} {j : Nat} (hstep : ∀ i k, i < k → Apart (step i) (step k))
    (h : Span A (· = step j) es) (h' : Span A (From step (j + 1)) fs) : Span A (From step j) (es ++ fs) := by
  refine (h.append h' ?_).mono ?_
  · rintro _ _ rfl ⟨m, hm, rfl⟩
    exact hstep j m hm
  · rintro q (rfl | ⟨m, hm, rfl⟩)
    · exact ⟨j, Nat.le_refl j, rfl⟩
    · exact ⟨m, Nat.le_of_succ_le hm, rfl⟩

theorem begin : Span A (Below 0) [] := quiet rfl

end Span

theorem mem_sites_hide {x : Site} : ∀ (es : List Event), x ∈ sites (hide es) →
    ∃ y ∈ sites es, x = { y with role := .unvisited }
  | .text y :: es, h => by
    rcases List.mem_cons.1 h with rfl | h
    · exact ⟨y, List.mem_cons_self, rfl⟩
    · obtain ⟨z, hz, hx⟩ := mem_sites_hide es h
      exact ⟨z, List.mem_cons_of_mem _ hz, hx⟩
  | .init :: es, h => mem_sites_hide es h
  | .set _ :: es, h => mem_sites_hide es h

theorem pairwise_hide {R : Address → Address → Prop} : ∀ (es : List Event),
    (sites es).Pairwise (fun x y => R x.address y.address) → (sites (hide es)).Pairwise (fun x y => R x.address y.address)
  | [], _ => List.Pairwise.nil
  | .text x :: es, h => by
    obtain ⟨hx, hes⟩ := List.pairwise_cons.1 h
    refine List.pairwise_cons.2 ⟨fun y hy => ?_, pairwise_hide es hes⟩
    obtain ⟨z, hz, rfl⟩ := mem_sites_hide _ hy
    exact hx z hz
  | .init :: es, h => pairwise_hide es h
  | .set _ :: es, h => pairwise_hide es h

theorem Span.shown {A : Address} {P : Step → Prop} {es : List Event} (h : Span A P es) (visited : Bool) :
    Span A P (shown visited es) := by
  cases visited with
  | true => exact h
  | false =>
    refine ⟨fun x hx => ?_, fun x hx => ?_, fun x hx => ?_, pairwise_hide es h.ordered⟩ <;>
      obtain ⟨y, hy, rfl⟩ := mem_sites_hide _ hx
    · exact h.under y hy
    · exact h.atText y hy
    · exact h.position y hy

theorem sites_operand (present points : Bool) (es : List Event) : sites (operand present points es) = sites es := by
  have hpointing : sites (pointing present points) = [] := by
    unfold pointing
    split <;> rfl
  have hresting : sites (resting present) = [] := by
    unfold resting
    split <;> rfl
  rw [operand, sites_append, sites_append, hpointing, hresting, List.nil_append, List.append_nil]

theorem Span.operand {A : Address} {P : Step → Prop} {es : List Event} (h : Span A P es) (present points : Bool) :
    Span A P (operand present points es) := by
  have hsites := sites_operand present points es
  exact ⟨by rw [hsites]; exact h.under, by rw [hsites]; exact h.atText, by rw [hsites]; exact h.position,
    by rw [hsites]; exact h.ordered⟩

theorem apart_item (kind : BlockKind) (i k : Nat) (h : i < k) : Apart (.item kind i) (.item kind k) := by
  refine ⟨fun he => ?_, ?_⟩
  · cases he
    exact Nat.lt_irrefl _ h
  · rintro _ _ _ _ ⟨⟩ ⟨⟩
    exact Nat.le_of_lt h

theorem apart_entry (a : Attr) (i k : Nat) (h : i < k) : Apart (.entry a i) (.entry a k) := by
  refine ⟨fun he => ?_, nofun⟩
  cases he
  exact Nat.lt_irrefl _ h

mutual

/-- The texts of a node are under it, in the order of its positions. -/
theorem span_events (A : Address) : ∀ node : CTree, Span A (fun _ => True) (events A (position A) node)
  | .block kind items =>
    (span_eventsList A (.item kind) (apart_item kind) (fun _ => true) 0 items).mono fun _ _ => trivial
  | .decl kind ctype name colonExpr assignExpr body => by
    have h := (((Span.begin.nextEntries (span_eventsTypes A 0 ctype) (by decide)).next
      (Span.text .name .identifier name) (by decide)).next (span_eventsOpt (.attr .colonExpr :: A) colonExpr).child
      (by decide)).next (span_eventsOpt (.attr .assignExpr :: A) assignExpr).child (by decide)
    exact (h.next (span_eventsOpt (.attr .body :: A) body).child (by decide)).mono fun _ _ => trivial
  | .expr exprType operator left right condition thenExpr elseExpr body list => by
    have hoperands := ((Span.quiet rfl : Span A (Below 0) [.init]).next
      ((span_eventsOpt (.attr .left :: A) left).operand left.isSome (pointsLeft exprType operator)).child (by decide)).next
      ((span_eventsOpt (.attr .right :: A) right).operand right.isSome (pointsRight exprType operator)).child (by decide)
    have hparts := (((hoperands.next (span_eventsOpt (.attr .condition :: A) condition).child (by decide)).next
      (span_eventsOpt (.attr .thenPart :: A) thenExpr).child (by decide)).next
      (span_eventsOpt (.attr .elsePart :: A) elseExpr).child (by decide)).next
      (span_eventsOpt (.attr .body :: A) body).child (by decide)
    exact (hparts.nextEntries (span_eventsPostfixes A 0 list) (by decide)).mono fun _ _ => trivial
  | .terminal id =>
    (((Span.quiet rfl : Span A (Below 0) [.init]).next (Span.text .id .terminal id) (by decide))).mono
      fun _ _ => trivial
  | .stmt expr label condition thenStmt elseStmt initial increment body => by
    have hparts := (((Span.begin.next (span_eventsTarget (.attr .expr :: A) expr).child (by decide)).next
      (Span.text .label .identifier label) (by decide)).next
      (span_eventsOpt (.attr .condition :: A) condition).child (by decide)).next
      (span_eventsBody (.attr .thenPart :: A) thenStmt).child (by decide)
    have hrest := ((hparts.next (span_eventsBody (.attr .elsePart :: A) elseStmt).child (by decide)).next
      (span_eventsOpt (.attr .initial :: A) initial).child (by decide)).next
      (span_eventsOpt (.attr .increment :: A) increment).child (by decide)
    exact (hrest.next (span_eventsBody (.attr .body :: A) body).child (by decide)).mono fun _ _ => trivial
  | .indexDesignation index expr =>
    ((Span.begin.next (span_events (.attr .index :: A) index).child (by decide)).next
      (span_events (.attr .expr :: A) expr).child (by decide)).mono fun _ _ => trivial
  | .fieldDesignation name expr =>
    ((Span.begin.next (Span.text .name .identifier name) (by decide)).next
      (span_events (.attr .expr :: A) expr).child (by decide)).mono fun _ _ => trivial
  | .pointcutRaw id => (Span.text .id .raw id).mono fun _ _ => trivial

theorem span_eventsOpt (A : Address) :
    ∀ node : Option CTree, Span A (fun _ => True) (eventsOpt A (position A) node)
  | none => Span.quiet rfl
  | some node => span_events A node

theorem span_eventsTarget (A : Address) :
    ∀ node : Option CTree, Span A (fun _ => True) (eventsTarget A (position A) node)
  | none => Span.quiet rfl
  | some node => by
    rw [eventsTarget]
    split
    · exact (Span.text .id .statement _).mono fun _ _ => trivial
    · exact span_events A node

theorem span_eventsBody (A : Address) :
    ∀ node : Option CTree, Span A (fun _ => True) (eventsBody A (position A) node)
  | none => Span.quiet rfl
  | some node => by
    rw [eventsBody]
    split
    · exact span_events A node
    · exact (span_events (.item .block 0 :: A) node).child.mono fun _ _ => trivial

theorem span_eventsList (A : Address) (step : Nat → Step) (hstep : ∀ i k, i < k → Apart (step i) (step k))
    (visits : CTree → Bool) : ∀ (j : Nat) (nodes : List CTree),
      Span A (From step j) (eventsList (fun k => (step k :: A, position (step k :: A))) visits j nodes)
  | _, [] => Span.quiet rfl
  | j, node :: nodes =>
    Span.cons hstep ((span_events (step j :: A) node).shown (visits node)).child
      (span_eventsList A step hstep visits (j + 1) nodes)

theorem span_eventsTypes (A : Address) :
    ∀ (j : Nat) (types : List CType), Span A (From (.entry .ctype) j) (eventsTypes A (position A) j types)
  | _, [] => Span.quiet rfl
  | j, .mk body identifier list param enum :: types => by
    have hparts := (((Span.begin.next (span_eventsOpt (.attr .body :: .entry .ctype j :: A) body).child
      (by decide)).next (Span.text .identifier .typeName identifier) (by decide)).nextEntries
      (span_eventsList (.entry .ctype j :: A) (.entry .list) (apart_entry .list) (fun _ => true) 0 list)
      (by decide)).next (span_eventsOpt (.attr .param :: .entry .ctype j :: A) param).child (by decide)
    have hlink := hparts.nextEntries
      (span_eventsList (.entry .ctype j :: A) (.entry .enum) (apart_entry .enum) (fun _ => true) 0 enum) (by decide)
    exact Span.cons (apart_entry .ctype) hlink.child (span_eventsTypes A (j + 1) types)

theorem span_eventsPostfixes (A : Address) :
    ∀ (j : Nat) (items : List Postfix), Span A (From (.entry .list) j) (eventsPostfixes A (position A) j items)
  | _, [] => Span.quiet rfl
  | j, .index expr :: items =>
    Span.cons (apart_entry .list) ((span_events (.entry .list j :: A) expr).shown (!expr.hasList)).child
      (span_eventsPostfixes A (j + 1) items)
  | j, .call args :: items =>
    Span.cons (apart_entry .list)
      (span_eventsList (.entry .list j :: A) (.entry .args) (apart_entry .args) CTree.isExpr 0 args).child
      (span_eventsPostfixes A (j + 1) items)

end

/-! ## Statements in blocks -/

mutual

/-- Statements stand in `__block__`s: as an item, or in a statement that does. -/
def placed (inside : Bool) : CTree → Bool
  | .block kind items => placedList (kind = .block) items
  | .decl _ ctype _ colonExpr assignExpr body =>
    placedTypes inside ctype && placedOpt inside colonExpr && placedOpt inside assignExpr && placedOpt inside body
  | .expr _ _ left right condition thenExpr elseExpr body list =>
    placedOpt inside left && placedOpt inside right && placedOpt inside condition && placedOpt inside thenExpr &&
      placedOpt inside elseExpr && placedOpt inside body && placedPostfixes inside list
  | .terminal _ => true
  | .stmt expr _ condition thenStmt elseStmt initial increment body =>
    inside && placedOpt inside expr && placedOpt inside condition && placedOpt inside thenStmt &&
      placedOpt inside elseStmt && placedOpt inside initial && placedOpt inside increment && placedOpt inside body
  | .indexDesignation index expr => placed inside index && placed inside expr
  | .fieldDesignation _ expr => placed inside expr
  | .pointcutRaw _ => true

def placedOpt (inside : Bool) : Option CTree → Bool
  | none => true
  | some node => placed inside node

def placedList (inside : Bool) : List CTree → Bool
  | [] => true
  | node :: nodes => placed inside node && placedList inside nodes

def placedTypes (inside : Bool) : List CType → Bool
  | [] => true
  | .mk body _ list param enum :: types =>
    placedOpt inside body && placedList inside list && placedOpt inside param && placedList inside enum &&
      placedTypes inside types

def placedPostfixes (inside : Bool) : List Postfix → Bool
  | [] => true
  | .index expr :: items => placed inside expr && placedPostfixes inside items
  | .call args :: items => placedList inside args && placedPostfixes inside items

end

/-- The statements among some events are in `__block__`s. -/
def StatementsInBlock (es : List Event) : Prop := ∀ x ∈ sites es, x.role = .statement → inBlock x.address = true

@[simp] theorem statementsInBlock_append {es fs : List Event} :
    StatementsInBlock (es ++ fs) ↔ StatementsInBlock es ∧ StatementsInBlock fs := by
  simp only [StatementsInBlock, sites_append, List.mem_append, or_imp, forall_and]

theorem statementsInBlock_quiet {es : List Event} (h : sites es = []) : StatementsInBlock es := by
  intro x hx
  rw [h] at hx
  cases hx

theorem statementsInBlock_text {x : Site} (h : x.role ≠ .statement) : StatementsInBlock [.text x] := by
  intro y hy hrole
  obtain rfl := List.mem_singleton.1 hy
  exact absurd hrole h

theorem StatementsInBlock.operand {es : List Event} (h : StatementsInBlock es) (present points : Bool) :
    StatementsInBlock (operand present points es) := by
  intro x hx
  rw [sites_operand] at hx
  exact h x hx

theorem StatementsInBlock.shown {es : List Event} (h : StatementsInBlock es) (visited : Bool) :
    StatementsInBlock (shown visited es) := by
  cases visited with
  | true => exact h
  | false =>
    intro x hx hrole
    obtain ⟨y, _, rfl⟩ := mem_sites_hide _ hx
    cases hrole

mutual

theorem statementsInBlock_events (A : Address) (i : Int) :
    ∀ node : CTree, placed (inBlock A) node = true → StatementsInBlock (events A i node)
  | .block kind items, h => statementsInBlock_eventsList (fun j => (.item kind j :: A, j)) (fun _ => rfl) _ 0 items h
  | .decl kind ctype name colonExpr assignExpr body, h => by
    simp only [placed, Bool.and_eq_true] at h
    obtain ⟨⟨⟨ht, hc⟩, ha⟩, hb⟩ := h
    simp only [events, statementsInBlock_append]
    exact ⟨⟨⟨⟨statementsInBlock_eventsTypes A i 0 ctype ht, statementsInBlock_text nofun⟩,
      statementsInBlock_eventsOpt (.attr .colonExpr :: A) i colonExpr hc⟩,
      statementsInBlock_eventsOpt (.attr .assignExpr :: A) i assignExpr ha⟩,
      statementsInBlock_eventsOpt (.attr .body :: A) i body hb⟩
  | .expr exprType operator left right condition thenExpr elseExpr body list, h => by
    simp only [placed, Bool.and_eq_true] at h
    obtain ⟨⟨⟨⟨⟨⟨hl, hr⟩, hc⟩, ht⟩, he⟩, hb⟩, hp⟩ := h
    simp only [events, statementsInBlock_append]
    exact ⟨⟨⟨⟨⟨⟨⟨statementsInBlock_quiet rfl,
      (statementsInBlock_eventsOpt (.attr .left :: A) i left hl).operand _ _⟩,
      (statementsInBlock_eventsOpt (.attr .right :: A) i right hr).operand _ _⟩,
      statementsInBlock_eventsOpt (.attr .condition :: A) i condition hc⟩,
      statementsInBlock_eventsOpt (.attr .thenPart :: A) i thenExpr ht⟩,
      statementsInBlock_eventsOpt (.attr .elsePart :: A) i elseExpr he⟩,
      statementsInBlock_eventsOpt (.attr .body :: A) i body hb⟩, statementsInBlock_eventsPostfixes A i 0 list hp⟩
  | .terminal id, _ => by
    have hid : StatementsInBlock [.text ⟨.attr .id :: A, i, .terminal, id⟩] := statementsInBlock_text nofun
    exact hid
  | .stmt expr label condition thenStmt elseStmt initial increment body, h => by
    simp only [placed, Bool.and_eq_true] at h
    obtain ⟨⟨⟨⟨⟨⟨⟨hin, hx⟩, hc⟩, ht⟩, he⟩, hn⟩, hm⟩, hb⟩ := h
    simp only [events, statementsInBlock_append]
    exact ⟨⟨⟨⟨⟨⟨⟨statementsInBlock_eventsTarget (.attr .expr :: A) i hin expr hx, statementsInBlock_text nofun⟩,
      statementsInBlock_eventsOpt (.attr .condition :: A) i condition hc⟩,
      statementsInBlock_eventsBody (.attr .thenPart :: A) i hin thenStmt ht⟩,
      statementsInBlock_eventsBody (.attr .elsePart :: A) i hin elseStmt he⟩,
      statementsInBlock_eventsOpt (.attr .initial :: A) i initial hn⟩,
      statementsInBlock_eventsOpt (.attr .increment :: A) i increment hm⟩,
      statementsInBlock_eventsBody (.attr .body :: A) i hin body hb⟩
  | .indexDesignation index expr, h => by
    simp only [placed, Bool.and_eq_true] at h
    simp only [events, statementsInBlock_append]
    exact ⟨statementsInBlock_events (.attr .index :: A) i index h.1,
      statementsInBlock_events (.attr .expr :: A) i expr h.2⟩
  | .fieldDesignation name expr, h => by
    simp only [events, statementsInBlock_append]
    exact ⟨statementsInBlock_text nofun, statementsInBlock_events (.attr .expr :: A) i expr h⟩
  | .pointcutRaw id, _ => statementsInBlock_text nofun

theorem statementsInBlock_eventsOpt (A : Address) (i : Int) :
    ∀ node : Option CTree, placedOpt (inBlock A) node = true → StatementsInBlock (eventsOpt A i node)
  | none, _ => statementsInBlock_quiet rfl
  | some node, h => statementsInBlock_events A i node h

theorem statementsInBlock_eventsTarget (A : Address) (i : Int) (hin : inBlock A = true) :
    ∀ node : Option CTree, placedOpt (inBlock A) node = true → StatementsInBlock (eventsTarget A i node)
  | none, _ => statementsInBlock_quiet rfl
  | some node, h => by
    rw [eventsTarget]
    split
    · intro x hx _
      obtain rfl := List.mem_singleton.1 hx
      exact hin
    · exact statementsInBlock_events A i node h

theorem statementsInBlock_eventsBody (A : Address) (i : Int) (hin : inBlock A = true) :
    ∀ node : Option CTree, placedOpt (inBlock A) node = true → StatementsInBlock (eventsBody A i node)
  | none, _ => statementsInBlock_quiet rfl
  | some node, h => by
    rw [eventsBody]
    split
    · exact statementsInBlock_events A i node h
    · -- the new block is a `__block__` too
      rw [hin] at h
      exact statementsInBlock_events (.item .block 0 :: A) 0 node h

theorem statementsInBlock_eventsList (place : Nat → Address × Int) {inside : Bool}
    (hin : ∀ j, inBlock (place j).1 = inside) (visits : CTree → Bool) :
    ∀ (j : Nat) (nodes : List CTree),
      placedList inside nodes = true → StatementsInBlock (eventsList place visits j nodes)
  | _, [], _ => statementsInBlock_quiet rfl
  | j, node :: nodes, h => by
    simp only [placedList, Bool.and_eq_true] at h
    rw [eventsList, statementsInBlock_append]
    have hnode := statementsInBlock_events (place j).1 (place j).2 node (by rw [hin j]; exact h.1)
    exact ⟨hnode.shown _, statementsInBlock_eventsList place hin visits (j + 1) nodes h.2⟩

theorem statementsInBlock_eventsTypes (A : Address) (i : Int) :
    ∀ (j : Nat) (types : List CType),
      placedTypes (inBlock A) types = true → StatementsInBlock (eventsTypes A i j types)
  | _, [], _ => statementsInBlock_quiet rfl
  | j, .mk body identifier list param enum :: types, h => by
    simp only [placedTypes, Bool.and_eq_true] at h
    obtain ⟨⟨⟨⟨hb, hl⟩, hp⟩, he⟩, hs⟩ := h
    simp only [eventsTypes, statementsInBlock_append]
    exact ⟨⟨⟨⟨⟨statementsInBlock_eventsOpt (.attr .body :: .entry .ctype j :: A) i body hb,
      statementsInBlock_text nofun⟩,
      statementsInBlock_eventsList (fun k => (.entry .list k :: .entry .ctype j :: A, i)) (fun _ => rfl) _ 0 list hl⟩,
      statementsInBlock_eventsOpt (.attr .param :: .entry .ctype j :: A) i param hp⟩,
      statementsInBlock_eventsList (fun k => (.entry .enum k :: .entry .ctype j :: A, i)) (fun _ => rfl) _ 0 enum he⟩,
      statementsInBlock_eventsTypes A i (j + 1) types hs⟩

theorem statementsInBlock_eventsPostfixes (A : Address) (i : Int) :
    ∀ (j : Nat) (items : List Postfix),
      placedPostfixes (inBlock A) items = true → StatementsInBlock (eventsPostfixes A i j items)
  | _, [], _ => statementsInBlock_quiet rfl
  | j, .index expr :: items, h => by
    simp only [placedPostfixes, Bool.and_eq_true] at h
    rw [eventsPostfixes, statementsInBlock_append]
    exact ⟨(statementsInBlock_events (.entry .list j :: A) i expr h.1).shown _,
      statementsInBlock_eventsPostfixes A i (j + 1) items h.2⟩
  | j, .call args :: items, h => by
    simp only [placedPostfixes, Bool.and_eq_true] at h
    rw [eventsPostfixes, statementsInBlock_append]
    exact ⟨statementsInBlock_eventsList (fun k => (.entry .args k :: .entry .list j :: A, i)) (fun _ => rfl) _ 0 args h.1,
      statementsInBlock_eventsPostfixes A i (j + 1) items h.2⟩

end

/-! ## The entries of a chunk -/

/-- The body of a chunk: C code with its statements in `__block__`s. -/
structure ChunkBody where
  tree : CTree
  placed : placed false tree = true

/-- The block of an entry. -/
def Entry.block? (entry : Entry) : Option Address := (entry.refPlaceholder.bind container).map Prod.fst

/-- If the entries are of one block, the position does not go down. -/
def NotDown (entry entry' : Entry) : Prop :=
  ∀ block, entry.block? = some block → entry'.block? = some block → entry.blockIdx ≤ entry'.blockIdx

/-- The entry of a placeholder for a statement: the key is in the statement the entry refers to, which is the item with this
position of the innermost block around the key, and that is a `__block__`. -/
structure Anchored (tree : CTree) (key : String) (entry : Entry) (x : Site) (block : Address) (i : Nat) : Prop where
  stands : x ∈ sitesOf tree ∧ x.text = key
  innermost : container x.address = some (block, i)
  kind : inBlock x.address = true
  ref : entry.refPlaceholder = some (.item .block i :: block)
  position : entry.blockIdx = i

/-- An entry comes from a site, at which there is its key afterwards. -/
theorem site_of_recorded : ∀ (es : List Event) (s : Walk) {e : String × Entry},
    e ∈ number s.nbplaceholder (recorded es s.phtype) →
      ∃ x ∈ sites es, ∃ p, e.2 = x.entry p ∧ { x with text := e.1 } ∈ sites (relabel es s)
  | .text x :: es, s, e, h => by
    have h' : e ∈ number s.nbplaceholder (Event.recorded s.phtype (.text x) ++ recorded es s.phtype) := h
    have hsites : sites (relabel (.text x :: es) s) =
      { x with text := (x.visit s).1 } :: sites (relabel es (x.visit s).2) := rfl
    rw [hsites]
    cases hx : x.replaced with
    | true =>
      simp only [Event.recorded, hx, ↓reduceIte, List.cons_append, List.nil_append, number, List.mem_cons] at h'
      rw [Site.visit_of_replaced hx]
      rcases h' with rfl | h'
      · exact ⟨x, List.mem_cons_self, s.phtype, rfl, List.mem_cons_self⟩
      · obtain ⟨y, hy, p, hp, hmem⟩ := site_of_recorded es
          ⟨s.compile.set (placeHolderKey (s.nbplaceholder + 1)) (x.entry s.phtype), s.nbplaceholder + 1, s.phtype⟩ h'
        exact ⟨y, List.mem_cons_of_mem _ hy, p, hp, List.mem_cons_of_mem _ hmem⟩
    | false =>
      simp only [Event.recorded, hx, Bool.false_eq_true, ↓reduceIte, List.nil_append] at h'
      rw [Site.visit_of_not_replaced hx]
      obtain ⟨y, hy, p, hp, hmem⟩ := site_of_recorded es s h'
      exact ⟨y, List.mem_cons_of_mem _ hy, p, hp, List.mem_cons_of_mem _ hmem⟩
  | .init :: es, s, e, h => by
    refine site_of_recorded es s.initPhtype ?_
    rw [s.initPhtype_eq]
    exact h
  | .set q :: es, s, e, h => site_of_recorded es (s.setPhtype q) h

theorem mem_recorded (es : List Event) {p : Option PhType} {e : Entry} (h : e ∈ recorded es p) :
    ∃ x ∈ sites es, ∃ q, e = x.entry q := by
  rw [← values_number 0 (recorded es p)] at h
  obtain ⟨numbered, hmem, rfl⟩ := List.mem_map.1 h
  obtain ⟨x, hx, q, hq, -⟩ := site_of_recorded es ⟨Table.empty, 0, p⟩ hmem
  exact ⟨x, hx, q, hq⟩

/-- What holds of any two sites in their order holds of the entries. -/
theorem pairwise_recorded {R : Entry → Entry → Prop} : ∀ (es : List Event) {p : Option PhType},
    (sites es).Pairwise (fun x y => ∀ p q, R (x.entry p) (y.entry q)) → (recorded es p).Pairwise R
  | [], _, _ => List.Pairwise.nil
  | .text x :: es, p, h => by
    obtain ⟨hx, hes⟩ := List.pairwise_cons.1 h
    refine List.pairwise_append.2 ⟨?_, pairwise_recorded es hes, fun e he e' he' => ?_⟩
    · rw [Event.recorded]
      split
      · exact List.pairwise_singleton _ _
      · exact List.Pairwise.nil
    · rw [Event.recorded] at he
      split at he
      · obtain rfl := List.mem_singleton.1 he
        obtain ⟨y, hy, q, rfl⟩ := mem_recorded es he'
        exact hx y hy p q
      · cases he
  | .init :: es, _, h => pairwise_recorded es h
  | .set _ :: es, _, h => pairwise_recorded es h

/-- The entry made at a site refers to what is in the block the site is in. -/
theorem container_ref {x : Site} (hattr : ∃ a B, x.address = .attr a :: B)
    (hblock : x.role = .statement → inBlock x.address = true) (p : Option PhType) :
    (x.entry p).refPlaceholder.bind container = container x.address := by
  obtain ⟨a, B, haddress⟩ := hattr
  have hparent : container x.address.tail = container x.address := by rw [haddress]; rfl
  show (x.role.target.refPlaceholder x.address).bind container = container x.address
  cases hrole : x.role with
  | statement =>
    obtain ⟨C, i, hC, hclimb⟩ := climb_of_inBlock (hblock hrole)
    rw [hC]
    show (climb x.address).bind container = _
    rw [hclimb]
    rfl
  | typeName | terminal | raw => exact hparent
  | identifier | unvisited => rfl

section

variable (phtype : Option PhType) (body : ChunkBody)

theorem span_body : Span [] (fun _ => True) (events [] (-1) body.tree) := span_events [] body.tree

theorem statementsInBlock_body : StatementsInBlock (events [] (-1) body.tree) :=
  statementsInBlock_events [] (-1) body.tree body.placed

/-- A placeholder for a statement is anchored at the statement. -/
theorem anchored_of_mem {key : String} {entry : Entry}
    (hmem : (key, entry) ∈ (compileRoot phtype body.tree).2.compile.entries) (htarget : entry.typeTarget = .pointcut) :
    ∃ x block i, Anchored (compileRoot phtype body.tree).1 key entry x block i := by
  have hspan := span_body body
  rw [(ran_compileRoot phtype body.tree).entries] at hmem
  obtain ⟨x, hx, p, rfl, hstands⟩ := site_of_recorded _ ⟨Table.empty, 0, phtype⟩ hmem
  have hrole : x.role = .statement := by
    cases hrole : x.role with
    | statement => rfl
    | identifier | typeName | terminal | raw | unvisited =>
      have : x.role.target = .pointcut := htarget
      rw [hrole] at this
      cases this
  have hblock := statementsInBlock_body body x hx hrole
  obtain ⟨C, i, hC, hclimb⟩ := climb_of_inBlock hblock
  refine ⟨{ x with text := key }, C, i, ?_, hC, hblock, ?_, ?_⟩
  · refine ⟨?_, rfl⟩
    rw [sitesOf, compileRoot, events_compile]
    exact hstands
  · show x.role.target.refPlaceholder x.address = _
    rw [hrole]
    exact hclimb
  · show x.nodeIdx = _
    rw [hspan.position x hx, position, hC]

theorem ordered_entries : (compileRoot phtype body.tree).2.compile.entries.Pairwise
    (fun e e' => NotDown e.2 e'.2) := by
  have hspan := span_body body
  refine (List.pairwise_map (f := Prod.snd) (R := NotDown)).1 ?_
  have hvalues : (compileRoot phtype body.tree).2.compile.entries.map Prod.snd =
      recorded (events [] (-1) body.tree) phtype := by
    rw [(ran_compileRoot phtype body.tree).entries]
    exact values_number 0 _
  rw [hvalues]
  refine pairwise_recorded _ (hspan.ordered.imp_of_mem ?_)
  intro x y hx hy hxy p q block hbx hby
  have hblock : ∀ z ∈ sites (events [] (-1) body.tree), ∀ r, (z.entry r).block? = some block →
      ∃ i : Nat, container z.address = some (block, i) ∧ z.nodeIdx = i := by
    intro z hz r hb
    rw [Entry.block?, container_ref (hspan.atText z hz) (statementsInBlock_body body z hz)] at hb
    obtain ⟨⟨_, i⟩, hC, rfl⟩ := Option.map_eq_some_iff.1 hb
    exact ⟨i, hC, by rw [hspan.position z hz, position, hC]⟩
  obtain ⟨i, hi, hxi⟩ := hblock x hx p hbx
  obtain ⟨j, hj, hyj⟩ := hblock y hy q hby
  show x.nodeIdx ≤ y.nodeIdx
  rw [hxi, hyj]
  exact Int.ofNat_le.2 (hxy block i j hi hj)

/-- After the walk over the body of a chunk every placeholder for a statement is anchored at its statement, and in the table
the positions in one block do not go down. -/
theorem pointcuts_in_place :
    (∀ e ∈ (compileRoot phtype body.tree).2.compile.entries, e.2.typeTarget = .pointcut →
      ∃ x block i, Anchored (compileRoot phtype body.tree).1 e.1 e.2 x block i) ∧
    (compileRoot phtype body.tree).2.compile.entries.Pairwise
      (fun e e' => NotDown e.2 e'.2) :=
  ⟨fun _ he htarget => anchored_of_mem phtype body he htarget, ordered_entries phtype body⟩

end

/-- `if (c) p;`, where `p` is a placeholder. -/
def guarded : ChunkBody where
  tree := .block .block [.stmt none "" (some (.terminal "c")) (some (.stmt (some (.terminal "$\x7bp\x7d")) ""
    none none none none none none)) none none none none]
  placed := by decide

/-- The statement is item 0 of the block it is put in. -/
theorem guarded_in_place : ∃ e ∈ (compileRoot none guarded.tree).2.compile.entries, e.2.typeTarget = .pointcut ∧
    e.2.refPlaceholder = some [.item .block 0, .attr .thenPart, .item .block 0] ∧
    ∃ x block i, Anchored (compileRoot none guarded.tree).1 e.1 e.2 x block i := by
  refine ⟨("_1", ⟨0, "$\x7bp\x7d", .pointcut, .scalar, some [.item .block 0, .attr .thenPart, .item .block 0]⟩), ?_,
    rfl, rfl, ?_⟩
  · decide
  · exact (pointcuts_in_place none guarded).1 _ (by decide) rfl

end Back

end Rathaxes
