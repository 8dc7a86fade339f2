import Mathlib.Data.List.Basic

/-!
# Reading a concatenated text back

A text put together from a head and a tail can be taken apart again when a closing character ends
every non-empty head and stands in no tail: the head goes up to the last such character. So can one joined
from parts, when no part is empty or has the separator in it.
-/

set_option autoImplicit false

namespace CodeWorker

/-- Two splits of one list at a last occurrence of `c` are the same split. -/
theorem split_last_unique {α : Type} {c : α} {a b r r' : List α} (hr : c ∉ r) (hr' : c ∉ r')
    (h : a ++ c :: r = b ++ c :: r') : a = b ∧ r = r' := by
  -- compare the tails from the end, where neither has met c yet
  rcases List.append_eq_append_iff.1 h with ⟨d, rfl, hd⟩ | ⟨d, rfl, hd⟩
  · cases d with
    | nil => simpa using hd
    | cons x d =>
      obtain ⟨rfl, rfl⟩ := List.cons.inj hd
      exact absurd (List.mem_append_right d (List.mem_cons_self ..)) hr
  · cases d with
    | nil => simpa [eq_comm] using hd
    | cons x d =>
      obtain ⟨rfl, rfl⟩ := List.cons.inj hd
      exact absurd (List.mem_append_right d (List.mem_cons_self ..)) hr'

/-- Two splits of one list at a first occurrence of `c` are the same split. -/
theorem split_first_unique {α : Type} {c : α} {a b r r' : List α} (ha : c ∉ a) (hb : c ∉ b)
    (h : a ++ c :: r = b ++ c :: r') : a = b ∧ r = r' := by
  have hreverse : r.reverse ++ c :: a.reverse = r'.reverse ++ c :: b.reverse := by
    simpa using congrArg List.reverse h
  obtain ⟨hr, hab⟩ := split_last_unique (by simpa using ha) (by simpa using hb) hreverse
  exact ⟨List.reverse_injective hab, List.reverse_injective hr⟩

/-- **Two splits of one list at an occurrence of `c`**: the same one, or one of them cuts the head of the
other. -/
theorem split_eq_split_iff {α : Type} {c : α} {a b r r' : List α} :
    a ++ c :: r = b ++ c :: r' ↔ (a = b ∧ r = r') ∨
      (∃ t, b = a ++ c :: t ∧ r = t ++ c :: r') ∨ ∃ t, a = b ++ c :: t ∧ r' = t ++ c :: r := by
  constructor
  · intro h
    rcases List.append_eq_append_iff.1 h with ⟨d, rfl, hd⟩ | ⟨d, rfl, hd⟩
    · cases d with
      | nil => exact Or.inl ⟨(List.append_nil a).symm, (List.cons.inj hd).2⟩
      | cons x d =>
        obtain ⟨rfl, rfl⟩ := List.cons.inj hd
        exact Or.inr (Or.inl ⟨d, rfl, rfl⟩)
    · cases d with
      | nil => exact Or.inl ⟨List.append_nil b, (List.cons.inj hd).2.symm⟩
      | cons x d =>
        obtain ⟨rfl, rfl⟩ := List.cons.inj hd
        exact Or.inr (Or.inr ⟨d, rfl, rfl⟩)
  · rintro (⟨rfl, rfl⟩ | ⟨t, rfl, rfl⟩ | ⟨t, rfl, rfl⟩)
    · rfl
    · rw [List.append_assoc, List.cons_append]
    · rw [List.append_assoc, List.cons_append]

/-- The text is empty or ends with `c`. -/
def ClosedBy (c : Char) (s : String) : Prop := s = "" ∨ ∃ a, s.toList = a ++ [c]

theorem closedBy_empty (c : Char) : ClosedBy c "" := Or.inl rfl

/-- **Heads closed by `c` and tails without it can be told apart.** -/
theorem append_inj_of_closedBy {c : Char} {h h' t t' : String} (hh : ClosedBy c h)
    (hh' : ClosedBy c h') (ht : c ∉ t.toList) (ht' : c ∉ t'.toList) (heq : h ++ t = h' ++ t') :
    h = h' ∧ t = t' := by
  have hlist : h.toList ++ t.toList = h'.toList ++ t'.toList := by
    simpa only [String.toList_append] using congrArg String.toList heq
  rcases hh with rfl | ⟨a, ha⟩
  · rcases hh' with rfl | ⟨a', ha'⟩
    · exact ⟨rfl, by simpa using heq⟩
    · rw [ha', String.toList_empty, List.nil_append] at hlist
      exact absurd (hlist ▸ by simp) ht
  · rcases hh' with rfl | ⟨a', ha'⟩
    · rw [ha, String.toList_empty, List.nil_append] at hlist
      exact absurd (hlist ▸ by simp) ht'
    · rw [ha, ha', List.append_assoc, List.append_assoc] at hlist
      obtain ⟨rfl, htail⟩ := split_last_unique ht ht' hlist
      exact ⟨String.toList_injective (ha.trans ha'.symm), String.toList_injective htail⟩

/-! ## Joined texts -/

/-- Joined parts are the first one and, behind a separator each, the others. -/
theorem intercalate_cons_eq_flatMap {α : Type} (sep : List α) : ∀ (p : List α) (parts : List (List α)),
    sep.intercalate (p :: parts) = p ++ parts.flatMap fun q => sep ++ q
  | p, [] => by simp
  | p, q :: parts => by
    rw [List.intercalate_cons_cons, intercalate_cons_eq_flatMap sep q parts, List.flatMap_cons, List.append_assoc,
      List.append_assoc]

theorem not_mem_intercalate {α : Type} {c : α} {sep : List α} (hsep : c ∉ sep) :
    ∀ {parts : List (List α)}, (∀ p ∈ parts, c ∉ p) → c ∉ sep.intercalate parts
  | [], _ => by simp
  | [p], h => by simpa using h p List.mem_cons_self
  | p :: q :: parts, h => by
    have hrest := not_mem_intercalate hsep fun p' hp' => h p' (List.mem_cons_of_mem p hp')
    rw [List.intercalate_cons_cons]
    simp only [List.mem_append, not_or]
    exact ⟨⟨h p List.mem_cons_self, hsep⟩, hrest⟩

theorem eq_nil_of_intercalate_eq_nil {α : Type} {c : α} : ∀ {parts : List (List α)},
    (∀ p ∈ parts, p ≠ []) → [c].intercalate parts = [] → parts = []
  | [], _, _ => rfl
  | [p], hne, h => by
    rw [List.intercalate_singleton] at h
    exact absurd h (hne p List.mem_cons_self)
  | p :: q :: parts, _, h => by
    simp [List.intercalate_cons_cons] at h

/-- The parts of a joined text can be read back when none is empty and the separator is in none. -/
theorem intercalate_inj {α : Type} [DecidableEq α] {c : α} {as bs : List (List α)}
    (has : ∀ a ∈ as, a ≠ [] ∧ c ∉ a) (hbs : ∀ b ∈ bs, b ≠ [] ∧ c ∉ b)
    (h : [c].intercalate as = [c].intercalate bs) : as = bs := by
  by_cases ha : as = []
  · subst ha
    exact (eq_nil_of_intercalate_eq_nil (fun b hb => (hbs b hb).1) h.symm).symm
  · by_cases hb : bs = []
    · subst hb
      exact eq_nil_of_intercalate_eq_nil (fun a ha => (has a ha).1) h
    · have hsplit := congrArg (List.splitOn c) h
      rwa [List.splitOn_intercalate c (fun a ha => (has a ha).2) ha,
        List.splitOn_intercalate c (fun b hb => (hbs b hb).2) hb] at hsplit

end CodeWorker
