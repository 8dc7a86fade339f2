import Mathlib.Data.List.Perm.Basic
import Rathaxes.CodeWorker.Table

/-!
# Grouping

An array of arrays keeps items by key: the keys stand in the order in which they first occurred, and
under a key stand its items in the order they came. Walking over it meets the items regrouped. Here is
when the walk meets them in the order they came: when the keys never go back (`regroup_eq_iff`).
-/

set_option autoImplicit false

namespace CodeWorker

variable {α κ : Type} [DecidableEq κ]

/-! ## Keys in the order of their first occurrence -/

/-- The keys with one more, unless it is there. -/
def addKey (ks : List κ) (k : κ) : List κ := if k ∈ ks then ks else ks ++ [k]

theorem mem_addKey {ks : List κ} {k k' : κ} : k' ∈ addKey ks k ↔ k' ∈ ks ∨ k' = k := by
  unfold addKey
  split
  · rename_i hk
    constructor
    · exact Or.inl
    · rintro (h | rfl)
      · exact h
      · exact hk
  · rw [List.mem_append, List.mem_singleton]

theorem addKey_of_mem {ks : List κ} {k : κ} (h : k ∈ ks) : addKey ks k = ks := if_pos h

theorem nodup_addKey {ks : List κ} (k : κ) (h : ks.Nodup) : (addKey ks k).Nodup := by
  unfold addKey
  split
  · exact h
  · rename_i hk
    exact h.append (List.nodup_singleton k) (List.disjoint_singleton.2 hk)

/-- The keys of a list, each where it occurs first. -/
def firsts (ks : List κ) : List κ := ks.foldl addKey []

theorem firsts_concat (ks : List κ) (k : κ) : firsts (ks ++ [k]) = addKey (firsts ks) k :=
  List.foldl_concat _ _ _ _

theorem mem_foldl_addKey {k : κ} : ∀ {new ks : List κ}, k ∈ new.foldl addKey ks ↔ k ∈ ks ∨ k ∈ new := by
  intro new
  induction new with
  | nil => simp
  | cons k' new ih =>
    intro ks
    rw [List.foldl_cons, ih, mem_addKey, List.mem_cons, or_assoc]

theorem mem_firsts {k : κ} {ks : List κ} : k ∈ firsts ks ↔ k ∈ ks := by
  simp [firsts, mem_foldl_addKey]

theorem nodup_foldl_addKey : ∀ (new : List κ) {ks : List κ}, ks.Nodup → (new.foldl addKey ks).Nodup
  | [], _, h => h
  | k :: new, _, h => nodup_foldl_addKey new (nodup_addKey k h)

theorem nodup_firsts (ks : List κ) : (firsts ks).Nodup := nodup_foldl_addKey ks List.nodup_nil

/-- New keys, none twice, are appended. -/
theorem foldl_addKey_of_nodup : ∀ {new ks : List κ}, (ks ++ new).Nodup → new.foldl addKey ks = ks ++ new := by
  intro new
  induction new with
  | nil => simp
  | cons k new ih =>
    intro ks h
    have hk : k ∉ ks := fun hmem => List.disjoint_of_nodup_append h hmem List.mem_cons_self
    rw [List.append_cons] at h ⊢
    rw [List.foldl_cons, addKey, if_neg hk]
    exact ih h

/-! ## The first item of each key -/

section FirstItems

variable (key : α → κ)

/-- The items with one more, unless there is one with its key. -/
def addFirst (items : List α) (a : α) : List α := if key a ∈ items.map key then items else items ++ [a]

/-- The items of a list that are the first of their key. -/
def firstItems (items : List α) : List α := items.foldl (addFirst key) []

variable {key}

theorem map_addFirst (items : List α) (a : α) :
    (addFirst key items a).map key = addKey (items.map key) (key a) := by
  unfold addFirst addKey
  split
  · rfl
  · rw [List.map_append, List.map_singleton]

theorem map_foldl_addFirst : ∀ (new items : List α),
    (new.foldl (addFirst key) items).map key = (new.map key).foldl addKey (items.map key)
  | [], _ => rfl
  | a :: new, items => by
    rw [List.foldl_cons, map_foldl_addFirst new, map_addFirst, List.map_cons, List.foldl_cons]

/-- The keys of the first items are the keys, each where it occurs first. -/
theorem map_firstItems (items : List α) : (firstItems key items).map key = firsts (items.map key) :=
  map_foldl_addFirst items []

theorem mem_foldl_addFirst {e : α} : ∀ {new items : List α},
    e ∈ new.foldl (addFirst key) items ↔
      e ∈ items ∨ (key e ∉ items.map key ∧ new.find? (fun a => key a = key e) = some e)
  | [], items => by simp
  | a :: new, items => by
    rw [List.foldl_cons, mem_foldl_addFirst, map_addFirst, mem_addKey, not_or, List.find?_cons]
    unfold addFirst
    by_cases hkey : key a = key e
    · -- the new item has the key that is asked for
      rw [hkey]
      by_cases hmem : key e ∈ items.map key
      · simp [hmem]
      · simp [hmem, eq_comm]
    · have hne : e ≠ a := fun h => hkey (congrArg key h.symm)
      by_cases hmem : key a ∈ items.map key
      · simp [hmem, hkey, Ne.symm hkey]
      · simp [hmem, hkey, Ne.symm hkey, hne]

/-- **The first items** are those the search for their key finds. -/
theorem mem_firstItems {e : α} {items : List α} :
    e ∈ firstItems key items ↔ items.find? (fun a => key a = key e) = some e := by
  rw [firstItems, mem_foldl_addFirst]
  simp

/-- There is one first item for each key. -/
theorem countP_firstItems {k : κ} {items : List α} (h : k ∈ items.map key) :
    (firstItems key items).countP (fun a => key a = k) = 1 := by
  have hcount : (firstItems key items).countP (fun a => key a = k) = ((firstItems key items).map key).count k := by
    rw [List.count, List.countP_map]
    exact List.countP_congr fun a _ => by simp
  rw [hcount, map_firstItems, List.count_eq_one_of_mem (nodup_firsts _) (mem_firsts.2 h)]

end FirstItems

namespace Table

variable {β : Type}

/-- The keys of an array, in order. -/
def keys (t : Table β) : List String := t.entries.map Prod.fst

theorem keys_assign (k : String) (v : β) :
    ∀ es : List (String × β), (assign k v es).map Prod.fst = addKey (es.map Prod.fst) k
  | [] => rfl
  | (key, val) :: es => by
    have ih := keys_assign k v es
    unfold addKey at ih ⊢
    by_cases hk : key = k
    · subst hk
      simp [assign]
    · simp only [assign, hk, ↓reduceIte, List.map_cons, ih, List.mem_cons, Ne.symm hk, false_or]
      split <;> rfl

theorem keys_set (t : Table β) (k : String) (v : β) : (t.set k v).keys = addKey t.keys k :=
  keys_assign k v t.entries

/-- The entries are the keys with what is read under them. -/
theorem entries_eq (t : Table β) (dflt : β) :
    t.entries = t.keys.map fun k => (k, (t.get? k).getD dflt) := by
  unfold keys
  rw [List.map_map]
  conv_lhs => rw [← List.map_id t.entries]
  apply List.map_congr_left
  intro e he
  have hget : t.get? e.1 = some e.2 := (t.mem_entries_iff e.1 e.2).1 he
  simp [hget]

end Table

/-! ## Regrouping -/

/-- The items, key by key. -/
def regroup (ks : List κ) (key : α → κ) (l : List α) : List α :=
  ks.flatMap fun k => l.filter fun a => key a = k

variable {key : α → κ}

theorem regroup_cons (k : κ) (ks : List κ) (key : α → κ) (l : List α) :
    regroup (k :: ks) key l = (l.filter fun a => key a = k) ++ regroup ks key l := rfl

theorem filter_regroup (ks : List κ) (key : α → κ) (p : α → Bool) (l : List α) :
    (regroup ks key l).filter p = regroup ks key (l.filter p) := by
  induction ks with
  | nil => rfl
  | cons k ks ih =>
    rw [regroup_cons, regroup_cons, List.filter_append, ih, List.filter_filter, List.filter_filter]
    simp only [Bool.and_comm]

/-- The groups of other keys do not see the items of one key. -/
theorem regroup_filter_ne {k : κ} {ks : List κ} (hk : k ∉ ks) (l : List α) :
    regroup ks key (l.filter fun a => ¬ key a = k) = regroup ks key l := by
  unfold regroup
  apply List.flatMap_congr
  intro k' hk'
  rw [List.filter_filter]
  apply List.filter_congr
  intro a _
  by_cases h : key a = k'
  · have hne : k' ≠ k := fun heq => hk (heq ▸ hk')
    simp [h, hne]
  · simp [h]

/-- Regrouping is a permutation, if the keys are all there. -/
theorem regroup_perm : ∀ {ks : List κ} {l : List α}, ks.Nodup → (∀ a ∈ l, key a ∈ ks) →
    (regroup ks key l).Perm l := by
  intro ks
  induction ks with
  | nil =>
    intro l _ hl
    rw [List.eq_nil_iff_forall_not_mem.2 fun a ha => (List.not_mem_nil (hl a ha))]
    exact List.Perm.nil
  | cons k ks ih =>
    intro l hnodup hl
    rw [List.nodup_cons] at hnodup
    have hrest : ∀ a ∈ l.filter (fun a => ¬ key a = k), key a ∈ ks := by
      intro a ha
      obtain ⟨hmem, hne⟩ := List.mem_filter.1 ha
      exact (List.mem_cons.1 (hl a hmem)).resolve_left (of_decide_eq_true hne)
    have hperm := ih hnodup.2 hrest
    rw [regroup_filter_ne hnodup.1] at hperm
    rw [regroup_cons]
    refine (hperm.append_left _).trans ?_
    simpa using List.filter_append_perm (fun a => decide (key a = k)) l

/-- A list whose items that pass a test come first. -/
theorem filter_append_filter_not {p : α → Bool} : ∀ {l : List α},
    l.Pairwise (fun a b => p b = true → p a = true) → l.filter p ++ l.filter (fun a => ¬ p a = true) = l := by
  intro l
  induction l with
  | nil => intro _; rfl
  | cons a l ih =>
    intro h
    obtain ⟨hhead, htail⟩ := List.pairwise_cons.1 h
    by_cases ha : p a = true
    · rw [List.filter_cons_of_pos ha, List.filter_cons_of_neg (by simp [ha]), List.cons_append, ih htail]
    · have hnone : l.filter p = [] := by
        rw [List.filter_eq_nil_iff]
        intro b hb hpb
        exact ha (hhead b hb hpb)
      have hall : l.filter (fun a => ¬ p a = true) = l := by
        rw [List.filter_eq_self]
        intro b hb
        simpa using fun hpb => ha (hhead b hb hpb)
      rw [List.filter_cons_of_neg ha, List.filter_cons_of_pos (by simp [ha]), hnone, hall, List.nil_append]

/-- The position of a key in the order of the keys. -/
def rank (ks : List κ) (k : κ) : Nat := ks.idxOf k

/-- The keys of a list without repetition stand at increasing positions. -/
theorem pairwise_rank {ks : List κ} (h : ks.Nodup) :
    ks.Pairwise fun k k' => rank ks k ≤ rank ks k' := by
  rw [List.pairwise_iff_getElem]
  intro i j hi hj hij
  unfold rank
  rw [h.idxOf_getElem i hi, h.idxOf_getElem j hj]
  exact Nat.le_of_lt hij

theorem regroup_of_pairwise : ∀ {ks : List κ} {l : List α}, ks.Nodup → (∀ a ∈ l, key a ∈ ks) →
    (l.Pairwise fun a b => rank ks (key a) ≤ rank ks (key b)) → regroup ks key l = l := by
  intro ks
  induction ks with
  | nil =>
    intro l _ hl _
    rw [List.eq_nil_iff_forall_not_mem.2 fun a ha => List.not_mem_nil (hl a ha)]
    rfl
  | cons k ks ih =>
    intro l hnodup hl hsorted
    rw [List.nodup_cons] at hnodup
    have hrest : ∀ a ∈ l.filter (fun a => ¬ key a = k), key a ≠ k ∧ key a ∈ ks := by
      intro a ha
      obtain ⟨hmem, hne⟩ := List.mem_filter.1 ha
      exact ⟨of_decide_eq_true hne,
        (List.mem_cons.1 (hl a hmem)).resolve_left (of_decide_eq_true hne)⟩
    -- the items of the first key have position 0, so they come first
    have hfirst : l.Pairwise fun a b => decide (key b = k) = true → decide (key a = k) = true := by
      apply hsorted.imp
      intro a b hle hb
      unfold rank at hle
      rw [of_decide_eq_true hb, List.idxOf_cons_self] at hle
      by_contra hne
      have ha : k ≠ key a := fun heq => hne (decide_eq_true heq.symm)
      rw [List.idxOf_cons_ne ks ha] at hle
      omega
    have hbehind : regroup ks key (l.filter fun a => ¬ key a = k) = l.filter fun a => ¬ key a = k := by
      apply ih hnodup.2 (fun a ha => (hrest a ha).2)
      refine (hsorted.filter _).imp_of_mem ?_
      intro a b ha hb hle
      unfold rank at hle ⊢
      rw [List.idxOf_cons_ne ks (hrest a ha).1.symm, List.idxOf_cons_ne ks (hrest b hb).1.symm] at hle
      omega
    rw [regroup_filter_ne hnodup.1] at hbehind
    rw [regroup_cons, hbehind]
    simpa using filter_append_filter_not hfirst

/-- **Regrouping changes nothing exactly when the keys never go back.** -/
theorem regroup_eq_iff {ks : List κ} (hnodup : ks.Nodup) {l : List α} (hl : ∀ a ∈ l, key a ∈ ks) :
    regroup ks key l = l ↔ l.Pairwise fun a b => rank ks (key a) ≤ rank ks (key b) := by
  refine ⟨fun heq => ?_, regroup_of_pairwise hnodup hl⟩
  have hkey : ∀ k, ∀ a ∈ l.filter (fun a => key a = k), key a = k :=
    fun k a ha => of_decide_eq_true (List.mem_filter.1 ha).2
  rw [← heq]
  unfold regroup
  rw [List.pairwise_flatMap]
  constructor
  · intro k _
    apply List.pairwise_of_forall_mem_list
    intro a ha b hb
    exact Nat.le_of_eq (by rw [hkey k a ha, hkey k b hb])
  · apply (pairwise_rank hnodup).imp
    intro k k' hle a ha b hb
    rw [hkey k a ha, hkey k' b hb]
    exact hle

end CodeWorker
