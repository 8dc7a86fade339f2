import Rathaxes.CodeWorker.Table

/-!
# One item under each key

A search that may find one thing several times files what it found under keys, the first item of each
key, and asks whether one key is left. The answer is read off the items: there is one key when all of them
have it, and then the item is the first (`only?_uniques_iff`).
-/

set_option autoImplicit false

namespace CodeWorker

namespace Table

variable {α : Type}

/-! ## Tables with one entry -/

/-- The item of a table that has one. -/
def only? (t : Table α) : Option α :=
  match t.entries with
  | [(_, a)] => some a
  | _ => none

theorem only?_eq_some_iff {t : Table α} {a : α} :
    t.only? = some a ↔ ∃ k, ∀ k' v, t.get? k' = some v ↔ k' = k ∧ v = a := by
  have hentries : t.only? = some a ↔ ∃ k, t.entries = [(k, a)] := by
    unfold only?
    constructor
    · intro h
      split at h
      · rename_i k b hb
        cases h
        exact ⟨k, hb⟩
      · cases h
    · rintro ⟨k, hk⟩
      rw [hk]
  rw [hentries]
  refine exists_congr fun k => ?_
  constructor
  · intro h k' v
    rw [← mem_entries_iff, h, List.mem_singleton, Prod.mk.injEq]
  · intro h
    have hnodup : t.entries.Nodup := t.nodup.of_map Prod.fst
    rw [← List.perm_singleton, List.perm_ext_iff_of_nodup hnodup (List.nodup_singleton _)]
    rintro ⟨k', v⟩
    rw [mem_entries_iff, h, List.mem_singleton, Prod.mk.injEq]

/-- A table has one entry when something is in it and all keys in it are one. -/
theorem isSome_only?_iff {t : Table α} :
    t.only?.isSome ↔ ∃ k, (t.get? k).isSome ∧ ∀ k', (t.get? k').isSome → k' = k := by
  rw [Option.isSome_iff_exists]
  constructor
  · rintro ⟨a, ha⟩
    obtain ⟨k, hk⟩ := only?_eq_some_iff.1 ha
    refine ⟨k, Option.isSome_iff_exists.2 ⟨a, (hk k a).2 ⟨rfl, rfl⟩⟩, ?_⟩
    intro k' hk'
    obtain ⟨v, hv⟩ := Option.isSome_iff_exists.1 hk'
    exact ((hk k' v).1 hv).1
  · rintro ⟨k, hk, honly⟩
    obtain ⟨a, ha⟩ := Option.isSome_iff_exists.1 hk
    refine ⟨a, only?_eq_some_iff.2 ⟨k, fun k' v => ?_⟩⟩
    constructor
    · intro hv
      have hkey := honly k' (Option.isSome_iff_exists.2 ⟨v, hv⟩)
      subst hkey
      exact ⟨rfl, Option.some.inj (hv.symm.trans ha)⟩
    · rintro ⟨rfl, rfl⟩
      exact ha

/-! ## Filing items under new keys -/

variable (key : α → String)

/-- An item is filed unless its key is there. -/
def fileNew (t : Table α) (a : α) : Table α := if t.has (key a) then t else t.set (key a) a

/-- The first item of each key. -/
def uniques (items : List α) : Table α := items.foldl (fileNew key) empty

variable {key}

theorem get?_foldl_fileNew (k : String) : ∀ (items : List α) (t : Table α),
    (items.foldl (fileNew key) t).get? k = (t.get? k).or (items.find? fun a => key a = k)
  | [], t => by simp
  | a :: items, t => by
    rw [List.foldl_cons, get?_foldl_fileNew k items, List.find?_cons]
    have hstep : (fileNew key t a).get? k =
        if key a = k then (t.get? k).or (some a) else t.get? k := by
      unfold fileNew has
      by_cases hk : key a = k
      · subst hk
        cases hget : t.get? (key a) with
        | none => simp [get?_set]
        | some b => simp [hget]
      · rw [if_neg hk]
        split
        · rfl
        · rw [get?_set, if_neg (Ne.symm hk)]
    rw [hstep]
    by_cases hk : key a = k
    · simp only [hk, if_true, decide_true]
      cases t.get? k <;> rfl
    · simp [hk]

theorem get?_uniques (k : String) (items : List α) :
    (uniques key items).get? k = items.find? fun a => key a = k := by
  unfold uniques
  rw [get?_foldl_fileNew, get?_empty, Option.none_or]

theorem find?_key_head (c : α) (items : List α) :
    (c :: items).find? (fun a => key a = key c) = some c := by
  simp

/-- **One key is left** when all items have that of the first, and the first is what stands there. -/
theorem only?_uniques_iff {items : List α} {a : α} :
    (uniques key items).only? = some a ↔ items.head? = some a ∧ ∀ b ∈ items, key b = key a := by
  rw [only?_eq_some_iff]
  simp only [get?_uniques]
  constructor
  · rintro ⟨k, hk⟩
    have hall : ∀ b ∈ items, key b = k := by
      intro b hb
      have hfound : (items.find? fun c => key c = key b).isSome :=
        List.find?_isSome.2 ⟨b, hb, decide_eq_true rfl⟩
      obtain ⟨v, hv⟩ := Option.isSome_iff_exists.1 hfound
      exact ((hk (key b) v).1 hv).1
    have hfind := (hk k a).2 ⟨rfl, rfl⟩
    have hkey : key a = k := hall a (List.mem_of_find?_eq_some hfind)
    refine ⟨?_, fun b hb => (hall b hb).trans hkey.symm⟩
    cases items with
    | nil => cases hfind
    | cons c items =>
      rw [← hall c List.mem_cons_self, find?_key_head] at hfind
      exact hfind
  · rintro ⟨hhead, hall⟩
    refine ⟨key a, fun k' v => ?_⟩
    constructor
    · intro hv
      have hkey : key v = k' := by simpa using List.find?_some hv
      have hk' : k' = key a := hkey.symm.trans (hall v (List.mem_of_find?_eq_some hv))
      subst hk'
      cases items with
      | nil => cases hv
      | cons c items =>
        cases hhead
        rw [find?_key_head] at hv
        exact ⟨rfl, (Option.some.inj hv).symm⟩
    · rintro ⟨rfl, rfl⟩
      cases items with
      | nil => cases hhead
      | cons c items =>
        cases hhead
        exact find?_key_head _ items

/-- Whether one key is left. -/
theorem isSome_only?_uniques_iff {items : List α} :
    (uniques key items).only?.isSome ↔ ∃ a ∈ items, ∀ b ∈ items, key b = key a := by
  rw [Option.isSome_iff_exists]
  constructor
  · rintro ⟨a, ha⟩
    obtain ⟨hhead, hall⟩ := only?_uniques_iff.1 ha
    exact ⟨a, List.mem_of_mem_head? hhead, hall⟩
  · rintro ⟨a, ha, hall⟩
    cases items with
    | nil => cases ha
    | cons c items =>
      refine ⟨c, only?_uniques_iff.2 ⟨rfl, fun b hb => ?_⟩⟩
      exact (hall b hb).trans (hall c List.mem_cons_self).symm

end Table

end CodeWorker
