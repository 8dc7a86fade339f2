import Rathaxes.CodeWorker.Table

/-!
# Tables of tables

An array whose entries are arrays is read and written through two keys. Its cells are the values with their two keys,
no two of which are the same. Cells that are fresh, different from one another and from those that are there, can be put
one after the other, and are then what is there besides (`mem_cells_putAll_iff`).
-/

set_option autoImplicit false

namespace CodeWorker.Table

variable {α : Type} {t : Table (Table α)}

/-- Access through two keys, `a[k][l]`. -/
def cell? (t : Table (Table α)) (key : String × String) : Option α :=
  (t.get? key.1).bind fun inner => inner.get? key.2

/-- Assignment through two keys. The inner array is inserted if there is none. -/
def put (t : Table (Table α)) (key : String × String) (v : α) : Table (Table α) :=
  t.set key.1 (((t.get? key.1).getD empty).set key.2 v)

/-- The values with their keys. -/
def cells (t : Table (Table α)) : List ((String × String) × α) :=
  t.entries.flatMap fun e => e.2.entries.map fun f => ((e.1, f.1), f.2)

@[simp] theorem cell?_empty (key : String × String) : (empty : Table (Table α)).cell? key = none := rfl

theorem cell?_put (t : Table (Table α)) (key key' : String × String) (v : α) :
    (t.put key v).cell? key' = if key' = key then some v else t.cell? key' := by
  obtain ⟨k, l⟩ := key
  obtain ⟨k', l'⟩ := key'
  unfold cell? put
  by_cases hk : k' = k
  · subst hk
    simp only [get?_set, ↓reduceIte, Option.bind_some, Prod.mk.injEq, true_and]
    cases t.get? k' <;> rfl
  · have hne : (k', l') ≠ (k, l) := fun h => hk (Prod.mk.inj h).1
    rw [get?_set, if_neg hk, if_neg hne]

/-! ## An inner array without entries -/

theorem set_set (t : Table α) (k : String) (v w : α) : (t.set k v).set k w = t.set k w := by
  obtain ⟨es, hnd⟩ := t
  simp only [set, mk.injEq]
  clear hnd
  induction es with
  | nil => simp [assign]
  | cons e es ih =>
    by_cases hk : e.1 = k
    · simp [assign, hk]
    · simp [assign, hk, ih]

theorem cell?_set_empty {k : String} (h : t.get? k = none) (key : String × String) :
    (t.set k empty).cell? key = t.cell? key := by
  unfold cell?
  rw [get?_set]
  split
  · rename_i hk
    rw [hk, h]
    rfl
  · rfl

theorem put_set_empty {key : String × String} (h : t.get? key.1 = none) (v : α) :
    (t.set key.1 empty).put key v = t.put key v := by
  unfold put
  rw [set_set, get?_set, if_pos rfl, h]
  rfl

/-! ## Cells -/

theorem mem_cells_iff {key : String × String} {v : α} : (key, v) ∈ t.cells ↔ t.cell? key = some v := by
  obtain ⟨k, l⟩ := key
  unfold cells cell?
  rw [List.mem_flatMap, Option.bind_eq_some_iff]
  constructor
  · rintro ⟨⟨k', inner⟩, houter, hinner⟩
    obtain ⟨⟨l', v'⟩, hmem, heq⟩ := List.mem_map.1 hinner
    cases heq
    exact ⟨inner, (t.mem_entries_iff _ _).1 houter, (inner.mem_entries_iff _ _).1 hmem⟩
  · rintro ⟨inner, houter, hinner⟩
    exact ⟨(k, inner), (t.mem_entries_iff _ _).2 houter,
      List.mem_map.2 ⟨(l, v), (inner.mem_entries_iff _ _).2 hinner, rfl⟩⟩

theorem nodup_cells (t : Table (Table α)) : t.cells.Nodup := by
  unfold cells
  rw [List.nodup_flatMap]
  constructor
  · intro e _
    refine List.Nodup.map (fun f f' h => ?_) (e.2.nodup.of_map Prod.fst)
    obtain ⟨hkey, hval⟩ := Prod.mk.inj h
    exact Prod.ext (Prod.mk.inj hkey).2 hval
  · -- the cells of two inner arrays differ in the first key
    refine (List.pairwise_map.1 t.nodup).imp fun {e e'} hne => ?_
    intro c hc hc'
    obtain ⟨f, -, rfl⟩ := List.mem_map.1 hc
    obtain ⟨f', -, heq⟩ := List.mem_map.1 hc'
    exact hne (Prod.mk.inj (Prod.mk.inj heq).1).1.symm

/-! ## Putting several -/

/-- Assignment of cells one after the other. -/
def putAll (t : Table (Table α)) (cs : List ((String × String) × α)) : Table (Table α) :=
  cs.foldl (fun t c => t.put c.1 c.2) t

/-- The keys differ from one another and from those that are there. -/
structure Fresh (t : Table (Table α)) (cs : List ((String × String) × α)) : Prop where
  distinct : (cs.map Prod.fst).Nodup
  absent : ∀ key ∈ cs.map Prod.fst, t.cell? key = none

theorem putAll_append (cs ds : List ((String × String) × α)) :
    t.putAll (cs ++ ds) = (t.putAll cs).putAll ds := List.foldl_append

theorem cell?_putAll_eq_none_iff {key : String × String} : ∀ {cs : List ((String × String) × α)}
    {t : Table (Table α)}, (t.putAll cs).cell? key = none ↔ key ∉ cs.map Prod.fst ∧ t.cell? key = none
  | [], t => by simp [putAll]
  | c :: cs, t => by
    have ih : ((t.put c.1 c.2).putAll cs).cell? key = none ↔
        key ∉ cs.map Prod.fst ∧ (t.put c.1 c.2).cell? key = none := cell?_putAll_eq_none_iff
    show ((t.put c.1 c.2).putAll cs).cell? key = none ↔ _
    rw [ih, cell?_put, List.map_cons, List.mem_cons, not_or]
    by_cases hkey : key = c.1
    · simp [hkey]
    · simp [hkey]

theorem fresh_append {cs ds : List ((String × String) × α)} :
    Fresh t (cs ++ ds) ↔ Fresh t cs ∧ Fresh (t.putAll cs) ds := by
  constructor
  · rintro ⟨hdistinct, habsent⟩
    rw [List.map_append] at hdistinct habsent
    obtain ⟨hcs, hds, hdisjoint⟩ := List.nodup_append.1 hdistinct
    rw [List.forall_mem_append] at habsent
    refine ⟨⟨hcs, habsent.1⟩, hds, fun key hkey => cell?_putAll_eq_none_iff.2 ⟨fun hmem => ?_, habsent.2 key hkey⟩⟩
    exact hdisjoint key hmem key hkey rfl
  · rintro ⟨⟨hcs, habsent⟩, hds, habsent'⟩
    constructor
    · rw [List.map_append]
      refine List.nodup_append.2 ⟨hcs, hds, fun key hkey key' hkey' heq => ?_⟩
      exact (cell?_putAll_eq_none_iff.1 (habsent' key' hkey')).1 (heq ▸ hkey)
    · rw [List.map_append]
      exact List.forall_mem_append.2
        ⟨habsent, fun key hkey => (cell?_putAll_eq_none_iff.1 (habsent' key hkey)).2⟩

theorem fresh_singleton {c : (String × String) × α} : Fresh t [c] ↔ t.cell? c.1 = none := by
  refine ⟨fun h => h.absent c.1 (List.mem_singleton_self _), fun h => ⟨List.nodup_singleton _, ?_⟩⟩
  exact List.forall_mem_singleton.2 h

/-- **Fresh cells are put beside those that are there.** -/
theorem mem_cells_putAll_iff {c : (String × String) × α} : ∀ {cs : List ((String × String) × α)}
    {t : Table (Table α)}, Fresh t cs → (c ∈ (t.putAll cs).cells ↔ c ∈ cs ∨ c ∈ t.cells)
  | [], t, _ => by simp [putAll]
  | d :: cs, t, h => by
    obtain ⟨hd, hcs⟩ := fresh_append.1 (show Fresh t ([d] ++ cs) from h)
    have ih : c ∈ ((t.put d.1 d.2).putAll cs).cells ↔ c ∈ cs ∨ c ∈ (t.put d.1 d.2).cells :=
      mem_cells_putAll_iff hcs
    show c ∈ ((t.put d.1 d.2).putAll cs).cells ↔ _
    obtain ⟨key, v⟩ := c
    rw [ih, mem_cells_iff, cell?_put, mem_cells_iff, List.mem_cons, or_assoc]
    have habsent := fresh_singleton.1 hd
    by_cases hkey : key = d.1
    · subst hkey
      rw [if_pos rfl, habsent]
      simp [Prod.ext_iff, or_comm, eq_comm]
    · rw [if_neg hkey]
      simp [Prod.ext_iff, hkey]

/-- A table of fresh cells has these, and no others. -/
theorem perm_cells_putAll {cs : List ((String × String) × α)} (h : (cs.map Prod.fst).Nodup) :
    (putAll empty cs).cells.Perm cs := by
  rw [List.perm_ext_iff_of_nodup (nodup_cells _) (h.of_map Prod.fst)]
  intro c
  rw [mem_cells_putAll_iff ⟨h, fun key _ => cell?_empty key⟩]
  simp [cells, empty]

end CodeWorker.Table
