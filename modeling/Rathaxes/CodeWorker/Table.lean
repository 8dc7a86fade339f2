import Mathlib.Data.List.Nodup

/-!
# Keyed arrays

The scripting language's array is an ordered list of entries, each under a textual key. An array
that was only ever pushed onto has its positions for keys; removing an entry leaves the keys of
the others alone, so keys and positions then part company. Assignment to a key replaces the entry
standing there and appends one when there is none. No two entries of one array share a key, and
`Table` carries that fact, so reading by key and walking over the entries see the same data.
-/

set_option autoImplicit false

namespace CodeWorker

variable {α : Type}

/-- The error of a path that leads nowhere. -/
def unknownVariable (path : String) : String := "unknown variable " ++ path

/-- What `setall x = path` copies. A path that leads nowhere is read as an error and not as an empty node. -/
def copyOf (path : String) : Option α → Except String α
  | some node => .ok node
  | none => .error (unknownVariable path)

theorem copyOf_eq_ok_iff {path : String} {found : Option α} {node : α} :
    copyOf path found = .ok node ↔ found = some node := by
  cases found with
  | none => simp [copyOf]
  | some found => simp [copyOf]

/-- Replace the value stored under `k`, or append an entry for it. -/
def assign (k : String) (v : α) : List (String × α) → List (String × α)
  | [] => [(k, v)]
  | e :: es => if e.1 = k then (k, v) :: es else e :: assign k v es

theorem lookup_cons_ite (k key : String) (v : α) (es : List (String × α)) :
    ((key, v) :: es).lookup k = if k = key then some v else es.lookup k := by
  by_cases hk : k = key
  · simp [hk]
  · have hne : (k == key) = false := by simpa using hk
    simp [List.lookup_cons, hne, hk]

theorem lookup_eq_none_of_not_mem {k : String} {es : List (String × α)}
    (h : k ∉ es.map Prod.fst) : es.lookup k = none := by
  rw [List.lookup_eq_none_iff]
  intro e he
  rw [bne_iff_ne]
  rintro rfl
  exact h (List.mem_map.2 ⟨e, he, rfl⟩)

theorem lookup_assign (k k' : String) (v : α) :
    ∀ es : List (String × α), (assign k v es).lookup k' = if k' = k then some v else es.lookup k'
  | [] => lookup_cons_ite k' k v []
  | (key, val) :: es => by
    by_cases hk : key = k
    · subst hk
      simp only [assign, ↓reduceIte, lookup_cons_ite]
      split <;> rfl
    · simp only [assign, hk, ↓reduceIte, lookup_cons_ite, lookup_assign k k' v es]
      by_cases hk' : k' = key
      · simp [hk', hk]
      · simp [hk']

theorem mem_keys_assign (k k' : String) (v : α) :
    ∀ es : List (String × α),
      k' ∈ (assign k v es).map Prod.fst ↔ k' = k ∨ k' ∈ es.map Prod.fst
  | [] => by simp [assign]
  | (key, val) :: es => by
    have ih := mem_keys_assign k k' v es
    by_cases hk : key = k
    · subst hk; simp [assign]
    · simp only [assign, hk, ↓reduceIte, List.map_cons, List.mem_cons, ih]
      tauto

theorem nodup_keys_assign (k : String) (v : α) :
    ∀ es : List (String × α), (es.map Prod.fst).Nodup → ((assign k v es).map Prod.fst).Nodup
  | [], _ => by simp [assign]
  | (key, val) :: es, h => by
    rw [List.map_cons, List.nodup_cons] at h
    by_cases hk : key = k
    · subst hk; simpa [assign] using h
    · simp only [assign, hk, ↓reduceIte, List.map_cons, List.nodup_cons]
      refine ⟨fun hmem => ?_, nodup_keys_assign k v es h.2⟩
      rcases (mem_keys_assign k key v es).1 hmem with heq | hin
      · exact hk heq
      · exact h.1 hin

/-- A keyed array: its entries in order, no key twice. -/
@[ext]
structure Table (α : Type) where
  entries : List (String × α)
  nodup : (entries.map Prod.fst).Nodup
deriving DecidableEq

namespace Table

/-- The array without entries. -/
def empty : Table α := ⟨[], List.nodup_nil⟩

/-- Access by key, `a[k]`. -/
def get? (t : Table α) (k : String) : Option α := t.entries.lookup k

/-- `findElement(k, a)`. -/
def has (t : Table α) (k : String) : Bool := (t.get? k).isSome

/-- `insert a[k]` followed by `setall a[k] = v`. -/
def set (t : Table α) (k : String) (v : α) : Table α :=
  ⟨assign k v t.entries, nodup_keys_assign k v t.entries t.nodup⟩

/-- `removeElement(a, k)`: the entry under `k` goes, the others keep their keys. -/
def remove (t : Table α) (k : String) : Table α :=
  ⟨t.entries.filter (fun e => e.1 ≠ k),
    t.nodup.sublist (List.filter_sublist.map _)⟩

/-- `getArraySize(a)`. -/
def size (t : Table α) : Nat := t.entries.length

@[simp] theorem get?_empty (k : String) : (empty : Table α).get? k = none := rfl

theorem get?_set (t : Table α) (k k' : String) (v : α) :
    (t.set k v).get? k' = if k' = k then some v else t.get? k' :=
  lookup_assign k k' v t.entries

theorem assign_of_lookup {k : String} {v : α} :
    ∀ {es : List (String × α)}, es.lookup k = some v → assign k v es = es
  | [], h => by simp at h
  | e :: es, h => by
    rw [lookup_cons_ite] at h
    by_cases hk : k = e.1
    · rw [if_pos hk] at h
      cases h
      rw [assign, if_pos hk.symm, hk]
    · rw [if_neg hk] at h
      rw [assign, if_neg (Ne.symm hk), assign_of_lookup h]

/-- Setting what is there changes nothing. -/
theorem set_of_get? {t : Table α} {k : String} {v : α} (h : t.get? k = some v) : t.set k v = t := by
  obtain ⟨es, hnd⟩ := t
  simp only [set, mk.injEq]
  exact assign_of_lookup h

/-- An entry under a new key comes last. -/
theorem entries_set_of_not_mem {t : Table α} {k : String} (h : k ∉ t.entries.map Prod.fst) (v : α) :
    (t.set k v).entries = t.entries ++ [(k, v)] := by
  obtain ⟨es, hnd⟩ := t
  show assign k v es = es ++ [(k, v)]
  induction es with
  | nil => rfl
  | cons e es ih =>
    rw [List.map_cons, List.mem_cons, not_or] at h
    rw [assign, if_neg (Ne.symm h.1), ih (List.nodup_cons.1 hnd).2 h.2, List.cons_append]

/-- Walking over the entries and reading by key see the same data. -/
theorem mem_entries_iff (t : Table α) (k : String) (v : α) :
    (k, v) ∈ t.entries ↔ t.get? k = some v := by
  obtain ⟨es, hnd⟩ := t
  show (k, v) ∈ es ↔ es.lookup k = some v
  induction es with
  | nil => simp
  | cons e es ih =>
    obtain ⟨key, val⟩ := e
    rw [List.map_cons, List.nodup_cons] at hnd
    by_cases hk : k = key
    · subst hk
      rw [List.lookup_cons_self, Option.some.injEq, List.mem_cons]
      constructor
      · rintro (h | h)
        · exact (Prod.mk.inj h).2.symm
        · exact absurd (List.mem_map_of_mem (f := Prod.fst) h) hnd.1
      · rintro rfl
        exact Or.inl rfl
    · rw [lookup_cons_ite, if_neg hk, List.mem_cons, ← ih hnd.2]
      simp [hk]

/-! ## Arrays that were only pushed onto -/

theorem positionKey_injective : Function.Injective (fun i : Nat => toString i) := by
  intro i j h
  have digits : Nat.toDigits 10 i = Nat.toDigits 10 j := by
    simpa only [Nat.toString_eq_repr, Nat.toList_repr] using congrArg String.toList h
  rw [← Nat.ofDigitChars_ten_toDigits (n := i), digits, Nat.ofDigitChars_ten_toDigits]

/-- The array `pushItem` builds: every item under its position. -/
def ofList (vs : List α) : Table α where
  entries := vs.zipIdx.map fun e => (toString e.2, e.1)
  nodup := by
    have keys : (vs.zipIdx.map fun e => (toString e.2, e.1)).map Prod.fst
        = (List.range' 0 vs.length).map (fun i => toString i) := by
      rw [← List.zipIdx_map_snd, List.map_map, List.map_map]
      rfl
    rw [keys]
    exact List.Nodup.map positionKey_injective List.nodup_range'

@[simp] theorem values_ofList (vs : List α) : (ofList vs).entries.map Prod.snd = vs := by
  rw [ofList, List.map_map]
  exact List.zipIdx_map_fst 0 vs

theorem mem_of_mem_entries_ofList {vs : List α} {e : String × α}
    (h : e ∈ (ofList vs).entries) : e.2 ∈ vs := by
  have hmem := List.mem_map_of_mem (f := Prod.snd) h
  rwa [values_ofList] at hmem

/-! ## Removal -/

/-- Removing keys one after the other leaves the entries under the other keys, in order. -/
theorem entries_foldl_remove : ∀ (ks : List String) (t : Table α),
    (ks.foldl remove t).entries = t.entries.filter (fun e => e.1 ∉ ks)
  | [], t => by simp
  | k :: ks, t => by
    rw [List.foldl_cons, entries_foldl_remove ks, remove, List.filter_filter]
    congr 1
    funext e
    simp [Bool.and_comm]

/-- When the keys removed are those of the entries that fail a test, the entries left are those
that pass it. -/
theorem entries_foldl_remove_filter (t : Table α) (p : String × α → Bool) :
    (((t.entries.filter (fun e => !p e)).map Prod.fst).foldl remove t).entries
      = t.entries.filter p := by
  rw [entries_foldl_remove]
  apply List.filter_congr
  intro e he
  have hkey : e.1 ∈ (t.entries.filter (fun e => !p e)).map Prod.fst ↔ p e = false := by
    rw [List.mem_map]
    constructor
    · rintro ⟨e', he', hfst⟩
      rw [List.mem_filter] at he'
      -- one key, one entry
      have : e' = e := List.inj_on_of_nodup_map t.nodup he'.1 he hfst
      simpa [this] using he'.2
    · intro hp
      exact ⟨e, List.mem_filter.2 ⟨he, by simp [hp]⟩, rfl⟩
  by_cases hp : p e = true
  · simp [hkey, hp]
  · simp [hkey, Bool.eq_false_iff.2 hp]

/-! ## Setting several -/

/-- The keys of a table after several entries have been set. -/
theorem isSome_get?_foldl_set (k : String) : ∀ (es : List (String × α)) (t : Table α),
    ((es.foldl (fun t e => t.set e.1 e.2) t).get? k).isSome ↔ k ∈ es.map Prod.fst ∨ (t.get? k).isSome
  | [], t => by simp
  | e :: es, t => by
    rw [List.foldl_cons, isSome_get?_foldl_set k es, get?_set]
    by_cases hk : k = e.1
    · simp [hk]
    · simp [hk]

/-- An entry of such a table has been set, or was there. -/
theorem mem_of_get?_foldl_set {k : String} {v : α} : ∀ {es : List (String × α)} {t : Table α},
    (es.foldl (fun t e => t.set e.1 e.2) t).get? k = some v → (k, v) ∈ es ∨ t.get? k = some v
  | [], _, h => Or.inr h
  | e :: es, t, h => by
    rw [List.foldl_cons] at h
    rcases mem_of_get?_foldl_set h with hmem | hget
    · exact Or.inl (List.mem_cons_of_mem e hmem)
    · rw [get?_set] at hget
      split at hget
      · rename_i hk
        cases hget
        subst hk
        exact Or.inl List.mem_cons_self
      · exact Or.inr hget

/-- A table made of entries with different keys holds these. -/
theorem get?_foldl_set_empty {k : String} {v : α} {es : List (String × α)}
    (hnodup : (es.map Prod.fst).Nodup) :
    (es.foldl (fun t e => t.set e.1 e.2) empty).get? k = some v ↔ (k, v) ∈ es := by
  have hsound : ∀ {v}, (es.foldl (fun t e => t.set e.1 e.2) empty).get? k = some v → (k, v) ∈ es := by
    intro v h
    simpa using mem_of_get?_foldl_set h
  refine ⟨hsound, fun hmem => ?_⟩
  have hsome := (isSome_get?_foldl_set k es empty).2 (Or.inl (List.mem_map_of_mem hmem))
  obtain ⟨v', hv'⟩ := Option.isSome_iff_exists.1 hsome
  obtain rfl : v' = v :=
    (Prod.mk.inj (List.inj_on_of_nodup_map hnodup (hsound hv') hmem rfl)).2
  exact hv'

end Table

end CodeWorker
