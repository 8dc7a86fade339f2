import Rathaxes.CodeWorker.Position

/-!
# Weaving into a block

The two operations every injection of `passes/common/rtxResolve.inc.cws` is made of. Placeholders
remember the position they were parsed at (`block_idx`); an insertion or a removal shifts what
stands behind it, and the attribute `modifier` of the block sums these shifts up. It is created by
the first removal. `insertModifier` removes a placeholder at its recorded position corrected by the
modifier, `rtxResolve_InsertCode` inserts statements from a position on.

A block here is the array `.block` of a `__block__` node: its entries with their keys, and the
modifier. The statements are any type.
-/

set_option autoImplicit false

namespace Rathaxes.Resolve

open CodeWorker

variable {ι : Type}

/-- The array of a block and its `modifier`, if it has one. -/
structure Block (ι : Type) where
  entries : List (String × ι)
  modifier : Option Int
deriving DecidableEq

namespace Block

/-- The entries of statements parsed one after the other: the keys are the positions. -/
def positioned : Nat → List ι → List (String × ι)
  | _, [] => []
  | n, x :: xs => (toString n, x) :: positioned (n + 1) xs

/-- A block as the parser builds it. -/
def parsed (stmts : List ι) : Block ι := ⟨positioned 0 stmts, none⟩

/-- The statements of a block. -/
def stmts (b : Block ι) : List ι := b.entries.map Prod.snd

/-- How far what is still to be resolved has moved. -/
def shift (b : Block ι) : Int := b.modifier.getD 0

end Block

/-- `insertModifier(theBlock, thePointcut)`: the block and the corrected `block_idx`. -/
def insertModifier (theBlock : Block ι) (blockIdx : Int) : Except String (Block ι × Int) := do
  let entries ← removeAt theBlock.entries (blockIdx + theBlock.shift)
  return (⟨entries, some (theBlock.shift - 1)⟩, blockIdx + theBlock.shift)

/-- What `rtxResolve_InsertCode` reads and advances: the block, the position of the next statement
and the number its key ends with. -/
structure Cursor (ι : Type) where
  block : Block ι
  startIdx : Int
  phIdx : Nat

/-- The key of an inserted statement. -/
def insertedKey (phName : String) (phIdx : Nat) : String := phName ++ "_" ++ toString phIdx

/-- The loop of `rtxResolve_InsertCode`. -/
def insertItems (phName : String) :
    List ι → List (String × ι) → Int → Nat → Except String (List (String × ι))
  | [], entries, _, _ => .ok entries
  | item :: items, entries, startIdx, phIdx => do
    let entries ← insertAt entries startIdx (insertedKey phName phIdx, item)
    insertItems phName items entries (startIdx + 1) (phIdx + 1)

/-- `rtxResolve_InsertCode`. The modifier is updated only if there is one. -/
def insertCode (cursor : Cursor ι) (phName : String) (items : List ι) :
    Except String (Cursor ι) := do
  let entries ← insertItems phName items cursor.block.entries cursor.startIdx cursor.phIdx
  return ⟨⟨entries, cursor.block.modifier.map (· + items.length)⟩,
    cursor.startIdx + items.length, cursor.phIdx + items.length⟩

/-! ## What they do -/

/-- The entries `insertItems` puts in. -/
def insertedEntries (phName : String) : Nat → List ι → List (String × ι)
  | _, [] => []
  | phIdx, item :: items => (insertedKey phName phIdx, item) :: insertedEntries phName (phIdx + 1) items

@[simp] theorem map_snd_insertedEntries (phName : String) :
    ∀ (phIdx : Nat) (items : List ι), (insertedEntries phName phIdx items).map Prod.snd = items
  | _, [] => rfl
  | phIdx, item :: items => by
    rw [insertedEntries, List.map_cons, map_snd_insertedEntries phName (phIdx + 1) items]

@[simp] theorem length_insertedEntries (phName : String) (phIdx : Nat) (items : List ι) :
    (insertedEntries phName phIdx items).length = items.length := by
  have h := congrArg List.length (map_snd_insertedEntries phName phIdx items)
  rwa [List.length_map] at h

@[simp] theorem Block.stmts_positioned : ∀ (n : Nat) (xs : List ι), (positioned n xs).map Prod.snd = xs
  | _, [] => rfl
  | n, x :: xs => by rw [positioned, List.map_cons, stmts_positioned (n + 1) xs]

@[simp] theorem Block.length_positioned : ∀ (n : Nat) (xs : List ι), (positioned n xs).length = xs.length
  | _, [] => rfl
  | n, x :: xs => by rw [positioned, List.length_cons, length_positioned (n + 1) xs, List.length_cons]

/-- The removal stands between what is before the corrected position and what is after it. -/
theorem insertModifier_eq_ok_iff {b b' : Block ι} {blockIdx i : Int} :
    insertModifier b blockIdx = .ok (b', i) ↔
      i = blockIdx + b.shift ∧ ∃ l x r, b.entries = l ++ x :: r ∧ (l.length : Int) = i ∧
        b' = ⟨l ++ r, some (b.shift - 1)⟩ := by
  unfold insertModifier
  rw [bind_eq_ok_iff]
  constructor
  · rintro ⟨entries, hremove, hres⟩
    obtain ⟨l, x, r, hentries, hlen, rfl⟩ := removeAt_eq_ok_iff.1 hremove
    cases hres
    exact ⟨rfl, l, x, r, hentries, hlen, rfl⟩
  · rintro ⟨rfl, l, x, r, hentries, hlen, rfl⟩
    exact ⟨l ++ r, removeAt_eq_ok_iff.2 ⟨l, x, r, hentries, hlen, rfl⟩, rfl⟩

/-- The loop inserts its items in order at the position it starts from. -/
theorem insertItems_at (phName : String) (r : List (String × ι)) :
    ∀ (items : List ι) (l : List (String × ι)) (phIdx : Nat),
      insertItems phName items (l ++ r) l.length phIdx =
        .ok (l ++ insertedEntries phName phIdx items ++ r)
  | [], l, phIdx => by rw [insertItems, insertedEntries, List.append_nil]
  | item :: items, l, phIdx => by
    have hinsert : insertAt (l ++ r) l.length (insertedKey phName phIdx, item) =
        .ok (l ++ (insertedKey phName phIdx, item) :: r) :=
      insertAt_eq_ok_iff.2 ⟨l, r, rfl, rfl, rfl⟩
    have ih := insertItems_at phName r items (l ++ [(insertedKey phName phIdx, item)]) (phIdx + 1)
    rw [List.length_append, List.length_singleton, List.append_assoc, List.singleton_append] at ih
    rw [insertItems, hinsert]
    show insertItems phName items (l ++ (insertedKey phName phIdx, item) :: r) (l.length + 1)
      (phIdx + 1) = _
    rw [← Int.natCast_succ, ih, insertedEntries]
    simp only [List.append_assoc, List.cons_append, List.nil_append]

/-- The cursor standing after the entries `l` of a block, before the entries `r`. -/
def Cursor.between (l r : List (String × ι)) (modifier : Option Int) (phIdx : Nat) : Cursor ι :=
  ⟨⟨l ++ r, modifier⟩, l.length, phIdx⟩

/-- An insertion moves the cursor over what it has inserted and shifts the rest by as much. -/
theorem insertCode_between (phName : String) (l r : List (String × ι)) (modifier : Option Int)
    (phIdx : Nat) (items : List ι) :
    insertCode (Cursor.between l r modifier phIdx) phName items =
      .ok (Cursor.between (l ++ insertedEntries phName phIdx items) r
        (modifier.map (· + (items.length : Int))) (phIdx + items.length)) := by
  unfold insertCode Cursor.between
  rw [insertItems_at phName r items l phIdx, List.length_append, length_insertedEntries,
    Int.natCast_add]
  rfl

end Rathaxes.Resolve
