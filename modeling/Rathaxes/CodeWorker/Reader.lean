import Mathlib.Data.List.Basic

/-!
# Reading from the front of a text

The predefined readers of a BNF script, `#readInteger`, `#readIdentifier`, `#readCString` and `#readCChar`, and
runs of characters of a class. A reader takes a text from the front and leaves the rest; it is sound when
the two together are what it was given.
-/

set_option autoImplicit false

namespace CodeWorker

/-- What is read, and the rest. -/
abbrev Reader := List Char → Option (List Char × List Char)

/-- What is read and the rest are the text. -/
def Reader.Sound (read : Reader) : Prop := ∀ {s a rest}, read s = some (a, rest) → s = a ++ rest

/-- What is read after some characters, with these. -/
def withFront (front : List Char) (r : Option (List Char × List Char)) : Option (List Char × List Char) :=
  r.map fun r => (front ++ r.1, r.2)

theorem withFront_eq_some {front a rest : List Char} {r : Option (List Char × List Char)} :
    withFront front r = some (a, rest) ↔ ∃ b, r = some (b, rest) ∧ a = front ++ b := by
  cases r with
  | none => simp [withFront]
  | some r =>
    obtain ⟨b, rest'⟩ := r
    simp only [withFront, Option.map_some, Option.some.injEq, Prod.mk.injEq]
    constructor
    · rintro ⟨rfl, rfl⟩
      exact ⟨b, ⟨rfl, rfl⟩, rfl⟩
    · rintro ⟨_, ⟨rfl, rfl⟩, rfl⟩
      exact ⟨rfl, rfl⟩

/-! ## Runs -/

/-- One or more characters of a class. -/
def readRun (p : Char → Bool) : Reader := fun s =>
  if s.takeWhile p = [] then none else some (s.takeWhile p, s.dropWhile p)

theorem readRun_sound (p : Char → Bool) : Reader.Sound (readRun p) := by
  intro s a rest h
  unfold readRun at h
  split at h
  · cases h
  · cases h
    exact List.takeWhile_append_dropWhile.symm

/-! ## Integers and identifiers -/

/-- `#readInteger`. -/
def readInteger : Reader
  | '-' :: s => withFront ['-'] (readRun Char.isDigit s)
  | '+' :: s => withFront ['+'] (readRun Char.isDigit s)
  | s => readRun Char.isDigit s

theorem readInteger_sound : Reader.Sound readInteger := by
  intro s a rest h
  unfold readInteger at h
  split at h
  · obtain ⟨b, hb, rfl⟩ := withFront_eq_some.1 h
    rw [readRun_sound _ hb]
    rfl
  · obtain ⟨b, hb, rfl⟩ := withFront_eq_some.1 h
    rw [readRun_sound _ hb]
    rfl
  · exact readRun_sound _ h

/-- The characters an identifier begins with. -/
def isIdentStart (c : Char) : Bool := c.isAlpha || c == '_'

/-- `#readIdentifier`. -/
def readIdentifier : Reader
  | [] => none
  | c :: s =>
    if isIdentStart c then
      some (c :: s.takeWhile (fun c => c.isAlphanum || c == '_'),
        s.dropWhile fun c => c.isAlphanum || c == '_')
    else none

theorem readIdentifier_sound : Reader.Sound readIdentifier := by
  intro s a rest h
  unfold readIdentifier at h
  split at h
  · cases h
  · split at h
    · cases h
      rw [List.cons_append, List.takeWhile_append_dropWhile]
    · cases h

/-! ## Strings -/

def doubleQuote : Char := Char.ofNat 34

def apostrophe : Char := Char.ofNat 39

def backslash : Char := Char.ofNat 92

/-- A string of C after its first quote, up to the quote that is not escaped. -/
def readCStringTail : Reader
  | [] => none
  | c :: s =>
    if c = doubleQuote then some ([c], s)
    else if c = backslash then
      match s with
      | [] => none
      | d :: s => withFront [c, d] (readCStringTail s)
    else withFront [c] (readCStringTail s)

/-- `#readCString`. -/
def readCString : Reader
  | [] => none
  | c :: s => if c = doubleQuote then withFront [c] (readCStringTail s) else none

section CString

variable {c : Char} (d : Char) (s : List Char)

theorem readCStringTail_quote : readCStringTail (doubleQuote :: s) = some ([doubleQuote], s) := by
  rw [readCStringTail.eq_def]
  simp

theorem readCStringTail_escape :
    readCStringTail (backslash :: d :: s) = withFront [backslash, d] (readCStringTail s) := by
  rw [readCStringTail.eq_def]
  simp [backslash, doubleQuote]

theorem readCStringTail_other (hquote : c ≠ doubleQuote) (hslash : c ≠ backslash) :
    readCStringTail (c :: s) = withFront [c] (readCStringTail s) := by
  rw [readCStringTail.eq_def]
  simp [hquote, hslash]

end CString

theorem readCStringTail_sound : Reader.Sound readCStringTail := by
  intro s
  induction s using readCStringTail.induct with
  | case1 =>
    intro a rest h
    cases h
  | case2 s =>
    intro a rest h
    rw [readCStringTail_quote] at h
    cases h
    rfl
  | case3 =>
    intro a rest h
    cases h
  | case4 d s _ ih =>
    intro a rest h
    rw [readCStringTail_escape] at h
    obtain ⟨b, hb, rfl⟩ := withFront_eq_some.1 h
    rw [ih hb]
    rfl
  | case5 c s hquote hslash ih =>
    intro a rest h
    rw [readCStringTail_other s hquote hslash] at h
    obtain ⟨b, hb, rfl⟩ := withFront_eq_some.1 h
    rw [ih hb]
    rfl

theorem readCString_sound : Reader.Sound readCString := by
  intro s a rest h
  unfold readCString at h
  split at h
  · cases h
  · split at h
    · obtain ⟨b, hb, rfl⟩ := withFront_eq_some.1 h
      rw [readCStringTail_sound hb]
      rfl
    · cases h

/-- `#readCChar`. -/
def readCChar : Reader
  | first :: c :: d :: s =>
    if first ≠ apostrophe then none
    else if c = backslash then
      match s with
      | [] => none
      | close :: s => if close = apostrophe then some ([first, c, d, close], s) else none
    else if d = apostrophe then some ([first, c, d], s) else none
  | _ => none

theorem readCChar_sound : Reader.Sound readCChar := by
  intro s a rest h
  unfold readCChar at h
  split at h
  · split_ifs at h with _ _ hclose
    · split at h
      · cases h
      · split at h
        · cases h
          rfl
        · cases h
    · cases h
      rfl
  · cases h

end CodeWorker
