import Rathaxes.CodeWorker.Table

/-!
# Files

A file system is a map from paths to contents. A path that is empty or ends with a slash names a
directory: no file can be read or written there. Where a file can be created is up to the file system;
copying fails when the source is missing or the destination cannot be written.

A script that copies files while it walks over arrays of file names is a list of copies and a renaming
of the items (`mapAccum_copies`). When the copies do not get in each other's way, each destination holds
in the end what its source held at the start (`copied_of_copyAll`).
-/

set_option autoImplicit false

namespace CodeWorker

/-- The path names a directory, the empty path the current one. -/
def isDirectory (path : String) : Bool := path.isEmpty || path.toList.getLast? == some '/'

/-- The files by their paths, and the paths that can be written. -/
structure FileSystem where
  read : String → Option String
  writable : String → Bool
  noFile : ∀ path, isDirectory path = true → read path = none
  notWritable : ∀ path, isDirectory path = true → writable path = false

namespace FileSystem

/-- The file system that holds the given files, and in which every path can be written that does not
name a directory. -/
def ofFiles (files : List (String × String)) : FileSystem where
  read path := if isDirectory path then none else files.lookup path
  writable path := !isDirectory path
  noFile path h := by rw [if_pos h]
  notWritable path h := by rw [h]; rfl

/-- Write a file. -/
def write (fs : FileSystem) (path contents : String) (h : fs.writable path = true) : FileSystem where
  read p := if p = path then some contents else fs.read p
  writable := fs.writable
  noFile p hp := by
    by_cases heq : p = path
    · subst heq
      rw [fs.notWritable p hp] at h
      exact absurd h Bool.false_ne_true
    · rw [if_neg heq]
      exact fs.noFile p hp
  notWritable := fs.notWritable

/-- `copyFile(source, destination)`, which raises an error when it fails. -/
def copyFile (fs : FileSystem) (source destination : String) : Option FileSystem :=
  match fs.read source with
  | none => none
  | some contents =>
    if h : fs.writable destination = true then some (fs.write destination contents h) else none

/-- `deleteFile(path)`. -/
def deleteFile (fs : FileSystem) (path : String) : FileSystem where
  read p := if p = path then none else fs.read p
  writable := fs.writable
  noFile p hp := by
    split
    · rfl
    · exact fs.noFile p hp
  notWritable := fs.notWritable

@[simp] theorem read_deleteFile_self (fs : FileSystem) (path : String) :
    (fs.deleteFile path).read path = none := if_pos rfl

/-- What a copy does. -/
theorem copyFile_eq_some {fs fs' : FileSystem} {source destination : String}
    (h : fs.copyFile source destination = some fs') :
    ∃ contents, fs.read source = some contents ∧
      ∀ p, fs'.read p = if p = destination then some contents else fs.read p := by
  unfold copyFile at h
  cases hread : fs.read source with
  | none =>
    rw [hread] at h
    cases h
  | some contents =>
    rw [hread] at h
    simp only at h
    split at h
    · cases h
      exact ⟨contents, rfl, fun p => rfl⟩
    · cases h

theorem copyFile_of_none {fs : FileSystem} {source : String} (h : fs.read source = none)
    (destination : String) : fs.copyFile source destination = none := by
  unfold copyFile
  rw [h]

/-! ## Lists of copies -/

/-- Copies made one after the other, each a source and a destination. -/
def copyAll (fs : FileSystem) (copies : List (String × String)) : Option FileSystem :=
  copies.foldlM (fun fs c => fs.copyFile c.1 c.2) fs

@[simp] theorem copyAll_nil (fs : FileSystem) : fs.copyAll [] = some fs := rfl

@[simp] theorem copyAll_cons (fs : FileSystem) (c : String × String) (copies : List (String × String)) :
    fs.copyAll (c :: copies) = (fs.copyFile c.1 c.2).bind fun fs => fs.copyAll copies := rfl

theorem copyAll_append (fs : FileSystem) (copies copies' : List (String × String)) :
    fs.copyAll (copies ++ copies') = (fs.copyAll copies).bind fun fs => fs.copyAll copies' :=
  List.foldlM_append

/-- Nothing can be copied from a path that names a directory. -/
theorem copyAll_eq_none {c : String × String} (hdirectory : isDirectory c.1 = true) :
    ∀ {copies : List (String × String)}, c ∈ copies → ∀ fs : FileSystem, fs.copyAll copies = none
  | first :: copies, hc, fs => by
    rw [copyAll_cons, Option.bind_eq_none_iff]
    intro fs' hfirst
    rcases List.mem_cons.1 hc with rfl | hlater
    · rw [copyFile_of_none (fs.noFile _ hdirectory)] at hfirst
      cases hfirst
    · exact copyAll_eq_none hdirectory hlater fs'

/-- The copies do not get in each other's way: no destination is the source of a copy, and where two
have the same destination, their sources hold the same. -/
structure Independent (fs : FileSystem) (copies : List (String × String)) : Prop where
  apart : ∀ c ∈ copies, ∀ c' ∈ copies, c.2 ≠ c'.1
  agree : ∀ c ∈ copies, ∀ c' ∈ copies, c.2 = c'.2 → fs.read c.1 = fs.read c'.1

instance (fs : FileSystem) (copies : List (String × String)) : Decidable (Independent fs copies) :=
  decidable_of_iff ((∀ c ∈ copies, ∀ c' ∈ copies, c.2 ≠ c'.1) ∧
      ∀ c ∈ copies, ∀ c' ∈ copies, c.2 = c'.2 → fs.read c.1 = fs.read c'.1)
    ⟨fun h => ⟨h.1, h.2⟩, fun h => ⟨h.apart, h.agree⟩⟩

/-- The files after copies were made: where they started, the copies made, where they stand. -/
structure Copied (fs : FileSystem) (done : List (String × String)) (fs' : FileSystem) : Prop where
  stored : ∀ c ∈ done, (fs.read c.1).isSome ∧ fs'.read c.2 = fs.read c.1
  other : ∀ p, p ∉ done.map Prod.snd → fs'.read p = fs.read p

/-- One copy more. -/
theorem Copied.step {fs fs₁ fs₂ : FileSystem} {done : List (String × String)} {c : String × String}
    (h : Copied fs done fs₁) (hind : Independent fs (done ++ [c]))
    (hstep : fs₁.copyFile c.1 c.2 = some fs₂) : Copied fs (done ++ [c]) fs₂ := by
  obtain ⟨contents, hread, hafter⟩ := copyFile_eq_some hstep
  have hc : c ∈ done ++ [c] := List.mem_append_right done List.mem_cons_self
  -- no copy made so far has touched the source
  have hsource : fs.read c.1 = some contents := by
    rw [← hread, h.other]
    intro hmem
    obtain ⟨c', hc', heq⟩ := List.mem_map.1 hmem
    exact hind.apart c' (List.mem_append_left _ hc') c hc heq
  constructor
  case stored =>
    intro c' hc'
    rcases List.mem_append.1 hc' with hold | hnew
    · obtain ⟨hsome, hstored⟩ := h.stored c' hold
      refine ⟨hsome, ?_⟩
      rw [hafter]
      split
      · rename_i heq
        rw [← hsource]
        exact hind.agree c hc c' hc' heq.symm
      · exact hstored
    · rw [List.mem_singleton.1 hnew, hafter, if_pos rfl, hsource]
      exact ⟨rfl, rfl⟩
  case other =>
    intro p hp
    rw [List.map_append, List.mem_append, not_or] at hp
    have hne : p ≠ c.2 := fun heq => hp.2 (heq ▸ List.mem_cons_self)
    rw [hafter, if_neg hne, h.other p hp.1]

/-- **Independent copies**: in the end each destination holds what its source held at the start, and no
other file has changed. -/
theorem copied_of_copyAll {fs fs' : FileSystem} {copies : List (String × String)}
    (hind : Independent fs copies) (h : fs.copyAll copies = some fs') : Copied fs copies fs' := by
  have hrun : ∀ (rest done : List (String × String)) (fs₁ : FileSystem), done ++ rest = copies →
      Copied fs done fs₁ → fs₁.copyAll rest = some fs' → Copied fs copies fs' := by
    intro rest
    induction rest with
    | nil =>
      intro done fs₁ hsplit hdone hrest
      rw [List.append_nil] at hsplit
      cases hrest
      exact hsplit ▸ hdone
    | cons c rest ih =>
      intro done fs₁ hsplit hdone hrest
      rw [List.append_cons] at hsplit
      obtain ⟨fs₂, hstep, hrest⟩ := Option.bind_eq_some_iff.1 hrest
      have hfront : ∀ c' ∈ done ++ [c], c' ∈ copies :=
        fun c' hc' => hsplit ▸ List.mem_append_left rest hc'
      have hind' : Independent fs (done ++ [c]) :=
        ⟨fun c₁ h₁ c₂ h₂ => hind.apart c₁ (hfront c₁ h₁) c₂ (hfront c₂ h₂),
          fun c₁ h₁ c₂ h₂ => hind.agree c₁ (hfront c₁ h₁) c₂ (hfront c₂ h₂)⟩
      exact ih (done ++ [c]) fs₂ hsplit (hdone.step hind' hstep) hrest
  exact hrun copies [] fs rfl ⟨fun c hc => (nomatch hc), fun _ _ => rfl⟩ h

end FileSystem

/-! ## Loops that copy and rename -/

section Loops

variable {α β : Type}

/-- A loop whose turns change the files and the item they stand at, and may fail. -/
def mapAccum (step : FileSystem → α → Option (FileSystem × β)) :
    FileSystem → List α → Option (FileSystem × List β)
  | fs, [] => some (fs, [])
  | fs, a :: as =>
    (step fs a).bind fun r => (mapAccum step r.1 as).map fun rs => (rs.1, r.2 :: rs.2)

/-- A turn that makes some copies and leaves an item that does not depend on the files. -/
def CopiesAndRenames (step : FileSystem → α → Option (FileSystem × β))
    (copies : α → List (String × String)) (rename : α → β) : Prop :=
  ∀ fs a, step fs a = (fs.copyAll (copies a)).map fun fs => (fs, rename a)

/-- **A loop of such turns makes all their copies and renames every item.** -/
theorem mapAccum_copies {step : FileSystem → α → Option (FileSystem × β)}
    {copies : α → List (String × String)} {rename : α → β} (hstep : CopiesAndRenames step copies rename) :
    CopiesAndRenames (mapAccum step) (fun as => as.flatMap copies) fun as => as.map rename := by
  intro fs as
  induction as generalizing fs with
  | nil => rfl
  | cons a as ih =>
    simp only [List.flatMap_cons, FileSystem.copyAll_append, mapAccum, hstep fs a]
    cases fs.copyAll (copies a) with
    | none => rfl
    | some fs₁ =>
      simp only [Option.map_some, Option.bind_some, ih fs₁]
      cases fs₁.copyAll (as.flatMap copies) <;> rfl

/-- The same keys with other values. -/
def Table.mapValues (f : String → α → β) (t : Table α) : Table β where
  entries := t.entries.map fun e => (e.1, f e.1 e.2)
  nodup := by
    rw [List.map_map]
    exact t.nodup

theorem Table.get?_mapValues (f : String → α → β) (t : Table α) (k : String) :
    (t.mapValues f).get? k = (t.get? k).map (f k) := by
  show (t.entries.map fun e => (e.1, f e.1 e.2)).lookup k = (t.entries.lookup k).map (f k)
  induction t.entries with
  | nil => rfl
  | cons e es ih =>
    obtain ⟨key, v⟩ := e
    rw [List.map_cons, lookup_cons_ite, lookup_cons_ite, ih]
    by_cases hk : k = key
    · simp [hk]
    · simp [hk]

theorem keys_mapAccum {step : FileSystem → String → α → Option (FileSystem × β)} :
    ∀ {es : List (String × α)} {es' : List (String × β)} {fs fs' : FileSystem},
      mapAccum (fun fs e => (step fs e.1 e.2).map fun r => (r.1, (e.1, r.2))) fs es = some (fs', es') →
      es'.map Prod.fst = es.map Prod.fst := by
  intro es
  induction es with
  | nil =>
    intro es' fs fs' h
    cases h
    rfl
  | cons e es ih =>
    intro es' fs fs' h
    rw [mapAccum, Option.bind_eq_some_iff] at h
    obtain ⟨⟨fs₁, e'⟩, hfirst, h⟩ := h
    obtain ⟨⟨fs₂, rest⟩, hrest, heq⟩ := Option.map_eq_some_iff.1 h
    obtain ⟨r, -, hr⟩ := Option.map_eq_some_iff.1 hfirst
    cases heq
    cases hr
    rw [List.map_cons, List.map_cons, ih hrest]

/-- The loop over a keyed array, whose turns see the key and leave it. -/
def Table.mapAccum (step : FileSystem → String → α → Option (FileSystem × β)) (fs : FileSystem)
    (t : Table α) : Option (FileSystem × Table β) :=
  match h : CodeWorker.mapAccum (fun fs e => (step fs e.1 e.2).map fun r => (r.1, (e.1, r.2))) fs
      t.entries with
  | none => none
  | some (fs', es') => some (fs', ⟨es', by rw [keys_mapAccum h]; exact t.nodup⟩)

theorem Table.mapAccum_copies {step : FileSystem → String → α → Option (FileSystem × β)}
    {copies : String → α → List (String × String)} {rename : String → α → β}
    (hstep : ∀ k, CopiesAndRenames (fun fs a => step fs k a) (copies k) (rename k)) :
    CopiesAndRenames (Table.mapAccum step) (fun t => t.entries.flatMap fun e => copies e.1 e.2)
      (Table.mapValues rename) := by
  have hturn : CopiesAndRenames
      (fun fs (e : String × α) => (step fs e.1 e.2).map fun r => (r.1, (e.1, r.2)))
      (fun e => copies e.1 e.2) fun e => (e.1, rename e.1 e.2) := by
    intro fs e
    simp only [hstep e.1 fs e.2, Option.map_map]
    rfl
  intro fs t
  have hloop := CodeWorker.mapAccum_copies hturn fs t.entries
  unfold Table.mapAccum
  split
  · rename_i hnone
    rw [hloop, Option.map_eq_none_iff] at hnone
    rw [hnone]
    rfl
  · rename_i fs' es' hsome
    rw [hloop, Option.map_eq_some_iff] at hsome
    obtain ⟨fs₁, hcopy, heq⟩ := hsome
    obtain ⟨rfl, rfl⟩ := Prod.mk.inj heq
    rw [hcopy]
    rfl

end Loops

end CodeWorker
