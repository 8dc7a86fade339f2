import Rathaxes.Laws.Registration
import Rathaxes.Link.Validate

/-!
# What the local library holds after a validation

A validation makes a list of copies that depends on the differential cache only, and merges the same
cache with its entries renamed (`validateTemp_eq`). The templates are not among the entries it renames:
the files of a type's mapping and of its methods stay in the working directory, and the local cache
keeps the names they have there. If no type has a mapping or methods, and the copies do not get in each
other's way, every file the local cache names for an entry of the run is in the local library with the
contents it had in the working directory (`validateDiff_stored`).
-/

set_option autoImplicit false

namespace Rathaxes.Link

open CodeWorker

/-! ## The copies and the renaming -/

section Plan

variable (env : LinkEnv)

/-- The copies made for an entry that has a tree and a script. -/
def filesCopies (theKey : String) (tmpWith : WithConfig) (treeFile scriptFile : String) :
    List (String × String) :=
  [(treeFile, env.localBacklibPath ++ validName env theKey tmpWith ++ ".tree"),
    (scriptFile, env.localBacklibPath ++ validName env theKey tmpWith ++ ".cws")]

/-- The copy made for a tree of an interface. -/
def itfCopy (treeFile : String) : String × String :=
  (treeFile, env.localBacklibPath ++ ("interfaces/" ++ treeFile))

def extensionCopies (ext : CachedExtension) : List (String × String) := [itfCopy env ext.treeFile]

def renamedExtension (ext : CachedExtension) : CachedExtension :=
  { ext with treeFile := "interfaces/" ++ ext.treeFile }

def interfaceCopies (itf : CachedInterface) : List (String × String) :=
  itfCopy env (itf.treeFile.getD "") :: itf.extensions.flatMap (extensionCopies env)

def renamedInterface (itf : CachedInterface) : CachedInterface :=
  { itf with
    treeFile := some ("interfaces/" ++ itf.treeFile.getD "")
    extensions := itf.extensions.map renamedExtension }

def globCopies (glob : GlobalCode × Nat) : List (String × String) :=
  filesCopies env (globKey glob.2) glob.1.withConfig glob.1.treeFile glob.1.scriptFile

def renamedGlob (glob : GlobalCode × Nat) : GlobalCode :=
  { glob.1 with
    treeFile := validName env (globKey glob.2) glob.1.withConfig ++ ".tree"
    scriptFile := validName env (globKey glob.2) glob.1.withConfig ++ ".cws" }

def chunkCopies (pointcut : String) (chunk : CachedChunk × Nat) : List (String × String) :=
  filesCopies env (chunkKey chunk.1.tplId pointcut chunk.2) chunk.1.withConfig chunk.1.treeFile
    chunk.1.scriptFile

def renamedChunk (pointcut : String) (chunk : CachedChunk × Nat) : CachedChunk :=
  { chunk.1 with
    treeFile := validName env (chunkKey chunk.1.tplId pointcut chunk.2) chunk.1.withConfig ++ ".tree"
    scriptFile := validName env (chunkKey chunk.1.tplId pointcut chunk.2) chunk.1.withConfig ++ ".cws" }

/-- All copies of a validation, in order. -/
def validateCopies (temp : Cache) : List (String × String) :=
  (temp.interfaces.entries.flatMap fun e => interfaceCopies env e.2) ++
    temp.globalCode.zipIdx.flatMap (globCopies env) ++
    temp.chunks.entries.flatMap fun e => e.2.zipIdx.flatMap (chunkCopies env e.1)

/-- The differential cache with its entries renamed. -/
def renamedTemp (temp : Cache) : Cache :=
  { temp with
    interfaces := temp.interfaces.mapValues fun _ itf => renamedInterface itf
    globalCode := temp.globalCode.zipIdx.map (renamedGlob env)
    chunks := temp.chunks.mapValues fun pointcut chunks =>
      chunks.zipIdx.map (renamedChunk env pointcut) }

variable {env}

theorem validateItf_copies : CopiesAndRenames (validateItf env) (fun treeFile => [itfCopy env treeFile])
    fun treeFile => "interfaces/" ++ treeFile := by
  intro fs treeFile
  simp only [itfCopy, FileSystem.copyAll_cons, FileSystem.copyAll_nil, Option.bind_fun_some]
  exact Option.map_eq_bind.symm

theorem validateFiles_eq (fs : FileSystem) (theKey : String) (tmpWith : WithConfig)
    (treeFile scriptFile : String) :
    validateFiles env fs theKey tmpWith treeFile scriptFile =
      (fs.copyAll (filesCopies env theKey tmpWith treeFile scriptFile)).map fun fs =>
        (fs, validName env theKey tmpWith ++ ".tree", validName env theKey tmpWith ++ ".cws") := by
  simp only [filesCopies, FileSystem.copyAll_cons, FileSystem.copyAll_nil, Option.bind_fun_some]
  cases htree : fs.copyFile treeFile (env.localBacklibPath ++ validName env theKey tmpWith ++ ".tree") with
  | none => simp [validateFiles, htree]
  | some fs' =>
    simp only [validateFiles, htree, Option.bind_some, Option.bind_eq_bind]
    exact Option.map_eq_bind.symm

theorem validateExtension_copies :
    CopiesAndRenames (validateExtension env) (extensionCopies env) renamedExtension := by
  intro fs ext
  rw [validateExtension, validateItf_copies, extensionCopies]
  cases fs.copyAll [itfCopy env ext.treeFile] <;> rfl

theorem validateInterface_copies :
    CopiesAndRenames (validateInterface env) (interfaceCopies env) renamedInterface := by
  intro fs itf
  have hloop := fun fs => mapAccum_copies (@validateExtension_copies env) fs itf.extensions
  rw [validateInterface, validateItf_copies, interfaceCopies, ← List.singleton_append,
    FileSystem.copyAll_append]
  cases fs.copyAll [itfCopy env (itf.treeFile.getD "")] with
  | none => rfl
  | some fs₁ =>
    simp only [Option.map_some, Option.bind_eq_bind, Option.bind_some, hloop fs₁]
    cases fs₁.copyAll (itf.extensions.flatMap (extensionCopies env)) <;> rfl

theorem validateGlobalCode_copies :
    CopiesAndRenames (validateGlobalCode env) (globCopies env) (renamedGlob env) := by
  intro fs glob
  rw [validateGlobalCode, validateFiles_eq, globCopies]
  cases fs.copyAll _ <;> rfl

theorem validateChunk_copies (pointcut : String) : CopiesAndRenames (validateChunk env pointcut)
    (chunkCopies env pointcut) (renamedChunk env pointcut) := by
  intro fs chunk
  rw [validateChunk, validateFiles_eq, chunkCopies]
  cases fs.copyAll _ <;> rfl

theorem validatePointcut_copies (pointcut : String) :
    CopiesAndRenames (fun fs chunks => validatePointcut env fs pointcut chunks)
      (fun chunks => chunks.zipIdx.flatMap (chunkCopies env pointcut))
      fun chunks => chunks.zipIdx.map (renamedChunk env pointcut) :=
  fun fs chunks => mapAccum_copies (validateChunk_copies pointcut) fs chunks.zipIdx

/-- The loops over the templates find no file. -/
theorem foldlM_validateHashNode (kind : String) (fs : FileSystem) :
    ∀ buckets : List (String × List CachedTemplate),
      buckets.foldlM (validateHashNode env kind) fs = some fs
  | [] => rfl
  | _ :: buckets => foldlM_validateHashNode kind fs buckets

/-- **A validation is a list of copies and a renaming.** -/
theorem validateTemp_copies :
    CopiesAndRenames (validateTemp env) (validateCopies env) (renamedTemp env) := by
  intro fs temp
  have hinterfaces := Table.mapAccum_copies (fun _ => @validateInterface_copies env) fs
    temp.interfaces
  have hglobalCode := fun fs => mapAccum_copies (@validateGlobalCode_copies env) fs
    temp.globalCode.zipIdx
  have hchunks := fun fs => Table.mapAccum_copies (@validatePointcut_copies env) fs temp.chunks
  unfold validateTemp validateCopies
  rw [hinterfaces, FileSystem.copyAll_append, FileSystem.copyAll_append]
  cases fs.copyAll (temp.interfaces.entries.flatMap fun e => interfaceCopies env e.2) with
  | none => rfl
  | some fs₁ =>
    simp only [Option.map_some, Option.bind_eq_bind, Option.bind_some, hglobalCode fs₁]
    cases fs₁.copyAll (temp.globalCode.zipIdx.flatMap (globCopies env)) with
    | none => rfl
    | some fs₂ =>
      simp only [Option.map_some, Option.bind_some, foldlM_validateHashNode, hchunks fs₂]
      cases fs₂.copyAll (temp.chunks.entries.flatMap fun e =>
        e.2.zipIdx.flatMap (chunkCopies env e.1)) <;> rfl

end Plan

/-- What a validation that returns true has done. -/
theorem validateDiff_eq_some {env : LinkEnv} {fs fs' : FileSystem} {temp cacheLocal cacheLocal' : Cache}
    (h : validateDiff env fs temp cacheLocal = .ok (some (fs', cacheLocal'))) :
    fs.copyAll (validateCopies env temp) = some fs' ∧
      mergeCaches env.ignoreConflicts cacheLocal (renamedTemp env temp) = .ok cacheLocal' := by
  unfold validateDiff at h
  rw [validateTemp_copies] at h
  cases hcopy : fs.copyAll (validateCopies env temp) with
  | none =>
    rw [hcopy] at h
    cases h
  | some fs₁ =>
    rw [hcopy] at h
    obtain ⟨merged, hmerge, heq⟩ := bind_eq_ok_iff.1 h
    cases heq
    exact ⟨rfl, hmerge⟩

/-! ## The files of the entries -/

/-- A file of the working directory is in the local library, under the name given. -/
def StoredAs (env : LinkEnv) (fs fs' : FileSystem) (old new : String) : Prop :=
  (fs.read old).isSome ∧ fs'.read (env.localBacklibPath ++ new) = fs.read old

/-- The two files of an entry. -/
def BothStored (env : LinkEnv) (fs fs' : FileSystem) (tree script tree' script' : String) : Prop :=
  StoredAs env fs fs' tree tree' ∧ StoredAs env fs fs' script script'

/-- The files of a template: those of its mapping and of its methods. -/
structure TemplateStored (env : LinkEnv) (fs fs' : FileSystem) (tpl copy : CachedTemplate) : Prop where
  mapping : ∀ files, tpl.mapping = some files → ∃ files', copy.mapping = some files' ∧
    BothStored env fs fs' files.treeFile files.scriptFile files'.treeFile files'.scriptFile
  methods : ∀ name m, tpl.methods.get? name = some m → ∃ m', copy.methods.get? name = some m' ∧
    BothStored env fs fs' m.treeFile m.scriptFile m'.treeFile m'.scriptFile

/-- For every entry of the differential cache that is in the new local cache, the files named there are
in the local library with the contents the files of the entry had in the working directory. -/
structure DiffStored (env : LinkEnv) (fs fs' : FileSystem) (temp cacheLocal cacheLocal' : Cache) :
    Prop where
  interfaces : ∀ name itf, temp.interfaces.get? name = some itf → ∃ itf' before new,
    cacheLocal'.interfaces.get? name = some itf' ∧
    (∀ file, itf.treeFile = some file →
      ∃ file', itf'.treeFile = some file' ∧ StoredAs env fs fs' file file') ∧
    itf'.extensions = before ++ new ∧
    List.Forall₂ (fun ext ext' => StoredAs env fs fs' ext.treeFile ext'.treeFile) itf.extensions new
  globalCode : ∃ new, cacheLocal'.globalCode = cacheLocal.globalCode ++ new ∧
    List.Forall₂ (fun glob glob' =>
      BothStored env fs fs' glob.treeFile glob.scriptFile glob'.treeFile glob'.scriptFile)
      temp.globalCode new
  templates : ∀ table hash, ∃ copies,
    cacheLocal'.bucket table hash = cacheLocal.bucket table hash ++ copies ∧
    List.Forall₂ (TemplateStored env fs fs') (temp.bucket table hash) copies
  chunks : ∀ name, ∃ new, cacheLocal'.chunkList name = cacheLocal.chunkList name ++ new ∧
    ∀ c' ∈ new, ∃ c ∈ temp.chunkList name,
      BothStored env fs fs' c.treeFile c.scriptFile c'.treeFile c'.scriptFile

/-- No template has files of its own: no mapping, no methods. -/
def PlainTemplates (cache : Cache) : Prop :=
  ∀ table hash, ∀ tpl ∈ cache.bucket table hash, tpl.mapping = none ∧ tpl.methods = Table.empty

section Stored

variable {env : LinkEnv} {fs fs' : FileSystem} {temp cacheLocal cacheLocal' : Cache}

theorem storedAs_of_mem {copies : List (String × String)} (h : FileSystem.Copied fs copies fs')
    {old new : String} (hmem : (old, env.localBacklibPath ++ new) ∈ copies) :
    StoredAs env fs fs' old new :=
  h.stored _ hmem

theorem bothStored_of_subset {copies : List (String × String)} (h : FileSystem.Copied fs copies fs')
    {theKey tree script : String} {tmpWith : WithConfig}
    (hsub : filesCopies env theKey tmpWith tree script ⊆ copies) :
    BothStored env fs fs' tree script (validName env theKey tmpWith ++ ".tree")
      (validName env theKey tmpWith ++ ".cws") := by
  constructor
  · apply storedAs_of_mem h
    rw [← String.append_assoc]
    exact hsub List.mem_cons_self
  · apply storedAs_of_mem h
    rw [← String.append_assoc]
    exact hsub (List.mem_cons_of_mem _ List.mem_cons_self)

theorem forall₂_map_right {α β : Type} {R : α → β → Prop} {f : α → β} {l : List α}
    (h : ∀ a ∈ l, R a (f a)) : List.Forall₂ R l (l.map f) := by
  induction l with
  | nil => exact .nil
  | cons a l ih =>
    exact .cons (h a List.mem_cons_self) (ih fun b hb => h b (List.mem_cons_of_mem a hb))

theorem forall₂_imp_of_mem {α β : Type} {R S : α → β → Prop} {l : List α} {l' : List β}
    (h : List.Forall₂ R l l') (himp : ∀ a ∈ l, ∀ b, R a b → S a b) : List.Forall₂ S l l' := by
  induction h with
  | nil => exact .nil
  | cons hR _ ih =>
    exact .cons (himp _ List.mem_cons_self _ hR) (ih fun a ha => himp a (List.mem_cons_of_mem _ ha))

theorem templateStored_of_plain {tpl copy : CachedTemplate}
    (h : tpl.mapping = none ∧ tpl.methods = Table.empty) : TemplateStored env fs fs' tpl copy where
  mapping files hfiles := by
    rw [h.1] at hfiles
    cases hfiles
  methods name m hm := by
    rw [h.2] at hm
    cases hm

theorem chunkList_renamedTemp (env : LinkEnv) (temp : Cache) (name : String) :
    (renamedTemp env temp).chunkList name =
      (temp.chunkList name).zipIdx.map (renamedChunk env name) := by
  unfold Cache.chunkList renamedTemp
  rw [Table.get?_mapValues]
  cases temp.chunks.get? name <;> rfl

/-- The interfaces: a cache that has an interface with a tree does not take another one of that name,
so the entry is copied as it is. -/
theorem interfaces_stored (hcopied : FileSystem.Copied fs (validateCopies env temp) fs')
    (hmerge : MergeOf cacheLocal (renamedTemp env temp) cacheLocal') {name : String}
    {itf : CachedInterface} (hitf : temp.interfaces.get? name = some itf) : ∃ itf' before new,
      cacheLocal'.interfaces.get? name = some itf' ∧
      (∀ file, itf.treeFile = some file →
        ∃ file', itf'.treeFile = some file' ∧ StoredAs env fs fs' file file') ∧
      itf'.extensions = before ++ new ∧
      List.Forall₂ (fun ext ext' => StoredAs env fs fs' ext.treeFile ext'.treeFile)
        itf.extensions new := by
  have hrenamed : (renamedTemp env temp).interfaces.get? name = some (renamedInterface itf) := by
    unfold renamedTemp
    rw [Table.get?_mapValues, hitf]
    rfl
  have hnone : cacheLocal.interfaces.get? name = none := by
    cases hold : cacheLocal.interfaces.get? name with
    | none => rfl
    | some old =>
      have htree := hmerge.agree (name, renamedInterface itf)
        ((Table.mem_entries_iff _ _ _).2 hrenamed) (by rw [hold]; rfl)
      cases htree
  have hnew : cacheLocal'.interfaces.get? name = some (renamedInterface itf) := by
    rw [hmerge.interfaces, hnone, hrenamed]
    rfl
  -- the copies made for this interface are among those of the validation
  have hcopies : ∀ c ∈ interfaceCopies env itf, c ∈ validateCopies env temp := by
    intro c hc
    unfold validateCopies
    refine List.mem_append_left _ (List.mem_append_left _ (List.mem_flatMap.2 ⟨(name, itf), ?_, hc⟩))
    exact (temp.interfaces.mem_entries_iff name itf).2 hitf
  refine ⟨renamedInterface itf, [], itf.extensions.map renamedExtension, hnew, ?_, rfl, ?_⟩
  · intro file hfile
    refine ⟨"interfaces/" ++ file, by simp [renamedInterface, hfile], ?_⟩
    apply storedAs_of_mem hcopied
    apply hcopies
    simp [interfaceCopies, itfCopy, hfile]
  · apply forall₂_map_right
    intro ext hext
    apply storedAs_of_mem hcopied
    apply hcopies
    exact List.mem_cons_of_mem _ (List.mem_flatMap.2 ⟨ext, hext, List.mem_cons_self⟩)

/-- The global code is appended to that of the local cache. -/
theorem globalCode_stored (hcopied : FileSystem.Copied fs (validateCopies env temp) fs') :
    List.Forall₂ (fun glob glob' =>
      BothStored env fs fs' glob.treeFile glob.scriptFile glob'.treeFile glob'.scriptFile)
      temp.globalCode (renamedTemp env temp).globalCode := by
  show List.Forall₂ _ temp.globalCode (temp.globalCode.zipIdx.map (renamedGlob env))
  have hmap : temp.globalCode = temp.globalCode.zipIdx.map Prod.fst := (List.zipIdx_map_fst 0 _).symm
  conv_lhs => rw [hmap]
  rw [List.forall₂_map_left_iff]
  apply forall₂_map_right
  intro glob hglob
  apply bothStored_of_subset hcopied
  intro c hc
  unfold validateCopies
  exact List.mem_append_left _ (List.mem_append_right _ (List.mem_flatMap.2 ⟨glob, hglob, hc⟩))

/-- A chunk that the merge has copied is a chunk of the differential cache, renamed. -/
theorem chunk_stored (hcopied : FileSystem.Copied fs (validateCopies env temp) fs')
    {tpl : CachedTemplate} {name : String} {c' : CachedChunk}
    (hc' : c' ∈ contribution (renamedTemp env temp) tpl name) : ∃ c ∈ temp.chunkList name,
      BothStored env fs fs' c.treeFile c.scriptFile c'.treeFile c'.scriptFile := by
  obtain ⟨id, -, hat⟩ := mem_contribution.1 hc'
  have hmem := List.mem_of_getElem? hat
  rw [chunkList_renamedTemp] at hmem
  obtain ⟨⟨c, i⟩, hci, rfl⟩ := List.mem_map.1 hmem
  have hc : c ∈ temp.chunkList name := (List.mem_zipIdx' hci).2 ▸ List.getElem_mem _
  refine ⟨c, hc, bothStored_of_subset hcopied ?_⟩
  intro copy hcopy
  -- the pointcut has an entry, as it has a chunk
  have hentry : (name, temp.chunkList name) ∈ temp.chunks.entries := by
    rw [Table.mem_entries_iff]
    unfold Cache.chunkList at hc ⊢
    cases hget : temp.chunks.get? name with
    | none =>
      rw [hget] at hc
      cases hc
    | some chunks => rfl
  unfold validateCopies
  exact List.mem_append_right _ (List.mem_flatMap.2 ⟨_, hentry, List.mem_flatMap.2 ⟨_, hci, hcopy⟩⟩)

/-- A validation of a differential cache without files of templates stores all files. -/
theorem diffStored_of_plain (hplain : PlainTemplates temp)
    (hind : FileSystem.Independent fs (validateCopies env temp))
    (h : validateDiff env fs temp cacheLocal = .ok (some (fs', cacheLocal'))) :
    DiffStored env fs fs' temp cacheLocal cacheLocal' := by
  obtain ⟨hcopy, hmerge⟩ := validateDiff_eq_some h
  have hcopied := FileSystem.copied_of_copyAll hind hcopy
  have hmerge := mergeOf_mergeCaches hmerge
  constructor
  case interfaces =>
    intro name itf hitf
    exact interfaces_stored hcopied hmerge hitf
  case globalCode => exact ⟨_, hmerge.globalCode, globalCode_stored hcopied⟩
  case templates =>
    intro table hash
    obtain ⟨copies, hbucket, hcopies⟩ := hmerge.buckets table hash
    have hsame : (renamedTemp env temp).bucket table hash = temp.bucket table hash := by
      cases table <;> rfl
    rw [hsame] at hcopies
    refine ⟨copies, hbucket, forall₂_imp_of_mem hcopies ?_⟩
    intro tpl htpl copy _
    exact templateStored_of_plain (hplain table hash tpl htpl)
  case chunks =>
    intro name
    refine ⟨_, hmerge.chunks name, ?_⟩
    intro c' hc'
    obtain ⟨f, -, hf⟩ := List.mem_flatMap.1 hc'
    exact chunk_stored hcopied hf

end Stored

/-! ## Runs -/

/-- The registrations that leave no file with a template. -/
def Registration.LeavesNoTypeFiles : Registration → Prop
  | .globalCode _ _ _ => True
  | .tpl t _ => t.recordedMapping = none ∧ t.methods = []
  | .chunk _ => True
  | .itf _ => True
  | .itfExtension _ _ => True
  | .unknown _ => True

instance : (r : Registration) → Decidable r.LeavesNoTypeFiles
  | .globalCode _ _ _ => inferInstanceAs (Decidable True)
  | .tpl t _ => inferInstanceAs (Decidable (t.recordedMapping = none ∧ t.methods = []))
  | .chunk _ => inferInstanceAs (Decidable True)
  | .itf _ => inferInstanceAs (Decidable True)
  | .itfExtension _ _ => inferInstanceAs (Decidable True)
  | .unknown _ => inferInstanceAs (Decidable True)

theorem plainTemplates_empty : PlainTemplates Cache.empty := by
  intro table hash tpl htpl
  cases table <;> cases htpl

theorem PlainTemplates.step {r : Registration} {cache cache' : Cache} (h : PlainTemplates cache)
    (hr : r.LeavesNoTypeFiles) (hstep : TempStep r cache cache') : PlainTemplates cache' := by
  cases hstep with
  | unchanged => exact h
  | globalCode => exact h
  | tpl t withValues =>
    obtain ⟨new, hnew⟩ := registerTemplate_spec cache t withValues
    intro table hash tpl htpl
    rcases hnew.mem_bucket htpl with hold | rfl
    · exact h _ _ tpl hold
    · rw [hnew.mapping, hnew.methods, hr.1, hr.2]
      exact ⟨rfl, rfl⟩
  | chunk => exact h
  | itf => exact h
  | itfExtension => exact h

/-- **Every file the local cache names is in the local library**, after any run in which no type has a
mapping or methods, if the copies do not get in each other's way. -/
theorem validateDiff_stored {env : LinkEnv} {fs fs' : FileSystem} {s s' : Session}
    {withValues : WithConfig} {items : List Item} {cacheLocal cacheLocal' : Cache}
    (hstart : s.temp = Cache.empty)
    (hplain : ∀ r ∈ registrationsAll withValues items, r.LeavesNoTypeFiles)
    (hrun : sessionRegisterAll s withValues items = .ok s')
    (hind : FileSystem.Independent fs (validateCopies env s'.temp))
    (h : validateDiff env fs s'.temp cacheLocal = .ok (some (fs', cacheLocal'))) :
    DiffStored env fs fs' s'.temp cacheLocal cacheLocal' := by
  have htemp : PlainTemplates s'.temp := by
    refine temp_invariant ?_ (hstart ▸ plainTemplates_empty) hrun
    intro r hr cache cache' hstep hcache
    exact hcache.step (hplain r hr) hstep
  exact diffStored_of_plain htemp hind h

/-- A library in `lib/`, with keys themselves for file names. -/
def libEnv : LinkEnv where
  backlibPath := "global/"
  localBacklibPath := "lib/"
  computeMD5 := id
  withText := fun _ => ""
  ignoreConflicts := false

/-- The working directory after the generation of the template of the given name. -/
def initFiles (name : Word) : FileSystem :=
  .ofFiles [(name.text ++ ".tree", "the tree"), (name.text ++ ".cws", "the script")]

theorem validateDiff_stored_open : ∃ s fs' cacheLocal',
    sessionRegisterAll (Session.fresh false) Table.empty [initBlock ⟨"Open", rfl⟩] = .ok s ∧
      validateDiff libEnv (initFiles ⟨"Open", rfl⟩) s.temp Cache.empty = .ok (some (fs', cacheLocal')) ∧
      DiffStored libEnv (initFiles ⟨"Open", rfl⟩) fs' s.temp Cache.empty cacheLocal' := by
  have hplain : ∀ r ∈ registrationsAll Table.empty [initBlock ⟨"Open", rfl⟩],
      r.LeavesNoTypeFiles := by decide
  have hrun : ∃ s fs' cacheLocal',
      sessionRegisterAll (Session.fresh false) Table.empty [initBlock ⟨"Open", rfl⟩] = .ok s ∧
        FileSystem.Independent (initFiles ⟨"Open", rfl⟩) (validateCopies libEnv s.temp) ∧
        validateDiff libEnv (initFiles ⟨"Open", rfl⟩) s.temp Cache.empty =
          .ok (some (fs', cacheLocal')) := ⟨_, _, _, rfl, by decide, rfl⟩
  obtain ⟨s, fs', cacheLocal', hrun, hind, h⟩ := hrun
  exact ⟨s, fs', cacheLocal', hrun, h, validateDiff_stored rfl hplain hrun hind h⟩

/-- A type `Buffer()` with a mapping. -/
def bufferBlock : Item :=
  .withBlock (rtxNodeWithOne ⟨"LKM", .refl true⟩ []) ⟨[], []⟩ Files.absent
    [.tpl ⟨.type, ⟨rtxNodeIdentifier ⟨"Buffer", .refl true⟩, []⟩, true, [], Files.named "Buffer"⟩]

/-- The files of the mapping are not copied, and the local cache keeps the names they have in the
working directory. -/
theorem mapping_not_stored : ∃ s fs' cacheLocal',
    sessionRegisterAll (Session.fresh false) Table.empty [bufferBlock] = .ok s ∧
      validateDiff libEnv (.ofFiles [("Buffer.tree", "the tree"), ("Buffer.cws", "the script")]) s.temp
        Cache.empty = .ok (some (fs', cacheLocal')) ∧
      (cacheLocal'.bucket .types "Buffer()").map CachedTemplate.mapping =
        [some ⟨"Buffer.cws", "Buffer.tree"⟩] ∧
      fs'.read ("lib/" ++ "Buffer.tree") = none ∧ fs'.read ("lib/" ++ "Buffer.cws") = none :=
  ⟨_, _, _, rfl, rfl, by decide, by decide, by decide⟩

end Rathaxes.Link
