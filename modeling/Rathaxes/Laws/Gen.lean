import Rathaxes.Back.Gen
import Rathaxes.CodeWorker.Table
import Rathaxes.CodeWorker.Text

/-!
# The names of the generated files

Three kinds of things are generated from a file: the global code of with-blocks, chunks, and the
mappings of type templates. `Generated` keeps of each what its name is made of, and `generated`
lists them in the order the pass meets them. A name can be read back (`file_injOn`), so two things
share a file exactly when they agree in what their names are made of: for a with-block its rank,
which is the number of things generated before it in its own item of the file.
-/

set_option autoImplicit false

namespace Rathaxes.Back

open CodeWorker

/-- What the name of a generated file is made of. -/
inductive Generated where
  | globalCode (rank : Nat)
  | chunk (tplHash scopedName : String)
  | typeMap (tplHash : String)
deriving DecidableEq

namespace Generated

/-- The base name of the files. -/
def file : Generated → String
  | globalCode rank => "With_" ++ toString rank ++ "_chunk__"
  | chunk tplHash scopedName => tplHash ++ ("_chunk_" ++ scopedName)
  | typeMap tplHash => tplHash ++ "_typemap__"

/-- The rank of a piece of global code. -/
def rank? : Generated → Option Nat
  | globalCode rank => some rank
  | chunk _ _ => none
  | typeMap _ => none

/-- The template and the pointcut of a chunk. -/
def chunk? : Generated → Option (String × String)
  | globalCode _ => none
  | chunk tplHash scopedName => some (tplHash, scopedName)
  | typeMap _ => none

/-- The template of a mapping. -/
def typeMap? : Generated → Option String
  | globalCode _ => none
  | chunk _ _ => none
  | typeMap tplHash => some tplHash

/-- The hashes are closed by a parenthesis, or empty, and no pointcut's name has one. -/
def WellFormed : Generated → Prop
  | globalCode _ => True
  | chunk tplHash scopedName => ClosedBy ')' tplHash ∧ ')' ∉ scopedName.toList
  | typeMap tplHash => ClosedBy ')' tplHash

end Generated

/-! ## What a file makes the pass generate -/

/-- A chunk under a template's hash. -/
def chunkGenerated (tplHash : String) (c : Chunk) : Generated :=
  .chunk tplHash (c.pointcut.name.scope.text ++ "_" ++ c.pointcut.name.name.text)

/-- The chunks of a template and then its mapping. -/
def tplGenerated (t : Template) : List Generated :=
  let hash := t.prototype.rtxRTypeFullQualifiedName
  t.body.map (chunkGenerated hash) ++ if isTypeTemplate t then [.typeMap hash] else []

mutual

/-- What an item makes the pass generate, when `uid` things were counted before it. -/
def generated (uid : Nat) : Item → List Generated
  | .withBlock _ cBlock _ body =>
    if cBlock.block.isEmpty then generatedAll uid body
    else .globalCode uid :: generatedAll (uid + 1) body
  | .tpl t => tplGenerated t
  | .chunk c => [chunkGenerated "" c]
  | .itf _ => []
  | .itfExtension _ => []
  | .device => []
  | .config => []
  | .other _ => []

/-- The same for the items of a block. -/
def generatedAll (uid : Nat) : List Item → List Generated
  | [] => []
  | item :: items =>
    generated uid item ++ generatedAll (uid + (generated uid item).length) items

end

/-- What a file makes the pass generate under a driver. -/
def generatedFile (restart : Nat → Nat) (uid : Nat) : List Item → List Generated
  | [] => []
  | item :: items =>
    generated uid item ++ generatedFile restart (restart (uid + (generated uid item).length)) items

mutual

/-- The file attributes of the nodes the pass has written to, in the order it met them. -/
def savedFiles : Item → List Files
  | .withBlock _ cBlock files body =>
    if cBlock.block.isEmpty then savedFilesAll body else files :: savedFilesAll body
  | .tpl t => t.body.map Chunk.files ++ if isTypeTemplate t then [t.files] else []
  | .chunk c => [c.files]
  | .itf _ => []
  | .itfExtension _ => []
  | .device => []
  | .config => []
  | .other _ => []

/-- The same for the items of a block or of a file. -/
def savedFilesAll : List Item → List Files
  | [] => []
  | item :: items => savedFiles item ++ savedFilesAll items

end

/-! ## The pass writes these names -/

theorem chunkFile_eq (tplHash : String) (c : Chunk) (uid : Nat) (h : tplHash ≠ "With") :
    chunkFile tplHash c.pointcut.name.scope.text c.pointcut.name.name.text uid =
      (chunkGenerated tplHash c).file := by
  simp only [chunkFile, h, ↓reduceIte, chunkGenerated, Generated.file, String.append_assoc]

theorem genScriptWith_eq (uid : Nat) :
    genScriptWith uid = Files.named (Generated.globalCode uid).file := by
  rw [genScriptWith, chunkFile, Generated.file]
  congr 1
  simp only [↓reduceIte, String.append_assoc]
  rfl

theorem typeMapFile_eq (tplHash : String) :
    typeMapFile tplHash = (Generated.typeMap tplHash).file := by
  rw [typeMapFile, Generated.file]
  simp only [String.append_assoc]
  rfl

theorem fullName_ne_with (r : RType) : r.rtxRTypeFullQualifiedName ≠ "With" :=
  RType.rtxRTypeFullQualifiedName_ne (by decide)

/-- The loop over a template's chunks. -/
theorem genChunks_spec {hash : String} (hhash : hash ≠ "With") (cs : List Chunk) (uid : Nat) :
    (genChunks hash uid cs).2 = uid + cs.length ∧
      (genChunks hash uid cs).1.map Chunk.files =
        (cs.map (chunkGenerated hash)).map (fun g => Files.named g.file) := by
  induction cs generalizing uid with
  | nil => exact ⟨rfl, rfl⟩
  | cons c cs ih =>
    obtain ⟨huid, hfiles⟩ := ih (uid + 1)
    refine ⟨?_, ?_⟩
    · show (genChunks hash (uid + 1) cs).2 = uid + (cs.length + 1)
      omega
    · show (genScriptChunk hash c uid).files :: (genChunks hash (uid + 1) cs).1.map Chunk.files = _
      rw [hfiles, List.map_cons, List.map_cons, genScriptChunk, chunkFile_eq hash c uid hhash]

/-- A template counts what it generates and carries its names. -/
theorem genTpl_spec (t : Template) (uid : Nat) :
    (genTpl t uid).2 = uid + (tplGenerated t).length ∧
      savedFiles (.tpl (genTpl t uid).1) =
        (tplGenerated t).map (fun g => Files.named g.file) := by
  obtain ⟨huid, hfiles⟩ := genChunks_spec (fullName_ne_with t.prototype) t.body uid
  have htype : isTypeTemplate (genTpl t uid).1 = isTypeTemplate t := by
    unfold genTpl
    dsimp only
    split <;> rfl
  rw [savedFiles, htype, tplGenerated, genTpl]
  by_cases ht : isTypeTemplate t = true
  · simp [ht, huid, hfiles, typeMapFile_eq, Nat.add_assoc]
  · simp [ht, huid, hfiles]

mutual

/-- **The pass counts what an item generates and writes its names.** -/
theorem gen_spec : ∀ (item item' : Item) (uid uid' : Nat), gen uid item = .ok (item', uid') →
    uid' = uid + (generated uid item).length ∧
      savedFiles item' = (generated uid item).map (fun g => Files.named g.file)
  | .withBlock w cBlock files body, item', uid, uid', h => by
    rw [gen] at h
    split at h
    · cases h
    · rename_i body' uid₁ hbody
      cases h
      obtain ⟨huid, hfiles⟩ := genBlock_spec body body' _ uid' hbody
      rw [generated, savedFiles]
      by_cases hempty : cBlock.block.isEmpty = true
      · simp only [hempty, ↓reduceIte] at huid hfiles ⊢
        exact ⟨huid, hfiles⟩
      · simp only [hempty, ↓reduceIte, Bool.false_eq_true, List.length_cons, List.map_cons] at huid hfiles ⊢
        refine ⟨by omega, ?_⟩
        rw [hfiles, genScriptWith_eq]
  | .tpl t, item', uid, uid', h => by
    cases h
    exact genTpl_spec t uid
  | .chunk c, item', uid, uid', h => by
    cases h
    refine ⟨rfl, ?_⟩
    rw [savedFiles, genScriptChunk, chunkFile_eq "" c uid (by decide)]
    rfl
  | .itf _, _, _, _, h => by cases h; exact ⟨rfl, rfl⟩
  | .itfExtension _, _, _, _, h => by cases h
  | .device, _, _, _, h => by cases h; exact ⟨rfl, rfl⟩
  | .config, _, _, _, h => by cases h; exact ⟨rfl, rfl⟩
  | .other _, _, _, _, h => by cases h

theorem genBlock_spec : ∀ (items items' : List Item) (uid uid' : Nat),
    genBlock uid items = .ok (items', uid') →
      uid' = uid + (generatedAll uid items).length ∧
        savedFilesAll items' = (generatedAll uid items).map (fun g => Files.named g.file)
  | [], items', uid, uid', h => by cases h; exact ⟨rfl, rfl⟩
  | item :: items, items', uid, uid', h => by
    rw [genBlock] at h
    split at h
    · cases h
    · rename_i item₁ uid₁ hitem
      split at h
      · cases h
      · rename_i items₁ uid₂ hitems
        cases h
        obtain ⟨rfl, hfiles⟩ := gen_spec item item₁ uid uid₁ hitem
        obtain ⟨huid, hrest⟩ := genBlock_spec items items₁ _ uid' hitems
        rw [generatedAll, savedFilesAll, hfiles, hrest, List.map_append, List.length_append]
        exact ⟨by omega, rfl⟩

end

/-- The files a driver leaves in a tree. -/
theorem genFile_spec (restart : Nat → Nat) : ∀ (source out : List Item) (uid : Nat),
    genFile restart uid source = .ok out →
      savedFilesAll out = (generatedFile restart uid source).map (fun g => Files.named g.file)
  | [], out, uid, h => by cases h; rfl
  | item :: items, out, uid, h => by
    rw [genFile] at h
    split at h
    · cases h
    · rename_i item₁ uid₁ hitem
      split at h
      · cases h
      · rename_i items₁ hitems
        cases h
        obtain ⟨rfl, hfiles⟩ := gen_spec item item₁ uid uid₁ hitem
        rw [generatedFile, savedFilesAll, hfiles, genFile_spec restart items items₁ _ hitems,
          List.map_append]

/-! ## Names can be read back -/

theorem closedBy_fullName (r : RType) : ClosedBy ')' r.rtxRTypeFullQualifiedName :=
  Or.inr r.toList_rtxRTypeFullQualifiedName

theorem wellFormed_chunkGenerated {tplHash : String} (h : ClosedBy ')' tplHash) (c : Chunk) :
    (chunkGenerated tplHash c).WellFormed := by
  refine ⟨h, fun hmem => ?_⟩
  rw [String.toList_append, String.toList_append, List.mem_append, List.mem_append] at hmem
  rcases hmem with (hscope | hsep) | hname
  · exact Word.not_mem_of_not_wordChar _ (by decide) hscope
  · exact absurd hsep (by decide)
  · exact Word.not_mem_of_not_wordChar _ (by decide) hname

theorem wellFormed_tplGenerated (t : Template) : ∀ g ∈ tplGenerated t, g.WellFormed := by
  intro g hg
  rw [tplGenerated] at hg
  rcases List.mem_append.1 hg with hchunk | hmap
  · obtain ⟨c, -, rfl⟩ := List.mem_map.1 hchunk
    exact wellFormed_chunkGenerated (closedBy_fullName t.prototype) c
  · split at hmap
    · cases List.mem_singleton.1 hmap
      exact closedBy_fullName t.prototype
    · cases hmap

mutual

theorem wellFormed_generated : ∀ (item : Item) (uid : Nat), ∀ g ∈ generated uid item, g.WellFormed
  | .withBlock _ cBlock _ body, uid, g, hg => by
    rw [generated] at hg
    split at hg
    · exact wellFormed_generatedAll body uid g hg
    · rcases List.mem_cons.1 hg with rfl | hg
      · trivial
      · exact wellFormed_generatedAll body (uid + 1) g hg
  | .tpl t, _, g, hg => wellFormed_tplGenerated t g hg
  | .chunk c, _, g, hg => by
    cases List.mem_singleton.1 hg
    exact wellFormed_chunkGenerated (closedBy_empty ')') c
  | .itf _, _, _, hg => by cases hg
  | .itfExtension _, _, _, hg => by cases hg
  | .device, _, _, hg => by cases hg
  | .config, _, _, hg => by cases hg
  | .other _, _, _, hg => by cases hg

theorem wellFormed_generatedAll : ∀ (items : List Item) (uid : Nat),
    ∀ g ∈ generatedAll uid items, g.WellFormed
  | [], _, _, hg => by cases hg
  | item :: items, uid, g, hg => by
    rw [generatedAll] at hg
    rcases List.mem_append.1 hg with hg | hg
    · exact wellFormed_generated item uid g hg
    · exact wellFormed_generatedAll items _ g hg

end

theorem wellFormed_generatedFile (restart : Nat → Nat) : ∀ (source : List Item) (uid : Nat),
    ∀ g ∈ generatedFile restart uid source, g.WellFormed
  | [], _, _, hg => by cases hg
  | item :: items, uid, g, hg => by
    rcases List.mem_append.1 hg with hg | hg
    · exact wellFormed_generated item uid g hg
    · exact wellFormed_generatedFile restart items _ g hg

/-- The part of a name after the hash. -/
def Generated.tail : Generated → String
  | globalCode rank => "With_" ++ toString rank ++ "_chunk__"
  | chunk _ scopedName => "_chunk_" ++ scopedName
  | typeMap _ => "_typemap__"

/-- The hash a name starts with. -/
def Generated.head : Generated → String
  | globalCode _ => ""
  | chunk tplHash _ => tplHash
  | typeMap tplHash => tplHash

theorem Generated.file_eq (g : Generated) : g.file = g.head ++ g.tail := by
  cases g with
  | globalCode rank => exact (String.empty_append ..).symm
  | chunk tplHash scopedName => rfl
  | typeMap tplHash => rfl

theorem Generated.WellFormed.closedBy_head {g : Generated} (h : g.WellFormed) :
    ClosedBy ')' g.head := by
  cases g with
  | globalCode rank => exact closedBy_empty ')'
  | chunk tplHash scopedName => exact h.1
  | typeMap tplHash => exact h

theorem Generated.WellFormed.not_mem_tail {g : Generated} (h : g.WellFormed) :
    ')' ∉ g.tail.toList := by
  cases g with
  | globalCode rank =>
    have hdigits : ')' ∉ Nat.toDigits 10 rank := fun hmem =>
      absurd (Nat.isDigit_of_mem_toDigits (by decide) (by decide) hmem) (by decide)
    simp [Generated.tail, hdigits]
  | chunk tplHash scopedName => simp [Generated.tail, h.2]
  | typeMap tplHash => simp [Generated.tail]

/-- **Two well-formed things with one name are the same thing.** -/
theorem Generated.file_injOn {g g' : Generated} (hg : g.WellFormed) (hg' : g'.WellFormed)
    (h : g.file = g'.file) : g = g' := by
  rw [file_eq, file_eq] at h
  obtain ⟨hhead, htail⟩ := append_inj_of_closedBy hg.closedBy_head hg'.closedBy_head
    hg.not_mem_tail hg'.not_mem_tail h
  -- the first characters of the tails tell the kinds apart
  have hlist := congrArg String.toList htail
  cases g with
  | globalCode rank =>
    cases g' with
    | globalCode rank' =>
      simp only [tail, String.append_left_inj, String.append_right_inj] at htail
      rw [Table.positionKey_injective htail]
    | chunk _ _ => simp [tail] at hlist
    | typeMap _ => simp [tail] at hlist
  | chunk tplHash scopedName =>
    cases g' with
    | globalCode _ => simp [tail] at hlist
    | chunk tplHash' scopedName' =>
      simp only [tail, String.append_right_inj] at htail
      rw [show tplHash = tplHash' from hhead, htail]
    | typeMap _ => simp [tail] at hlist
  | typeMap tplHash =>
    cases g' with
    | globalCode _ => simp [tail] at hlist
    | chunk _ _ => simp [tail] at hlist
    | typeMap tplHash' => rw [show tplHash = tplHash' from hhead]

/-! ## Distinct files -/

/-- No two things are saved to one tree or to one script. -/
structure DistinctFiles (out : List Item) : Prop where
  trees : ((savedFilesAll out).map Files.treeFile).Nodup
  scripts : ((savedFilesAll out).map Files.scriptFile).Nodup

/-- Appending one extension to names keeps them apart, and only that. -/
theorem nodup_extension_iff (names : List String) (ext : String) :
    (names.map (· ++ ext)).Nodup ↔ names.Nodup :=
  List.nodup_map_iff fun _ _ h => (String.append_left_inj ext).1 h

theorem distinctFiles_iff_nodup {out : List Item} {gs : List Generated}
    (hfiles : savedFilesAll out = gs.map (fun g => Files.named g.file))
    (hgs : ∀ g ∈ gs, g.WellFormed) : DistinctFiles out ↔ gs.Nodup := by
  have hnames : (gs.map Generated.file).Nodup ↔ gs.Nodup := by
    refine ⟨List.Nodup.of_map _, fun h => ?_⟩
    exact (List.nodup_map_iff_inj_on h).2 fun g hg g' hg' heq =>
      Generated.file_injOn (hgs g hg) (hgs g' hg') heq
  have htrees : (savedFilesAll out).map Files.treeFile = (gs.map Generated.file).map (· ++ ".tree") := by
    rw [hfiles, List.map_map, List.map_map]
    rfl
  have hscripts : (savedFilesAll out).map Files.scriptFile = (gs.map Generated.file).map (· ++ ".cws") := by
    rw [hfiles, List.map_map, List.map_map]
    rfl
  constructor
  · intro h
    have htree := h.trees
    rw [htrees, nodup_extension_iff, hnames] at htree
    exact htree
  · intro h
    refine ⟨?_, ?_⟩
    · rw [htrees, nodup_extension_iff, hnames]
      exact h
    · rw [hscripts, nodup_extension_iff, hnames]
      exact h

/-- Things are pairwise different when they are so within each kind. -/
theorem nodup_iff_kinds (gs : List Generated) :
    gs.Nodup ↔ (gs.filterMap Generated.rank?).Nodup ∧ (gs.filterMap Generated.chunk?).Nodup ∧
      (gs.filterMap Generated.typeMap?).Nodup := by
  induction gs with
  | nil => simp
  | cons g gs ih =>
    rw [List.nodup_cons, ih]
    cases g with
    | globalCode rank =>
      have hmem : rank ∈ gs.filterMap Generated.rank? ↔ .globalCode rank ∈ gs := by
        rw [List.mem_filterMap]
        refine ⟨fun ⟨g, hg, hrank⟩ => ?_, fun h => ⟨_, h, rfl⟩⟩
        cases g with
        | globalCode r => cases hrank; exact hg
        | chunk _ _ => cases hrank
        | typeMap _ => cases hrank
      simp only [List.filterMap_cons, Generated.rank?, Generated.chunk?, Generated.typeMap?,
        List.nodup_cons, hmem, and_assoc]
    | chunk tplHash scopedName =>
      have hmem : (tplHash, scopedName) ∈ gs.filterMap Generated.chunk? ↔
          .chunk tplHash scopedName ∈ gs := by
        rw [List.mem_filterMap]
        refine ⟨fun ⟨g, hg, hchunk⟩ => ?_, fun h => ⟨_, h, rfl⟩⟩
        cases g with
        | globalCode _ => cases hchunk
        | chunk _ _ => cases hchunk; exact hg
        | typeMap _ => cases hchunk
      simp only [List.filterMap_cons, Generated.rank?, Generated.chunk?, Generated.typeMap?,
        List.nodup_cons, hmem]
      tauto
    | typeMap tplHash =>
      have hmem : tplHash ∈ gs.filterMap Generated.typeMap? ↔ .typeMap tplHash ∈ gs := by
        rw [List.mem_filterMap]
        refine ⟨fun ⟨g, hg, hmap⟩ => ?_, fun h => ⟨_, h, rfl⟩⟩
        cases g with
        | globalCode _ => cases hmap
        | chunk _ _ => cases hmap
        | typeMap _ => cases hmap; exact hg
      simp only [List.filterMap_cons, Generated.rank?, Generated.chunk?, Generated.typeMap?,
        List.nodup_cons, hmem]
      tauto

/-- What `blt-register` generates from a file: each item of the file counts from 0. -/
def bltGenerated (source : List Item) : List Generated := source.flatMap (generated 0)

theorem generatedFile_restart (source : List Item) :
    generatedFile (fun _ => 0) 0 source = bltGenerated source := by
  induction source with
  | nil => rfl
  | cons item items ih => rw [generatedFile, ih, bltGenerated, bltGenerated, List.flatMap_cons]

/-- **When `blt-register` gives every generated thing files of its own.** Exactly when no two
with-blocks with global code have the same rank in their items of the file, no two chunks have the
same template hash and pointcut name, and no two type templates the same hash. -/
theorem bltRegister_distinctFiles_iff {source out : List Item} (h : bltRegister source = .ok out) :
    DistinctFiles out ↔
      ((bltGenerated source).filterMap Generated.rank?).Nodup ∧
        ((bltGenerated source).filterMap Generated.chunk?).Nodup ∧
        ((bltGenerated source).filterMap Generated.typeMap?).Nodup := by
  have hfiles := genFile_spec (fun _ => 0) source out 0 h
  have hformed := wellFormed_generatedFile (fun _ => 0) source 0
  rw [generatedFile_restart] at hfiles hformed
  rw [distinctFiles_iff_nodup hfiles hformed, nodup_iff_kinds]

/-- A with-block on `LKM` that holds one global pointcut and one sequence template `f()` with its
chunk `LKM::CALL()`. -/
def blockWithCall : Item :=
  .withBlock (rtxNodeWithOne ⟨"LKM", .refl true⟩ []) ⟨["LKM::includes()"], []⟩
    Files.absent
    [.tpl ⟨.sequence, ⟨rtxNodeIdentifier ⟨"f", .refl true⟩, []⟩, false,
      [⟨.chunk, ⟨rtxNodeIdentifier ⟨"CALL", .refl true⟩ ⟨"LKM", .refl true⟩, []⟩, Files.absent⟩], Files.absent⟩]

/-- A with-block on `Net` without global code, with a sequence template `g()` and its chunk `LKM::CALL()`. -/
def blockWithoutCode : Item :=
  .withBlock (rtxNodeWithOne ⟨"Net", .refl true⟩ []) ⟨[], []⟩ Files.absent
    [.tpl ⟨.sequence, ⟨rtxNodeIdentifier ⟨"g", .refl true⟩, []⟩, false,
      [⟨.chunk, ⟨rtxNodeIdentifier ⟨"CALL", .refl true⟩ ⟨"LKM", .refl true⟩, []⟩, Files.absent⟩], Files.absent⟩]

theorem distinctFiles_two_blocks :
    ∃ out, bltRegister [blockWithCall, blockWithoutCode] = .ok out ∧ DistinctFiles out := by
  have hout : bltRegister [blockWithCall, blockWithoutCode] = .ok _ := rfl
  refine ⟨_, hout, (bltRegister_distinctFiles_iff hout).2 ?_⟩
  decide

/-- Two such blocks in one file: the second one's files replace the first one's. -/
theorem second_block_overwrites :
    ∃ out, bltRegister [blockWithCall, blockWithCall] = .ok out ∧
      (savedFilesAll out).map Files.treeFile =
        ["With_0_chunk__.tree", "f()_chunk_LKM_CALL.tree",
          "With_0_chunk__.tree", "f()_chunk_LKM_CALL.tree"] ∧
      ¬ DistinctFiles out := by
  refine ⟨_, rfl, by decide, fun h => ?_⟩
  have htrees := h.trees
  revert htrees
  decide

/-! ## The other driver -/

/-- The ranks in a list of things increase, and they are those of things counted from `uid`. -/
def Ranked (uid : Nat) (gs : List Generated) : Prop :=
  (gs.filterMap Generated.rank?).Pairwise (· < ·) ∧
    ∀ r ∈ gs.filterMap Generated.rank?, uid ≤ r ∧ r < uid + gs.length

theorem Ranked.append {uid uid' : Nat} {gs gs' : List Generated} (h : Ranked uid gs)
    (h' : Ranked uid' gs') (hle : uid + gs.length ≤ uid') :
    (∀ r ∈ (gs ++ gs').filterMap Generated.rank?, uid ≤ r ∧ r < uid' + gs'.length) ∧
      ((gs ++ gs').filterMap Generated.rank?).Pairwise (· < ·) := by
  rw [List.filterMap_append]
  refine ⟨fun r hr => ?_, List.pairwise_append.2 ⟨h.1, h'.1, fun r hr r' hr' => ?_⟩⟩
  · rcases List.mem_append.1 hr with hr | hr
    · have hbounds := h.2 r hr
      omega
    · have hbounds := h'.2 r hr
      omega
  · have hbounds := h.2 r hr
    have hbounds' := h'.2 r' hr'
    omega

theorem ranked_of_no_rank {uid : Nat} {gs : List Generated}
    (h : gs.filterMap Generated.rank? = []) : Ranked uid gs := by
  rw [Ranked, h]
  exact ⟨List.Pairwise.nil, fun r hr => absurd hr List.not_mem_nil⟩

theorem ranks_tplGenerated (t : Template) :
    (tplGenerated t).filterMap Generated.rank? = [] := by
  rw [tplGenerated, List.filterMap_append, List.append_eq_nil_iff]
  refine ⟨?_, ?_⟩
  · rw [List.filterMap_map, List.filterMap_eq_nil_iff]
    exact fun c _ => rfl
  · split <;> rfl

mutual

theorem ranked_generated : ∀ (item : Item) (uid : Nat), Ranked uid (generated uid item)
  | .withBlock _ cBlock _ body, uid => by
    rw [generated]
    split
    · exact ranked_generatedAll body uid
    · have hhead : Ranked uid [.globalCode uid] :=
        ⟨List.pairwise_singleton _ _, fun r hr => by
          cases List.mem_singleton.1 hr
          exact ⟨Nat.le_refl uid, Nat.lt_succ_self uid⟩⟩
      have happend := hhead.append (ranked_generatedAll body (uid + 1)) (Nat.le_refl _)
      refine ⟨happend.2, fun r hr => ?_⟩
      have hbounds := happend.1 r hr
      rw [List.length_cons]
      omega
  | .tpl t, uid => ranked_of_no_rank (ranks_tplGenerated t)
  | .chunk _, _ => ranked_of_no_rank rfl
  | .itf _, _ => ranked_of_no_rank rfl
  | .itfExtension _, _ => ranked_of_no_rank rfl
  | .device, _ => ranked_of_no_rank rfl
  | .config, _ => ranked_of_no_rank rfl
  | .other _, _ => ranked_of_no_rank rfl

theorem ranked_generatedAll : ∀ (items : List Item) (uid : Nat),
    Ranked uid (generatedAll uid items)
  | [], _ => ranked_of_no_rank rfl
  | item :: items, uid => by
    rw [generatedAll]
    have happend := (ranked_generated item uid).append
      (ranked_generatedAll items (uid + (generated uid item).length)) (Nat.le_refl _)
    refine ⟨happend.2, fun r hr => ?_⟩
    have hbounds := happend.1 r hr
    rw [List.length_append]
    omega

end

/-- Under `rtxGenerate` the counter never starts again: the ranks of a file increase. -/
theorem ranks_rtxGenerate : ∀ (source : List Item) (uid : Nat),
    ((generatedFile (· + 1) uid source).filterMap Generated.rank?).Pairwise (· < ·) ∧
      ∀ r ∈ (generatedFile (· + 1) uid source).filterMap Generated.rank?, uid ≤ r
  | [], _ => ⟨List.Pairwise.nil, fun r hr => absurd hr List.not_mem_nil⟩
  | item :: items, uid => by
    have hitem := ranked_generated item uid
    obtain ⟨hsorted, hlower⟩ := ranks_rtxGenerate items (uid + (generated uid item).length + 1)
    rw [generatedFile, List.filterMap_append]
    refine ⟨List.pairwise_append.2 ⟨hitem.1, hsorted, fun r hr r' hr' => ?_⟩, fun r hr => ?_⟩
    · have hbounds := hitem.2 r hr
      have hbound' := hlower r' hr'
      omega
    · rcases List.mem_append.1 hr with hr | hr
      · exact (hitem.2 r hr).1
      · have hbound := hlower r hr
        omega

/-- **Under `rtxGenerate` two pieces of global code never share a file**: files are distinct exactly
when those of chunks and of type mappings are. -/
theorem rtxGenerate_distinctFiles_iff {source out : List Item} (h : rtxGenerate source = .ok out) :
    DistinctFiles out ↔
      ((generatedFile (· + 1) 0 source).filterMap Generated.chunk?).Nodup ∧
        ((generatedFile (· + 1) 0 source).filterMap Generated.typeMap?).Nodup := by
  rw [distinctFiles_iff_nodup (genFile_spec _ source out 0 h) (wellFormed_generatedFile _ source 0),
    nodup_iff_kinds]
  have hranks : ((generatedFile (· + 1) 0 source).filterMap Generated.rank?).Nodup :=
    (ranks_rtxGenerate source 0).1.imp Nat.ne_of_lt
  exact and_iff_right hranks

end Rathaxes.Back
