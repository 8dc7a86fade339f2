import Rathaxes.CodeWorker.Text
import Rathaxes.Laws.Query
import Rathaxes.Link.Load

/-!
# Which script instantiates a tree

An instance key is the hash of the template followed by the scope and the name of the pointcut, or
the hash alone for a chunk of a pointcut `CALL`, or the first interface of a with-block. It can be read
back (`instanceKey_eq_iff`), so two trees share a key exactly when they agree in these. As long as no
two loadable entries share one, every load leaves the scripts of the entries loaded before in place,
and in any generation each tree meets its own script.
-/

set_option autoImplicit false

namespace Rathaxes.Link

open CodeWorker Rathaxes.Back

/-! ## Instance keys -/

/-- What an instance key is made of. The parameters of the pointcut and the constraints of the
enclosing with-block take no part. -/
inductive KeyParts where
  | call (tplHash : String)
  | pointcut (tplHash : String) (scope name : Word)
  | globalCode (interface : Word)
deriving DecidableEq

/-- The parts of a saved tree's key. -/
def SavedTree.keyParts : SavedTree → KeyParts
  | .chunk tpl theChunk =>
    if theChunk.pointcut.name.name.text = "CALL" then .call (tplHash tpl)
    else .pointcut (tplHash tpl) theChunk.pointcut.name.scope theChunk.pointcut.name.name
  | .withBlock node => .globalCode node.firstInterface

namespace KeyParts

/-- The hash a key starts with. -/
def head : KeyParts → String
  | call tplHash => tplHash
  | pointcut tplHash _ _ => tplHash
  | globalCode _ => ""

/-- The rest of the key. -/
def tail : KeyParts → String
  | call _ => ""
  | pointcut _ scope name => "_" ++ scope.text ++ "::" ++ name.text
  | globalCode interface => "With_" ++ interface.text

theorem not_mem_tail (k : KeyParts) : ')' ∉ k.tail.toList := by
  have hword : ∀ w : Word, ')' ∉ w.text.toList := fun w => w.not_mem_of_not_wordChar (by decide)
  cases k with
  | call tplHash => simp [tail]
  | pointcut tplHash scope name => simp [tail, hword]
  | globalCode interface => simp [tail, hword]

/-- Scope and name stand on the two sides of the last colon. -/
theorem scoped_inj {scope scope' name name' : Word}
    (h : "_" ++ scope.text ++ "::" ++ name.text = "_" ++ scope'.text ++ "::" ++ name'.text) :
    scope = scope' ∧ name = name' := by
  have hclosed : ∀ w : Word, ClosedBy ':' ("_" ++ w.text ++ "::") := fun w =>
    Or.inr ⟨"_".toList ++ w.text.toList ++ [':'], by simp⟩
  have hword : ∀ w : Word, ':' ∉ w.text.toList := fun w => w.not_mem_of_not_wordChar (by decide)
  obtain ⟨hscope, hname⟩ := append_inj_of_closedBy (hclosed scope) (hclosed scope') (hword name)
    (hword name') h
  rw [String.append_left_inj, String.append_right_inj] at hscope
  exact ⟨Word.text_injective hscope, Word.text_injective hname⟩

/-- A key can be taken apart again. -/
theorem head_append_tail_inj {k k' : KeyParts} (hk : ClosedBy ')' k.head) (hk' : ClosedBy ')' k'.head)
    (h : k.head ++ k.tail = k'.head ++ k'.tail) : k = k' := by
  obtain ⟨hhead, htail⟩ := append_inj_of_closedBy hk hk' k.not_mem_tail k'.not_mem_tail h
  have hlist := congrArg String.toList htail
  cases k with
  | call tplHash =>
    cases k' with
    | call tplHash' => rw [show tplHash = tplHash' from hhead]
    | pointcut _ _ _ => simp [tail] at hlist
    | globalCode _ => simp [tail] at hlist
  | pointcut tplHash scope name =>
    cases k' with
    | call _ => simp [tail] at hlist
    | pointcut tplHash' scope' name' =>
      obtain ⟨rfl, rfl⟩ := scoped_inj htail
      rw [show tplHash = tplHash' from hhead]
    | globalCode _ => simp [tail] at hlist
  | globalCode interface =>
    cases k' with
    | call _ => simp [tail] at hlist
    | pointcut _ _ _ => simp [tail] at hlist
    | globalCode interface' =>
      rw [tail, tail, String.append_right_inj] at htail
      rw [Word.text_injective htail]

end KeyParts

theorem closedBy_tplHash (tpl : Option RType) : ClosedBy ')' (tplHash tpl) := by
  cases tpl with
  | none => exact closedBy_empty ')'
  | some prototype => exact Or.inr prototype.toList_rtxRTypeFullQualifiedName

theorem SavedTree.closedBy_head (t : SavedTree) : ClosedBy ')' t.keyParts.head := by
  cases t with
  | chunk tpl theChunk =>
    rw [keyParts]
    split <;> exact closedBy_tplHash tpl
  | withBlock node => exact closedBy_empty ')'

theorem SavedTree.instanceKey_eq (t : SavedTree) :
    t.instanceKey = t.keyParts.head ++ t.keyParts.tail := by
  cases t with
  | chunk tpl theChunk =>
    rw [instanceKey, chunkInstanceKey, keyParts]
    split
    · exact (String.append_empty ..).symm
    · simp only [KeyParts.head, KeyParts.tail, String.append_assoc]
  | withBlock node => exact (String.empty_append ..).symm

/-- **Two trees have one key exactly when they have the same key parts.** -/
theorem instanceKey_eq_iff (t t' : SavedTree) :
    t.instanceKey = t'.instanceKey ↔ t.keyParts = t'.keyParts := by
  rw [t.instanceKey_eq, t'.instanceKey_eq]
  refine ⟨KeyParts.head_append_tail_inj t.closedBy_head t'.closedBy_head, fun h => ?_⟩
  rw [h]

/-! ## Runs -/

/-- The files of an entry hold a tree and the script generated for it. -/
def Saved (p : SearchPath) (e : CacheEntry) : Prop :=
  ∃ t, p.tree e.treeFile = some t ∧ p.script e.scriptFile = some (rtxGenFunction t)

/-- Every entry loaded so far meets its own script. -/
def Consistent (p : SearchPath) (entries : List CacheEntry) (σ : Loaded) : Prop :=
  ∀ i : Fin entries.length, i.val ∈ σ.flags →
    ∀ t, p.tree (entries.get i).treeFile = some t → instanceChunk σ t = some (rtxGenFunction t)

/-- No two entries of a list have trees with one instance key. -/
def DistinctKeys (p : SearchPath) (entries : List CacheEntry) : Prop :=
  ∀ i j : Fin entries.length, i ≠ j → ∀ t t', p.tree (entries.get i).treeFile = some t →
    p.tree (entries.get j).treeFile = some t' → t.instanceKey ≠ t'.instanceKey

/-- **What loading an entry can do**: nothing, when it was loaded before; otherwise flag it and
define its own script under its own key. -/
theorem loadItem_cases {p : SearchPath} {σ σ' : Loaded} {position : Nat} {e : CacheEntry}
    {tree : SavedTree} (hsaved : Saved p e) (h : loadItem p σ position e = .ok (σ', tree)) :
    (position ∈ σ.flags ∧ σ' = σ) ∨
      (position ∉ σ.flags ∧ p.tree e.treeFile = some tree ∧
        σ' = ⟨position :: σ.flags, σ.instances.set tree.instanceKey (rtxGenFunction tree)⟩) := by
  obtain ⟨t, htree, hscript⟩ := hsaved
  simp only [loadItem, htree, hscript] at h
  split at h
  · rename_i hflag
    cases h
    exact Or.inl ⟨hflag, rfl⟩
  · rename_i hflag
    cases h
    exact Or.inr ⟨hflag, htree, rfl⟩

/-- One load keeps the entries loaded before consistent, when no two entries share a key. -/
theorem consistent_loadItem {p : SearchPath} {entries : List CacheEntry} {σ σ' : Loaded}
    {i : Fin entries.length} {tree : SavedTree} (hsaved : Saved p (entries.get i))
    (hkeys : DistinctKeys p entries) (hσ : Consistent p entries σ)
    (h : loadItem p σ i.val (entries.get i) = .ok (σ', tree)) :
    Consistent p entries σ' ∧ i.val ∈ σ'.flags ∧ ∀ n ∈ σ.flags, n ∈ σ'.flags := by
  rcases loadItem_cases hsaved h with ⟨hflag, rfl⟩ | ⟨-, htree, rfl⟩
  · exact ⟨hσ, hflag, fun n hn => hn⟩
  · refine ⟨fun j hj t ht => ?_, List.mem_cons_self .., fun n hn => List.mem_cons_of_mem _ hn⟩
    rw [instanceChunk, Table.get?_set]
    by_cases hji : j = i
    · subst hji
      cases htree.symm.trans ht
      exact if_pos rfl
    · have hflag : j.val ∈ σ.flags := by
        rcases List.mem_cons.1 hj with heq | hmem
        · exact absurd (Fin.ext heq) hji
        · exact hmem
      rw [if_neg (hkeys j i hji t tree ht htree)]
      exact hσ j hflag t ht

/-- A whole generation keeps every entry it has loaded consistent. -/
theorem consistent_loadAll {p : SearchPath} {entries : List CacheEntry}
    (hsaved : ∀ e ∈ entries, Saved p e) (hkeys : DistinctKeys p entries)
    (loads : List (Fin entries.length)) (σ σ' : Loaded) (hσ : Consistent p entries σ)
    (h : loadAll p entries σ loads = .ok σ') :
    Consistent p entries σ' ∧ (∀ i ∈ loads, i.val ∈ σ'.flags) ∧ ∀ n ∈ σ.flags, n ∈ σ'.flags := by
  induction loads generalizing σ with
  | nil =>
    cases h
    exact ⟨hσ, fun i hi => absurd hi List.not_mem_nil, fun n hn => hn⟩
  | cons i loads ih =>
    rw [loadAll] at h
    split at h
    · cases h
    · rename_i σ₁ tree hload
      obtain ⟨hσ₁, hi, hkept⟩ := consistent_loadItem (hsaved _ (List.get_mem entries i)) hkeys hσ hload
      obtain ⟨hσ', hloads, hkept'⟩ := ih σ₁ hσ₁ h
      refine ⟨hσ', fun j hj => ?_, fun n hn => hkept' n (hkept n hn)⟩
      rcases List.mem_cons.1 hj with rfl | hj
      · exact hkept' _ hi
      · exact hloads j hj

theorem consistent_none (p : SearchPath) (entries : List CacheEntry) :
    Consistent p entries Loaded.none := fun _ hi => absurd hi List.not_mem_nil

/-! ## The loadable entries of a configuration -/

/-- The entries of a session a configuration is compatible with. -/
def Session.loadable (s : Session) (config : Config) : List CacheEntry :=
  s.entries.filter fun e => Compatible e.withConfig config

/-- The contract of the instance keys: distinct entries have distinct keys, and after any loads, in
any order and with any repetitions, the tree of a loaded entry meets the script generated for it. -/
structure OwnScripts (p : SearchPath) (entries : List CacheEntry) : Prop where
  distinct : DistinctKeys p entries
  runs : ∀ loads σ, loadAll p entries Loaded.none loads = .ok σ → ∀ i ∈ loads,
    ∀ t, p.tree (entries.get i).treeFile = some t → instanceChunk σ t = some (rtxGenFunction t)

/-- **When every tree meets its own script.** Exactly when no two entries the configuration is
compatible with have trees with the same key parts. -/
theorem ownScripts_iff {p : SearchPath} {s : Session} {config : Config}
    (hsaved : ∀ e ∈ s.loadable config, Saved p e) :
    OwnScripts p (s.loadable config) ↔
      ∀ i j : Fin (s.loadable config).length, i ≠ j → ∀ t t',
        p.tree ((s.loadable config).get i).treeFile = some t →
        p.tree ((s.loadable config).get j).treeFile = some t' → t.keyParts ≠ t'.keyParts := by
  have hkeys : DistinctKeys p (s.loadable config) ↔
      ∀ i j : Fin (s.loadable config).length, i ≠ j → ∀ t t',
        p.tree ((s.loadable config).get i).treeFile = some t →
        p.tree ((s.loadable config).get j).treeFile = some t' → t.keyParts ≠ t'.keyParts := by
    simp only [DistinctKeys, ne_eq, instanceKey_eq_iff]
  rw [← hkeys]
  constructor
  · intro h
    exact h.distinct
  · intro h
    refine ⟨h, fun loads σ hrun i hi t ht => ?_⟩
    obtain ⟨hσ, hflags, -⟩ := consistent_loadAll hsaved h loads _ σ (consistent_none p _) hrun
    exact hσ i (hflags i hi) t ht

/-- A stand-alone chunk of the pointcut `LKM::name()`, generated under a file name. -/
def standAlone (name : Word) (file : String) : Chunk :=
  ⟨.chunk, ⟨rtxNodeIdentifier name ⟨"LKM", .refl true⟩, []⟩, Files.named file⟩

/-- A session with two stand-alone chunks. -/
def twoChunks (name name' : Word) : Session :=
  ((Session.fresh false).updateBoth fun cache => cache.registerChunk (standAlone name "a") "").updateBoth
    fun cache => cache.registerChunk (standAlone name' "b") ""

/-- The directory that holds their files. -/
def twoChunksPath (name name' : Word) : SearchPath :=
  let treeOf : String → Option SavedTree := fun file =>
    if file = "a.tree" ∨ file = "a.cws" then some (.chunk none (standAlone name "a"))
    else if file = "b.tree" ∨ file = "b.cws" then some (.chunk none (standAlone name' "b"))
    else none
  let nothing : Library := ⟨fun _ => none, fun _ => none⟩
  ⟨⟨treeOf, fun file => (treeOf file).map rtxGenFunction⟩, nothing, nothing, "local/", "back/"⟩

/-- The pointcut name `init`. -/
def initWord : Word := ⟨"init", .refl true⟩

/-- The pointcut name `exit`. -/
def exitWord : Word := ⟨"exit", .refl true⟩

theorem ownScripts_two_pointcuts :
    OwnScripts (twoChunksPath initWord exitWord)
      ((twoChunks initWord exitWord).loadable Table.empty) := by
  have hsaved : (twoChunks initWord exitWord).loadable Table.empty =
      [.chunk (cachedChunk (standAlone initWord "a") ""),
        .chunk (cachedChunk (standAlone exitWord "b") "")] := by decide
  have hparts : ∀ i j : Fin ((twoChunks initWord exitWord).loadable Table.empty).length, i ≠ j →
      ((twoChunksPath initWord exitWord).tree
          (((twoChunks initWord exitWord).loadable Table.empty).get i).treeFile).map
            SavedTree.keyParts ≠
        ((twoChunksPath initWord exitWord).tree
          (((twoChunks initWord exitWord).loadable Table.empty).get j).treeFile).map
            SavedTree.keyParts := by decide
  refine (ownScripts_iff fun e he => ?_).2 fun i j hij t t' ht ht' heq => ?_
  · rw [hsaved] at he
    rcases List.mem_cons.1 he with rfl | he
    · exact ⟨_, rfl, rfl⟩
    · cases List.mem_singleton.1 he
      exact ⟨_, rfl, rfl⟩
  · apply hparts i j hij
    rw [ht, ht', Option.map_some, Option.map_some, heq]

/-- Two chunks of one pointcut: once both are loaded, the tree of the first is instantiated by the
script of the second. -/
theorem first_chunk_runs_second_script :
    (∃ σ, loadAll (twoChunksPath initWord initWord)
          ((twoChunks initWord initWord).loadable Table.empty) Loaded.none
          [⟨0, by decide⟩, ⟨1, by decide⟩] = .ok σ ∧
        instanceChunk σ (.chunk none (standAlone initWord "a")) =
          some (rtxGenFunction (.chunk none (standAlone initWord "b")))) ∧
      ¬ OwnScripts (twoChunksPath initWord initWord)
        ((twoChunks initWord initWord).loadable Table.empty) := by
  refine ⟨⟨_, rfl, by decide⟩, fun h => ?_⟩
  exact h.distinct ⟨0, by decide⟩ ⟨1, by decide⟩ (by decide) _ _ rfl rfl (by decide)

end Rathaxes.Link
