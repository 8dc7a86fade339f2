import Rathaxes.Laws.SoundLookup
import Rathaxes.Mid.TypeCheck

/-!
# What the type check of the middle end qualifies

The check of an interface files nothing that has not been checked: that the interface is sound is the
invariant of the pass, and so the tables it leaves are those the lookups of later files may rely on
(`sound_of_middleTypeCheck`).

An accepted interface of the file is qualified but for one case. A chunk of a global pointcut is accepted
for its name, and its parameters stay as they are written. The interfaces in a with-block are not looked at,
and stay as they are altogether (`qualified_iff`).
-/

set_option autoImplicit false

namespace Rathaxes.Mid

open CodeWorker Interfaces

/-! ## What is filed -/

/-- Entry of a declaration keeps what holds of all declarations. -/
theorem addTypeToList_keeps {P : String → String → ItfDecl → Prop} {table table' : Table (Table ItfDecl)}
    {decl : ItfDecl} (hall : ∀ byName ∈ table.entries, ∀ e ∈ byName.2.entries, P byName.1 e.1 e.2)
    (hdecl : P decl.rtype.name.name.text decl.rtype.rtxRTypeFullQualifiedName decl)
    (h : addTypeToList table decl = some table') :
    ∀ byName ∈ table'.entries, ∀ e ∈ byName.2.entries, P byName.1 e.1 e.2 := by
  unfold addTypeToList at h
  simp only at h
  split at h
  · cases h
  cases h
  rintro ⟨name, decls⟩ hname ⟨key, d⟩ hkey
  rw [Table.mem_entries_iff] at hname hkey
  have hold : ∀ decls, table.get? name = some decls → decls.get? key = some d → P name key d :=
    fun decls hname hkey => hall (name, decls) ((table.mem_entries_iff _ _).2 hname) (key, d)
      ((decls.mem_entries_iff _ _).2 hkey)
  rw [Table.get?_set] at hname
  split at hname
  · rename_i hsame
    subst hsame
    cases hname
    rw [Table.get?_set] at hkey
    split at hkey
    · rename_i hsame
      subst hsame
      cases hkey
      exact hdecl
    · cases hdecls : table.get? decl.rtype.name.name.text with
      | none => simp [hdecls] at hkey
      | some decls =>
        rw [hdecls] at hkey
        exact hold decls hdecls hkey
  · exact hold decls hname hkey

section Filed

variable {itf : Itf} {decl : ItfDecl} {table : Table (Table ItfDecl)}

/-- A declaration with the scope of its interface and qualified parameters. -/
theorem declChecked (hscope : decl.rtype.name.global = false → decl.rtype.name.scope = itf.name)
    (hparams : ∀ p ∈ decl.rtype.params, isPlain p = false) :
    DeclChecked itf.name decl.rtype.name.name.text decl.rtype.rtxRTypeFullQualifiedName decl :=
  ⟨rfl, rfl, hscope, hparams⟩

theorem Itf.Sound.addPointcut (h : itf.Sound) (hadd : addTypeToList itf.pointcuts decl = some table)
    (hglobal : decl.rtype.name.global = false) (hscope : decl.rtype.name.scope = itf.name)
    (hparams : ∀ p ∈ decl.rtype.params, isPlain p = false) :
    ({ itf with pointcuts := table } : Itf).Sound where
  named := h.named
  checked.sequences := h.checked.sequences
  checked.pointcuts :=
    addTypeToList_keeps h.checked.pointcuts (declChecked (fun _ => hscope) hparams) hadd
  checked.notGlobal :=
    addTypeToList_keeps (P := fun _ _ d => d.rtype.name.global = false) h.checked.notGlobal hglobal hadd

theorem Itf.Sound.addSequence (h : itf.Sound) (hadd : addTypeToList itf.sequences decl = some table)
    (hscope : decl.rtype.name.global = false → decl.rtype.name.scope = itf.name)
    (hparams : ∀ p ∈ decl.rtype.params, isPlain p = false) :
    ({ itf with sequences := table } : Itf).Sound where
  named := h.named
  checked.sequences := addTypeToList_keeps h.checked.sequences (declChecked hscope hparams) hadd
  checked.pointcuts := h.checked.pointcuts
  checked.notGlobal := h.checked.notGlobal

/-- An interface in which nothing has been filed. -/
theorem ItfSource.sound_node {source : ItfSource} (h : source.name ≠ Word.blank) : source.node.Sound where
  named := h
  checked.sequences := by simp [TableChecked, ItfSource.node, Table.empty]
  checked.pointcuts := by simp [TableChecked, ItfSource.node, Table.empty]
  checked.notGlobal := by simp [ItfSource.node, Table.empty]

end Filed

/-! ## What is read and what has to be qualified -/

/-- As the grammar reads a name: a global one has no scope. -/
def NameRead (rtype : RType) : Prop := rtype.name.global = true → rtype.name.scope = Word.blank

/-- The parameters have a scope or are global. -/
def ParamsQualified (rtype : RType) : Prop := ∀ p ∈ rtype.params, isPlain p = false

/-- A global pointcut is qualified as it is written. -/
def GlobalQualified (pointcut : RType) : Prop :=
  pointcut.name.global = true → isQualified pointcut = true

namespace TypeItem

/-- The names of the pointcuts declared are read. -/
def Read : TypeItem → Prop
  | .pointcut rtype => NameRead rtype
  | _ => True

/-- The identifiers of the declaration have a scope or are global. -/
def Qualified : TypeItem → Prop
  | .pointcut rtype => ParamsQualified rtype
  | .chunk rtype => isQualified rtype = true
  | .method rtype => ParamsQualified rtype
  | .typedecl rtype => isQualified rtype = true
  | .attribute _ rtype => isPlain rtype.name = false

/-- What the check leaves as it is written is qualified. -/
def Written : TypeItem → Prop
  | .chunk rtype => GlobalQualified rtype
  | _ => True

end TypeItem

namespace SequenceItem

def Read : SequenceItem → Prop
  | .chunk _ => True
  | .pointcut _ rtype => NameRead rtype

def Qualified : SequenceItem → Prop
  | .chunk rtype => isQualified rtype = true
  | .pointcut _ rtype => ParamsQualified rtype

def Written : SequenceItem → Prop
  | .chunk rtype => GlobalQualified rtype
  | .pointcut _ _ => True

end SequenceItem

namespace ItfItem

def Read : ItfItem → Prop
  | .sequence _ _ body => ∀ item ∈ body, item.Read
  | .type _ body => ∀ item ∈ body, item.Read
  | .builtintype _ body => ∀ item ∈ body.getD [], item.Read
  | .pointcut _ rtype => NameRead rtype
  | .var _ _ => True
  | .chunk _ => True

def Qualified : ItfItem → Prop
  | .sequence _ rtype body => ParamsQualified rtype ∧ ∀ item ∈ body, item.Qualified
  | .type _ body => ∀ item ∈ body, item.Qualified
  | .builtintype _ body => ∀ item ∈ body.getD [], item.Qualified
  | .pointcut _ rtype => ParamsQualified rtype
  | .var _ _ => True
  | .chunk rtype => isQualified rtype = true

def Written : ItfItem → Prop
  | .sequence _ _ body => ∀ item ∈ body, item.Written
  | .type _ body => ∀ item ∈ body, item.Written
  | .builtintype _ body => ∀ item ∈ body.getD [], item.Written
  | .chunk rtype => GlobalQualified rtype
  | .pointcut _ _ => True
  | .var _ _ => True

end ItfItem

namespace ItfSource

/-- An interface has a name, and so have its pointcuts. -/
structure Read (source : ItfSource) : Prop where
  named : source.name ≠ Word.blank
  body : ∀ item ∈ source.body, item.Read

/-- **An interface is fully qualified.** -/
def Qualified (source : ItfSource) : Prop := ∀ item ∈ source.body, item.Qualified

/-- Its chunks of global pointcuts are qualified as they are written. -/
def Written (source : ItfSource) : Prop := ∀ item ∈ source.body, item.Written

end ItfSource

mutual

/-- The interfaces in an item. -/
def SourceItem.sources : SourceItem → List ItfSource
  | .itf source => [source]
  | .withBlock body => sourcesOf body
  | .other => []

/-- The interfaces in a block, at any depth. -/
def sourcesOf : List SourceItem → List ItfSource
  | [] => []
  | item :: items => item.sources ++ sourcesOf items

end

/-- What the pass leaves as it is written is qualified: in a with-block all is left. -/
def SourceItem.Written : SourceItem → Prop
  | .itf source => source.Written
  | .withBlock body => ∀ source ∈ sourcesOf body, source.Qualified
  | .other => True

/-! ## Declarations -/

/-- The state of the check of a sound interface of this name. -/
structure Kept (name : Word) (s : CheckState) : Prop where
  named : s.itf.name = name
  sound : s.itf.Sound

/-- An rtype with the scope of the interface, unless it is global. -/
structure Enforced (name : Word) (rtype placed : RType) : Prop where
  params : placed.params = rtype.params
  scope : placed.name.global = false → placed.name.scope = name
  global : placed.name.global = true → placed = rtype

theorem ensures_enforceScope {name : Word} (rtype : RType) :
    Ensures (Kept name) (enforceScope rtype) fun placed => Enforced name rtype placed := by
  refine ensures_get.bind fun s hs => ensures_pure ?_
  split
  · rename_i hglobal
    refine ⟨rfl, fun _ => hs.named, fun h => ?_⟩
    rw [withScope, hglobal] at h
    cases h
  · rename_i hglobal
    exact ⟨rfl, fun h => absurd h hglobal, fun _ => rfl⟩

section State

variable {name : Word}

/-- What is filed in a type leaves the interface as it is. -/
theorem ensures_addDecl (ok : Bool) (decl : TypeItem) :
    Ensures (Kept name) (addDecl ok decl) fun r => r.2 = decl ∧ (r.1 = true → ok = true) := by
  refine ensures_ite (fun _ => ensures_pure ⟨rfl, fun h => (nomatch h)⟩) fun hok => ?_
  have htrue : ok = true := by simpa using hok
  refine ensures_get.bind fun s hs => ?_
  split
  · exact ensures_pure ⟨rfl, fun h => (nomatch h)⟩
  · refine (ensures_set ?_).bind fun _ _ => ensures_pure ⟨rfl, fun _ => htrue⟩
    exact ⟨hs.named, hs.sound⟩

/-- The entry of a declaration at the end of its check. -/
theorem ensures_thenAdd {f : Check (Bool × RType)} {item : RType → TypeItem} {W : Prop}
    (hf : Ensures (Kept name) f fun r => r.1 = true → ((item r.2).Qualified ↔ W)) :
    Ensures (Kept name) (f >>= fun r => addDecl r.1 (item r.2)) fun r =>
      r.1 = true → (r.2.Qualified ↔ W) := by
  refine hf.bind fun checked hchecked => (ensures_addDecl _ _).mono fun r hr htrue => ?_
  rw [hr.1]
  exact hchecked (hr.2 htrue)

theorem ensures_addType (rtype : RType) : Ensures (Kept name) (addType rtype) fun _ => True := by
  refine ensures_get.bind fun s hs => ?_
  split
  · exact ensures_pure trivial
  · refine (ensures_set ?_).bind fun _ _ => ensures_pure trivial
    exact ⟨hs.named, hs.sound.named, hs.sound.checked.sequences, hs.sound.checked.pointcuts,
      hs.sound.checked.notGlobal⟩

end State

section Declarations

variable {world : Itf → Nat → Interfaces} {fuel : Nat} {name : Word}

variable (hworld : ∀ itf n, itf.Sound → (world itf n).Sound)

include hworld

theorem ensures_lookup {find : Interfaces → ItfNode → Option (Bool × RType)} {Q : Bool × RType → Prop}
    (h : ∀ w node r, w.Sound → node.itf.Sound → find w node = some r → Q r) :
    Ensures (Kept name) (lookup world find) Q := by
  intro s hs r hr
  obtain ⟨answer, hanswer, rfl⟩ := Option.map_eq_some_iff.1 hr
  exact ⟨⟨hs.named, hs.sound⟩, h _ _ _ (hworld _ _ hs.sound) hs.sound hanswer⟩

theorem ensures_checkHasType (rtype : RType) :
    Ensures (Kept name) (checkHasType world fuel rtype) fun r => r.1 = true → isPlain r.2.name = false :=
  ensures_lookup hworld fun _ _ _ hw hnode h => interfaceHasType_qualifies hw hnode h

theorem ensures_checkChunk (pointcut : RType) :
    Ensures (Kept name) (checkChunk world fuel pointcut) fun r =>
      r.1 = true → (isQualified r.2 = true ↔ GlobalQualified pointcut) :=
  ensures_lookup hworld fun _ _ _ hw hnode h => itfCheckPointcut_qualifies hw hnode h

theorem ensures_checkParam (param : Ident) :
    Ensures (Kept name) (checkParam world fuel param) fun r => r.1 = true → isPlain r.2 = false := by
  refine (ensures_checkHasType hworld _).bind fun r _ => ensures_pure fun hfound => ?_
  change r.1 = true at hfound
  change isPlain (if r.1 = true then qualifyParam param r.2 else param) = false
  rw [if_pos hfound, isPlain_eq_false_iff]
  intro hglobal hblank
  change r.2.name.scope = Word.blank at hblank
  simp [qualifyParam, hblank] at hglobal

theorem ensures_checkParams (rtype : RType) :
    Ensures (Kept name) (checkParams world fuel rtype) fun r =>
      r.2.name = rtype.name ∧ (r.1 = true → ParamsQualified r.2) := by
  have hparam : ∀ param ∈ rtype.params, Ensures (Kept name) (checkParam world fuel param) fun r =>
      r.1 = true → (isPlain r.2 = false ↔ True) :=
    fun param _ => (ensures_checkParam hworld param).mono fun r hr htrue => iff_true_intro (hr htrue)
  refine (ensures_checkEach (R := fun _ p => isPlain p = false ↔ True) hparam).bind fun r hr =>
    ensures_pure ⟨rfl, fun htrue => ?_⟩
  exact (forall_iff_of_forall₂ (hr htrue)).2 fun _ _ => trivial

/-- **A declared pointcut** is filed with qualified parameters. -/
theorem ensures_checkPointcutDecl (qualifier : Option Qualifier) {rtype : RType} (hread : NameRead rtype) :
    Ensures (Kept name) (checkPointcutDecl world fuel qualifier rtype) fun r =>
      r.1 = true → ParamsQualified r.2 := by
  refine (ensures_enforceScope rtype).bind fun placed hplaced => ?_
  refine (ensures_checkParams hworld placed).bind fun checked hchecked => ?_
  obtain ⟨ok, checked⟩ := checked
  obtain ⟨hname, hparams⟩ := hchecked
  simp only at hname hparams
  refine ensures_ite (fun _ => ensures_pure fun h => (nomatch h)) fun hok => ?_
  have hqualified := hparams (by simpa using hok)
  refine ensures_ite (fun _ => ensures_pure fun _ => hqualified) fun hlocal => ?_
  -- a global name has been read without a scope, so what is filed is not global
  have hglobal : checked.name.global = false := by
    by_contra hglobal
    have htrue : checked.name.global = true := by simpa using hglobal
    rw [hname] at htrue
    have hsame := hplaced.global htrue
    refine hlocal ⟨by rw [hname, htrue], ?_⟩
    rw [hname, hsame]
    exact hread (hsame ▸ htrue)
  have hscope : checked.name.scope = name := by
    rw [hname] at hglobal ⊢
    exact hplaced.scope hglobal
  refine ensures_get.bind fun s hs => ?_
  split
  · exact ensures_pure fun h => (nomatch h)
  · rename_i pointcuts hadd
    have hsound := hs.sound.addPointcut hadd hglobal (hscope.trans hs.named.symm) hqualified
    refine (ensures_set ?_).bind fun _ _ => ensures_pure fun _ => hqualified
    exact ⟨hs.named, hsound⟩

theorem ensures_checkTypeItem : ∀ {item : TypeItem}, item.Read →
    Ensures (Kept name) (checkTypeItem world fuel item) fun r =>
      r.1 = true → (r.2.Qualified ↔ item.Written)
  | .pointcut rtype, hread =>
    ensures_thenAdd <| (ensures_checkPointcutDecl hworld none hread).mono
      fun _ h htrue => iff_true_intro (h htrue)
  | .chunk pointcut, _ => ensures_thenAdd (ensures_checkChunk hworld pointcut)
  | .method pointcut, _ =>
    ensures_thenAdd <| (ensures_checkParams hworld _).mono fun _ h htrue => iff_true_intro (h.2 htrue)
  | .typedecl pointcut, _ => by
    refine ensures_ite (fun _ => ensures_pure fun h => (nomatch h)) fun hnone => ?_
    refine ensures_thenAdd <| (ensures_checkChunk hworld pointcut).mono
      fun r h htrue => iff_true_intro ((h htrue).2 ?_)
    -- without parameters a global pointcut is qualified
    intro hglobal
    have hparams : pointcut.params = [] := not_not.1 hnone
    simp [isQualified, hparams, isPlain, hglobal]
  | .attribute attr rtype, _ =>
    ensures_thenAdd <| (ensures_checkHasType hworld rtype).mono fun _ h htrue => iff_true_intro (h htrue)

theorem ensures_checkType {rtype : RType} {body : List TypeItem} (hread : ∀ item ∈ body, item.Read) :
    Ensures (Kept name) (checkType world fuel rtype body) fun r =>
      r.1 = true → ((∀ item ∈ r.2.2, item.Qualified) ↔ ∀ item ∈ body, item.Written) := by
  refine (ensures_enforceScope rtype).bind fun _ _ => (ensures_addType _).bind fun _ _ => ?_
  refine ensures_ite (fun _ => ensures_pure fun h => (nomatch h)) fun _ => ?_
  have hitem : ∀ item ∈ body, Ensures (Kept name) (checkTypeItem world fuel item) fun r =>
      r.1 = true → (r.2.Qualified ↔ item.Written) :=
    fun item hmem => ensures_checkTypeItem hworld (hread item hmem)
  refine (ensures_checkEach (R := fun item item' => item'.Qualified ↔ item.Written) hitem).bind fun r hr =>
    ensures_pure fun htrue => ?_
  exact forall_iff_of_forall₂ (hr (Bool.and_eq_true_iff.1 htrue).1)

theorem ensures_checkBuiltintype {rtype : RType} {body : Option (List TypeItem)}
    (hread : (ItfItem.builtintype rtype body).Read) :
    Ensures (Kept name) (checkBuiltintype world fuel rtype body) fun r =>
      r.1 = true → (r.2.Qualified ↔ (ItfItem.builtintype rtype body).Written) := by
  refine (ensures_enforceScope rtype).bind fun _ _ => (ensures_addType _).bind fun _ _ => ?_
  refine ensures_ite (fun _ => ensures_pure fun h => (nomatch h)) fun _ => ?_
  cases body with
  | none => exact ensures_pure fun _ => by simp [ItfItem.Qualified, ItfItem.Written]
  | some body => exact (ensures_checkType hworld hread).bind fun r hr => ensures_pure hr

theorem ensures_checkVariable (rtype : RType) (identifier : Word) :
    Ensures (Kept name) (checkVariable world fuel rtype identifier) fun _ => True := by
  refine ensures_ite (fun _ => ensures_pure trivial) fun _ => ?_
  refine (ensures_checkHasType hworld rtype).bind fun _ _ => ?_
  refine ensures_ite (fun _ => ensures_pure trivial) fun _ => ensures_get.bind fun s hs => ?_
  split
  · exact ensures_pure trivial
  · refine (ensures_set ?_).bind fun _ _ => ensures_pure trivial
    exact ⟨hs.named, hs.sound⟩

theorem ensures_checkSequenceItem {item : SequenceItem} (hread : item.Read) :
    Ensures (Kept name) (checkSequenceItem world fuel item) fun r =>
      r.1 = true → (r.2.Qualified ↔ item.Written) := by
  cases item with
  | chunk pointcut => exact (ensures_checkChunk hworld pointcut).bind fun _ h => ensures_pure h
  | pointcut qualifier rtype =>
    exact (ensures_checkPointcutDecl hworld _ hread).bind fun _ h =>
      ensures_pure fun htrue => iff_true_intro (h htrue)

/-- **A sequence** is filed with qualified parameters. -/
theorem ensures_checkSequence {qualifier : Qualifier} {rtype : RType} {body : List SequenceItem}
    (hread : ∀ item ∈ body, item.Read) :
    Ensures (Kept name) (checkSequence world fuel qualifier rtype body) fun r =>
      r.1 = true → ParamsQualified r.2.1 ∧
        ((∀ item ∈ r.2.2, item.Qualified) ↔ ∀ item ∈ body, item.Written) := by
  refine (ensures_checkParams hworld rtype).bind fun checked hchecked => ?_
  have hitem : ∀ item ∈ body, Ensures (Kept name) (checkSequenceItem world fuel item) fun r =>
      r.1 = true → (r.2.Qualified ↔ item.Written) :=
    fun item hmem => ensures_checkSequenceItem hworld (hread item hmem)
  refine (ensures_checkEach (R := fun item item' => item'.Qualified ↔ item.Written) hitem).bind
    fun items hitems => ?_
  refine ensures_ite (fun _ => ensures_pure fun h => (nomatch h)) fun hok => ?_
  obtain ⟨hokParams, hokBody⟩ := Bool.and_eq_true_iff.1 (Bool.eq_true_of_not_eq_false hok)
  refine (ensures_enforceScope _).bind fun placed hplaced => ensures_get.bind fun s hs => ?_
  have hqualified : ParamsQualified placed := by
    rw [ParamsQualified, hplaced.params]
    exact hchecked.2 hokParams
  split
  · exact ensures_pure fun h => (nomatch h)
  · rename_i sequences hadd
    have hsound := hs.sound.addSequence hadd (fun h => (hplaced.scope h).trans hs.named.symm) hqualified
    refine (ensures_set ?_).bind fun _ _ =>
      ensures_pure fun _ => ⟨hqualified, forall_iff_of_forall₂ (hitems hokBody)⟩
    exact ⟨hs.named, hsound⟩

/-- **A declaration that is accepted** is qualified where the check does not leave it as it is written. -/
theorem ensures_checkItfItem {item : ItfItem} (hread : item.Read) :
    Ensures (Kept name) (checkItfItem world fuel item) fun r =>
      r.1 = true → (r.2.Qualified ↔ item.Written) := by
  cases item with
  | sequence qualifier rtype body =>
    exact (ensures_checkSequence hworld hread).bind fun r hr =>
      ensures_pure fun htrue => (and_iff_right (hr htrue).1).trans (hr htrue).2
  | var rtype identifier =>
    exact (ensures_checkVariable hworld rtype identifier).bind fun _ _ => ensures_pure fun _ => Iff.rfl
  | type rtype body => exact (ensures_checkType hworld hread).bind fun _ h => ensures_pure h
  | builtintype rtype body => exact ensures_checkBuiltintype hworld hread
  | pointcut qualifier rtype =>
    exact (ensures_checkPointcutDecl hworld _ hread).bind fun _ h =>
      ensures_pure fun htrue => iff_true_intro (h htrue)
  | chunk pointcut => exact (ensures_checkChunk hworld pointcut).bind fun _ h => ensures_pure h

end Declarations

/-! ## The pass -/

theorem interfacesOf_append : ∀ items items' : List FileItem,
    interfacesOf (items ++ items') = interfacesOf items ++ interfacesOf items'
  | [], _ => rfl
  | item :: items, items' => by
    rw [List.cons_append, interfacesOf, interfacesOf, interfacesOf_append items items', List.append_assoc]

mutual

theorem interfaces_fileItem : ∀ item : SourceItem,
    item.fileItem.interfaces = item.sources.map ItfSource.node
  | .itf _ => rfl
  | .withBlock body => interfacesOf_fileItems body
  | .other => rfl

/-- The nodes of a block are those of its interfaces. -/
theorem interfacesOf_fileItems : ∀ items : List SourceItem,
    interfacesOf (fileItems items) = (sourcesOf items).map ItfSource.node
  | [] => rfl
  | item :: items => by
    rw [fileItems, interfacesOf, sourcesOf, List.map_append, interfaces_fileItem item,
      interfacesOf_fileItems items]

end

/-- The nodes of interfaces that have been read are sound. -/
theorem sound_of_nodes {sources : List ItfSource} {itfs : List Itf} (hnodes : itfs = sources.map ItfSource.node)
    (hread : ∀ source ∈ sources, source.Read) : ∀ itf ∈ itfs, itf.Sound := by
  intro itf hitf
  rw [hnodes] at hitf
  obtain ⟨source, hsource, rfl⟩ := List.mem_map.1 hitf
  exact ItfSource.sound_node (hread source hsource).named

theorem sound_fileItem {item : SourceItem} (hread : ∀ source ∈ item.sources, source.Read) :
    ∀ itf ∈ item.fileItem.interfaces, itf.Sound := sound_of_nodes (interfaces_fileItem item) hread

theorem sound_fileItems {items : List SourceItem} (hread : ∀ source ∈ sourcesOf items, source.Read) :
    ∀ itf ∈ interfacesOf (fileItems items), itf.Sound := sound_of_nodes (interfacesOf_fileItems items) hread

/-- The interfaces the pass does not come to are qualified if they are so as they are written. -/
theorem SourceItem.qualified_iff_written {item : SourceItem} (hitem : ∀ source, item ≠ .itf source) :
    (∀ source ∈ item.sources, source.Qualified) ↔ item.Written := by
  cases item with
  | itf source => exact absurd rfl (hitem source)
  | withBlock body => exact Iff.rfl
  | other => simp [SourceItem.sources, SourceItem.Written]

section Pass

variable {cache : Table Itf} {loaded : Nat → Word → Word → Bool} {fuel : Nat}

/-- What the lookups work on is sound while the interface being checked is. -/
theorem sound_world {before after : List FileItem} (hcache : ∀ e ∈ cache.entries, e.2.Sound)
    (hbefore : ∀ itf ∈ interfacesOf before, itf.Sound) (hafter : ∀ itf ∈ interfacesOf after, itf.Sound)
    (itf : Itf) (n : Nat) (hitf : itf.Sound) :
    (Interfaces.mk (before ++ .itf itf :: after) cache (loaded n)).Sound := by
  refine ⟨?_, hcache⟩
  rw [file, interfacesOf_append, interfacesOf]
  exact List.forall_mem_append.2 ⟨hbefore, List.forall_mem_append.2 ⟨by simpa [FileItem.interfaces], hafter⟩⟩

/-- The interfaces after one more item. -/
theorem sound_append {before : List FileItem} {item : FileItem}
    (hbefore : ∀ itf ∈ interfacesOf before, itf.Sound) (hitem : ∀ itf ∈ item.interfaces, itf.Sound) :
    ∀ itf ∈ interfacesOf (before ++ [item]), itf.Sound := by
  rw [interfacesOf_append, interfacesOf, interfacesOf, List.append_nil]
  exact List.forall_mem_append.2 ⟨hbefore, hitem⟩

/-- An interface in front of a block: its declarations are checked, and then the rest. -/
theorem checkBlock_itf {source : ItfSource} {rest : List SourceItem} {before : List FileItem} {n : Nat} {out : Outcome}
    (h : checkBlock cache loaded fuel before n (.itf source :: rest) = some out) :
    ∃ ok body s outRest,
      checkEach (checkItfItem (fun itf n => ⟨before ++ .itf itf :: fileItems rest, cache, loaded n⟩) fuel) source.body
        ⟨source.node, [], TypeTables.empty, n⟩ = some ((ok, body), s) ∧
      checkBlock cache loaded fuel (before ++ [.itf s.itf]) s.lookups rest = some outRest ∧
      out = ⟨ok && outRest.ok, .itf { source with body := body } :: outRest.tree, outRest.nodes⟩ := by
  obtain ⟨⟨⟨ok, body⟩, s⟩, hbody, h⟩ := Option.bind_eq_some_iff.1 h
  obtain ⟨outRest, houtRest, h⟩ := Option.bind_eq_some_iff.1 h
  exact ⟨ok, body, s, outRest, hbody, houtRest, (Option.some.inj h).symm⟩

/-- Another item in front of a block is left as it is. -/
theorem checkBlock_skips {item : SourceItem} {rest : List SourceItem} {before : List FileItem} {n : Nat} {out : Outcome}
    (hitem : ∀ source, item ≠ .itf source) (h : checkBlock cache loaded fuel before n (item :: rest) = some out) :
    ∃ outRest, checkBlock cache loaded fuel (before ++ [item.fileItem]) n rest = some outRest ∧
      out = ⟨outRest.ok, item :: outRest.tree, outRest.nodes⟩ := by
  cases item with
  | itf source => exact absurd rfl (hitem source)
  | withBlock body =>
    obtain ⟨outRest, houtRest, h⟩ := Option.bind_eq_some_iff.1 h
    exact ⟨outRest, houtRest, (Option.some.inj h).symm⟩
  | other =>
    obtain ⟨outRest, houtRest, h⟩ := Option.bind_eq_some_iff.1 h
    exact ⟨outRest, houtRest, (Option.some.inj h).symm⟩

/-- **The pass** leaves sound interfaces, and a file it accepts is qualified where it does not leave it as it
is written. -/
theorem checkBlock_qualifies (hcache : ∀ e ∈ cache.entries, e.2.Sound) :
    ∀ {items : List SourceItem} {before : List FileItem} {n : Nat} {out : Outcome},
      (∀ itf ∈ interfacesOf before, itf.Sound) → (∀ source ∈ sourcesOf items, source.Read) →
      checkBlock cache loaded fuel before n items = some out →
        (∀ itf ∈ interfacesOf out.nodes, itf.Sound) ∧
          (out.ok = true →
            ((∀ source ∈ sourcesOf out.tree, source.Qualified) ↔ ∀ item ∈ items, item.Written)) := by
  intro items
  induction items with
  | nil =>
    intro before n out hbefore _ h
    cases h
    exact ⟨hbefore, fun _ => by simp [sourcesOf]⟩
  | cons item rest ih =>
    intro before n out hbefore hread h
    rw [sourcesOf, List.forall_mem_append] at hread
    obtain ⟨hread, hrest⟩ := hread
    by_cases hitf : ∃ source, item = .itf source
    · obtain ⟨source, rfl⟩ := hitf
      have hsource : source.Read := hread source (List.mem_singleton_self source)
      obtain ⟨ok, body, s, outRest, hbody, houtRest, rfl⟩ := checkBlock_itf h
      obtain ⟨hkept, hitems⟩ := ensures_checkEach (I := Kept source.name)
        (R := fun item item' => item'.Qualified ↔ item.Written)
        (fun item hitem => ensures_checkItfItem
          (sound_world hcache hbefore (sound_fileItems hrest)) (hsource.body item hitem))
        ⟨rfl, ItfSource.sound_node hsource.named⟩ hbody
      have hnode : ∀ itf ∈ (FileItem.itf s.itf).interfaces, itf.Sound :=
        List.forall_mem_singleton.2 hkept.sound
      obtain ⟨hnodes, htree⟩ := ih (sound_append hbefore hnode) hrest houtRest
      refine ⟨hnodes, fun hok => ?_⟩
      obtain ⟨hok, hokRest⟩ := Bool.and_eq_true_iff.1 hok
      rw [sourcesOf, List.forall_mem_append, List.forall_mem_cons, htree hokRest]
      refine and_congr_left' ?_
      rw [SourceItem.sources, List.forall_mem_singleton]
      exact forall_iff_of_forall₂ (hitems hok)
    · have hitem : ∀ source, item ≠ .itf source := fun source heq => hitf ⟨source, heq⟩
      obtain ⟨outRest, houtRest, rfl⟩ := checkBlock_skips hitem h
      obtain ⟨hnodes, htree⟩ := ih (sound_append hbefore (sound_fileItem hread)) hrest houtRest
      refine ⟨hnodes, fun hok => ?_⟩
      rw [sourcesOf, List.forall_mem_append, List.forall_mem_cons, htree hok,
        SourceItem.qualified_iff_written hitem]

end Pass

/-- The interfaces of a session are sound. -/
theorem Registry.sound (R : Registry) : ∀ e ∈ R.cache.entries, e.2.Sound :=
  fun e he => ⟨(R.named e he).2, R.checked e he⟩

section Middle

variable {R : Registry} {loaded : Nat → Word → Word → Bool} {fuel : Nat} {items : List SourceItem}
  {out : Outcome}

theorem checkBlock_of_middleTypeCheck (h : middleTypeCheck R.cache loaded fuel items = some out) :
    checkBlock R.cache loaded fuel [] 0 items = some out := by
  unfold middleTypeCheck at h
  simp only at h
  split at h
  · exact h
  · cases h

theorem middleTypeCheck_qualifies (hread : ∀ source ∈ sourcesOf items, source.Read)
    (h : middleTypeCheck R.cache loaded fuel items = some out) :
    (∀ itf ∈ interfacesOf out.nodes, itf.Sound) ∧
      (out.ok = true →
        ((∀ source ∈ sourcesOf out.tree, source.Qualified) ↔ ∀ item ∈ items, item.Written)) := by
  have hbefore : ∀ itf ∈ interfacesOf [], itf.Sound := by simp [interfacesOf]
  exact checkBlock_qualifies R.sound hbefore hread (checkBlock_of_middleTypeCheck h)

/-- **The interfaces the pass leaves** are such as the lookups of later files rely on, whether it accepts the
file or not. -/
theorem sound_of_middleTypeCheck (hread : ∀ source ∈ sourcesOf items, source.Read)
    (h : middleTypeCheck R.cache loaded fuel items = some out) :
    ∀ itf ∈ interfacesOf out.nodes, itf.Sound :=
  (middleTypeCheck_qualifies hread h).1

end Middle

/-- **All interfaces of an accepted file are fully qualified** exactly when the chunks of global pointcuts
and the interfaces in with-blocks are qualified as they are written. -/
theorem qualified_iff (R : Registry) (loaded : Nat → Word → Word → Bool) (fuel : Nat)
    (items : List SourceItem) (hread : ∀ source ∈ sourcesOf items, source.Read) (out : Outcome)
    (h : middleTypeCheck R.cache loaded fuel items = some out) (hok : out.ok = true) :
    (∀ source ∈ sourcesOf out.tree, source.Qualified) ↔ ∀ item ∈ items, item.Written :=
  (middleTypeCheck_qualifies hread h).2 hok

/-! ## A with-block and a call -/

/-- No interfaces in the session. -/
def emptyRegistry : Registry where
  cache := Table.empty
  named := by decide
  checked := by decide

/-- An interface `LKM` with a type `dev` and a sequence `init(dev)`, all with this scope. -/
def lkmSource (scope : Word) : ItfSource where
  name := ⟨"LKM", .refl true⟩
  inheritance := []
  body := [.builtintype ⟨rtxNodeIdentifier ⟨"dev", .refl true⟩ scope, []⟩ none,
    .sequence .provided
      ⟨rtxNodeIdentifier ⟨"init", .refl true⟩ scope, [rtxNodeIdentifier ⟨"dev", .refl true⟩ scope]⟩ []]

/-- An interface with a chunk `::CALL(dev)`. -/
def callSource : ItfSource where
  name := ⟨"LKM", .refl true⟩
  inheritance := []
  body := [.chunk ⟨⟨Word.blank, ⟨"CALL", .refl true⟩, true⟩, [rtxNodeIdentifier ⟨"dev", .refl true⟩]⟩]

theorem lkmSource_read (scope : Word) : (lkmSource scope).Read :=
  ⟨(by decide : (⟨"LKM", rfl⟩ : Word) ≠ Word.blank), by simp [lkmSource, ItfItem.Read]⟩

theorem callSource_read : callSource.Read :=
  ⟨by decide, by simp [callSource, ItfItem.Read]⟩

theorem qualified_lkm : ∃ out,
    middleTypeCheck emptyRegistry.cache (fun _ _ _ => false) 1 [.itf (lkmSource Word.blank)] = some out ∧
      out.ok = true ∧ out.tree = [.itf (lkmSource ⟨"LKM", rfl⟩)] ∧
      ((∀ source ∈ sourcesOf out.tree, source.Qualified) ↔
        ∀ item ∈ [SourceItem.itf (lkmSource Word.blank)], item.Written) :=
  ⟨_, rfl, rfl, rfl, qualified_iff emptyRegistry (fun _ _ _ => false) 1 [.itf (lkmSource Word.blank)]
    (List.forall_mem_singleton.2 (lkmSource_read Word.blank)) _ rfl rfl⟩

/-- In a with-block the interface is accepted, and its parameter `dev` has no scope; so is `::CALL(dev)`. -/
theorem accepted_unqualified :
    (∃ nodes, middleTypeCheck emptyRegistry.cache (fun _ _ _ => false) 1
        [.withBlock [.itf (lkmSource Word.blank)]] =
      some ⟨true, [.withBlock [.itf (lkmSource Word.blank)]], nodes⟩) ∧
    (lkmSource Word.blank).Read ∧ ¬ (lkmSource Word.blank).Qualified ∧
    (∃ nodes, middleTypeCheck emptyRegistry.cache (fun _ _ _ => false) 1 [.itf callSource] =
      some ⟨true, [.itf callSource], nodes⟩) ∧
    callSource.Read ∧ ¬ callSource.Qualified := by
  refine ⟨⟨_, rfl⟩, lkmSource_read _, ?_, ⟨_, rfl⟩, callSource_read, ?_⟩
  · simp [ItfSource.Qualified, lkmSource, ItfItem.Qualified, ParamsQualified, isPlain, rtxNodeIdentifier]
  · simp [ItfSource.Qualified, callSource, ItfItem.Qualified, isQualified, isPlain, rtxNodeIdentifier]

end Rathaxes.Mid
