import Rathaxes.Laws.SequenceLookup

/-!
# What a failed lookup of a sequence leaves

The lookup of a sequence writes the name of an interface into the scope of the prototype whenever that
interface declares it by its full name, and goes on with the others. The scope is never set back: when the
lookup fails, the prototype has the scope of the last interface that declared it. Only a prototype with all
its types qualified is looked for by its full name, so any other one is left as it was
(`failed_lookup_unchanged_iff`).
-/

set_option autoImplicit false

namespace Rathaxes.Mid

open CodeWorker Interfaces

variable {w : Interfaces} {theSequence : RType}

/-- The interfaces that declare the prototype, in the order in which a lookup comes to them. It does not go
on to the parents of one that does. -/
def declarers (w : Interfaces) (theSequence : RType) : Nat → Word → List Word → List Word
  | 0, _, _ => []
  | fuel + 1, itfName, interfaceList =>
    if itfName ≠ Word.blank then
      match w.registered itfName with
      | none => []
      | some itfTree =>
        if (exactMatch itfTree.name itfTree.sequences theSequence).isSome then [itfName]
        else itfTree.inheritance.flatMap fun itf => declarers w theSequence fuel itf []
    else interfaceList.flatMap fun itf => declarers w theSequence fuel itf []

/-- The prototype after these names have been written into its scope. -/
def rescoped (rtype : RType) (names : List Word) : RType :=
  names.getLast?.elim rtype (withScope rtype)

theorem rescoped_append (rtype : RType) (names names' : List Word) :
    rescoped (rescoped rtype names) names' = rescoped rtype (names ++ names') := by
  unfold rescoped
  rw [List.getLast?_append]
  cases names'.getLast? with
  | some name => cases names.getLast? <;> rfl
  | none => rfl

/-- A name changes nothing when it is the scope already. -/
theorem rescoped_eq_self_iff {rtype : RType} {names : List Word} :
    rescoped rtype names = rtype ↔ ∀ name ∈ names.getLast?, name = rtype.name.scope := by
  unfold rescoped
  cases names.getLast? with
  | none => simp
  | some name =>
    simp only [Option.elim_some, Option.mem_some_iff, forall_eq']
    constructor
    · intro h
      exact congrArg (fun t => t.name.scope) h
    · rintro rfl
      rfl

/-! ## A prototype that is not qualified -/

theorem prototype_of_not_qualified (hplain : isQualified theSequence = false) :
    ∀ {fuel : Nat} {name : Word} {list : List Word} {s : SequenceSearch} {r : Bool × SequenceSearch},
      s.prototype = theSequence → nameDefinesSequence w fuel name list s = some r →
      r.1 = false ∧ r.2.prototype = theSequence := by
  intro fuel
  induction fuel with
  | zero =>
    intro name list s r _ h
    cases h
  | succ fuel ih =>
    intro name list s r hs h
    have hloop : ∀ {names : List Word} {s : SequenceSearch}, s.prototype = theSequence →
        callAll (fun s itf => nameDefinesSequence w fuel itf [] s) s names = some r →
        r.1 = false ∧ r.2.prototype = theSequence :=
      fun hs hrun => callAll_keeps (P := fun s : SequenceSearch => s.prototype = theSequence)
        (fun _ _ _ _ hs hstep => (ih hs hstep).2) hs hrun
    have hqualified : isQualified s.prototype = false := by
      rw [hs]
      exact hplain
    cases sequenceTurn h with
    | list _ hrun => exact hloop hs hrun
    | unknown _ _ hr =>
      rw [hr]
      exact ⟨rfl, hs⟩
    | declared _ itf _ hfound _ =>
      rw [s.defines_of_not_qualified itf hqualified] at hfound
      cases hfound
    | parents _ itf _ _ hrun =>
      rw [s.defines_of_not_qualified itf hqualified] at hrun
      exact hloop (s := s.byParameters itf) hs hrun

/-! ## A qualified prototype -/

/-- The state of a lookup: it is about the prototype but for its scope, and as qualified. -/
structure Rescoping (theSequence : RType) (s : SequenceSearch) : Prop where
  qualified : isQualified s.prototype = isQualified theSequence
  same : withScope s.prototype Word.blank = withScope theSequence Word.blank

theorem Rescoping.refl (theSequence : RType) (possibilities : List ItfDecl) :
    Rescoping theSequence ⟨theSequence, possibilities⟩ :=
  ⟨rfl, rfl⟩

theorem Rescoping.exactMatch_eq {s : SequenceSearch} (hs : Rescoping theSequence s) (itfName : Word)
    (table : Table (Table ItfDecl)) :
    exactMatch itfName table s.prototype = exactMatch itfName table theSequence := by
  -- the key is made with the name of the interface for a scope
  change exactMatch itfName table (withScope s.prototype Word.blank) =
    exactMatch itfName table (withScope theSequence Word.blank)
  rw [hs.same]

theorem Rescoping.matching_eq {s : SequenceSearch} (hs : Rescoping theSequence s)
    (table : Table (Table ItfDecl)) : matching table s.prototype = matching table theSequence := by
  change matching table (withScope s.prototype Word.blank) = matching table (withScope theSequence Word.blank)
  rw [hs.same]

theorem Rescoping.rescope {s : SequenceSearch} (hs : Rescoping theSequence s)
    (hqualified : isQualified theSequence = true) {name : Word} (hname : name ≠ Word.blank)
    (possibilities : List ItfDecl) :
    Rescoping theSequence ⟨withScope s.prototype name, possibilities⟩ :=
  ⟨(isQualified_withScope hname (hs.qualified.trans hqualified)).trans hqualified.symm, hs.same⟩

theorem Rescoping.searched {s : SequenceSearch} (hs : Rescoping theSequence s)
    (possibilities : List ItfDecl) : Rescoping theSequence { s with possibilities := possibilities } :=
  ⟨hs.qualified, hs.same⟩

/-- **A lookup writes the names of the declarers** into the scope, one after the other. -/
theorem nameDefinesSequence_rescopes (hqualified : isQualified theSequence = true) : ∀ {fuel : Nat}
    {name : Word} {list : List Word} {s : SequenceSearch} {r : Bool × SequenceSearch},
      Rescoping theSequence s → nameDefinesSequence w fuel name list s = some r →
      Rescoping theSequence r.2 ∧
        r.2.prototype = rescoped s.prototype (declarers w theSequence fuel name list) := by
  intro fuel
  induction fuel with
  | zero =>
    intro name list s r _ h
    cases h
  | succ fuel ih =>
    intro name list s r hs h
    have hloop : ∀ {names : List Word} {s : SequenceSearch}, Rescoping theSequence s →
        callAll (fun s itf => nameDefinesSequence w fuel itf [] s) s names = some r →
        Rescoping theSequence r.2 ∧ r.2.prototype =
          rescoped s.prototype (names.flatMap fun itf => declarers w theSequence fuel itf []) := by
      intro names s hs hrun
      obtain ⟨-, hend, hfollows⟩ := callAll_follows (P := Rescoping theSequence)
        (F := fun names s t => t.prototype = rescoped s.prototype names)
        (fun _ => rfl) (fun l l' s t u hst htu => by rw [htu, hst, rescoped_append])
        (fun _ _ _ _ hs hstep => ih hs hstep) hs hrun
      exact ⟨hend, hfollows⟩
    have hdefines := fun itf => s.defines_of_qualified itf (hs.qualified.trans hqualified)
    unfold declarers
    cases sequenceTurn h with
    | list hname hrun =>
      rw [if_neg (not_not.2 hname)]
      exact hloop hs hrun
    | unknown hname hreg hr =>
      rw [if_pos hname, hreg, hr]
      exact ⟨hs, rfl⟩
    | declared hname itf hreg hfound hr =>
      rw [hdefines, hs.exactMatch_eq] at hfound hr
      simp only [if_pos hname, hreg, if_pos hfound, hr]
      exact ⟨hs.rescope hqualified hname _, rfl⟩
    | parents hname itf hreg hfound hrun =>
      rw [hdefines, hs.exactMatch_eq] at hfound hrun
      simp only [if_pos hname, hreg, if_neg (Bool.eq_false_iff.1 hfound)]
      have hrest := hloop (hs.searched _) hrun
      exact hrest

/-! ## A lookup that fails -/

/-- **A failed lookup leaves the prototype as it was** exactly when it is not qualified, when none of the
interfaces on the way declares it, or when the last one that does has the name that is its scope. -/
theorem failed_lookup_unchanged_iff (w : Interfaces) (fuel : Nat) (theSequence : RType) (itfName : Word)
    (interfaceList : List Word) (outQualifier : Option Qualifier) (answer : SequenceAnswer)
    (hanswer : itfNameDefinesSequence w fuel theSequence itfName interfaceList outQualifier = some answer)
    (hfailed : answer.found = false) :
    answer.theSequence = theSequence ↔ (isQualified theSequence = true →
      ∀ name ∈ (declarers w theSequence fuel itfName interfaceList).getLast?,
        name = theSequence.name.scope) := by
  have hleft : ∃ r, nameDefinesSequence w fuel itfName interfaceList ⟨theSequence, []⟩ = some r ∧
      answer.theSequence = r.2.prototype := by
    unfold itfNameDefinesSequence at hanswer
    obtain ⟨r, hr, rfl⟩ := Option.map_eq_some_iff.1 hanswer
    refine ⟨r, hr, ?_⟩
    simp only at hfailed ⊢
    split at hfailed
    · cases hfailed
    · split at hfailed
      · cases hfailed
      · simp_all
  obtain ⟨r, hr, hprototype⟩ := hleft
  rw [hprototype]
  cases hqualified : isQualified theSequence with
  | false => simp [(prototype_of_not_qualified hqualified rfl hr).2]
  | true =>
    rw [(nameDefinesSequence_rescopes hqualified (Rescoping.refl theSequence []) hr).2, rescoped_eq_self_iff]
    simp

/-! ## Two parents that declare a sequence -/

/-- `Left` and `Right` both declare `open()`, and `Top` inherits from them. -/
def forked : Interfaces :=
  let decl (scope : Word) : ItfDecl := ⟨⟨rtxNodeIdentifier ⟨"open", .refl true⟩ scope, []⟩, some .provided⟩
  let itf (name : Word) : Itf :=
    ⟨name, [], Table.empty,
      Table.empty.set "open" (Table.empty.set (decl name).rtype.rtxRTypeFullQualifiedName (decl name)), []⟩
  ⟨[], ((Table.empty.set "Left" (itf ⟨"Left", .refl true⟩)).set "Right" (itf ⟨"Right", .refl true⟩)).set "Top"
    ⟨⟨"Top", .refl true⟩, [], Table.empty, Table.empty, [⟨"Left", .refl true⟩, ⟨"Right", .refl true⟩]⟩, fun _ _ => true⟩

/-- `scope::open()`. -/
def scopedOpen (scope : Word) : RType := ⟨rtxNodeIdentifier ⟨"open", .refl true⟩ scope, []⟩

/-- The prototype without a scope is ambiguous, and is left without. -/
theorem failed_lookup_unchanged_open :
    (SequenceAnswer.mk false (scopedOpen Word.blank) none).theSequence = scopedOpen Word.blank ↔
      (isQualified (scopedOpen Word.blank) = true →
        ∀ name ∈ (declarers forked (scopedOpen Word.blank) 3 Word.blank [⟨"Top", rfl⟩]).getLast?,
          name = (scopedOpen Word.blank).name.scope) :=
  failed_lookup_unchanged_iff forked 3 (scopedOpen Word.blank) Word.blank [⟨"Top", rfl⟩] none
    ⟨false, scopedOpen Word.blank, none⟩ (by decide) rfl

/-- `Top::open()` is ambiguous too, and becomes `Right::open()`. -/
theorem failed_lookup_rescopes :
    itfNameDefinesSequence forked 3 (scopedOpen ⟨"Top", rfl⟩) ⟨"Top", rfl⟩ [] none =
      some ⟨false, scopedOpen ⟨"Right", rfl⟩, none⟩ := by
  decide

end Rathaxes.Mid
