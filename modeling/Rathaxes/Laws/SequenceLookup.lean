import Rathaxes.Laws.Declarations
import Rathaxes.Laws.Interface

/-!
# Looking a sequence up in the interfaces in use

The lookup of a sequence without a scope goes from every interface of a list to all its ancestors, along
every path, and collects what matches; an ancestor on two paths is met twice. What it has collected are
the matching declarations of the interfaces it can reach (`nameDefinesSequence_collects`), and the answer
is whether they have one full name (`itfNameDefinesSequence_spec`): neither the number of paths nor their
order is in it.
-/

set_option autoImplicit false

namespace Rathaxes.Mid

open CodeWorker Interfaces

/-- The declarations in `A` have one full name. -/
def OneDeclaration (A : ItfDecl → Prop) : Prop :=
  ∃ d, A d ∧ ∀ d', A d' → d'.rtype.rtxRTypeFullQualifiedName = d.rtype.rtxRTypeFullQualifiedName

variable (w : Interfaces) (theSequence : RType)

/-- A matching declaration of the interface registered under a name. -/
def SequenceAt (name : Word) (d : ItfDecl) : Prop :=
  name ≠ Word.blank ∧ ∃ itf, w.registered name = some itf ∧
    ∃ key, (key, d) ∈ matching itf.sequences theSequence

/-- A matching declaration of one of these interfaces or of an ancestor. -/
def SequenceCandidate (names : List Word) (d : ItfDecl) : Prop :=
  ∃ name ∈ names, ∃ ancestor, Relation.ReflTransGen (Calls (parentNames w)) name ancestor ∧
    SequenceAt w theSequence ancestor d

variable {w theSequence}

/-! ## One interface -/

theorem isQualified_of_plain (hplain : isPlain theSequence.name = true) :
    isQualified theSequence = false := by
  simp [isQualified, hplain]

/-- A turn of the lookup adds the matches of its interface and goes on to the parents. -/
theorem nameDefinesSequence_turn (hplain : isPlain theSequence.name = true) (fuel : Nat) (name : Word)
    (s : SequenceSearch) (r : Bool × SequenceSearch) (hs : s.prototype = theSequence)
    (h : nameDefinesSequence w (fuel + 1) name [] s = some r) :
    ∃ s₁ : SequenceSearch, s₁.prototype = theSequence ∧
      (∀ d, d ∈ s₁.possibilities ↔ d ∈ s.possibilities ∨ SequenceAt w theSequence name d) ∧
      callAll (fun s m => nameDefinesSequence w fuel m [] s) s₁ (parentNames w name) = some r := by
  have hqualified : isQualified s.prototype = false := by
    rw [hs]
    exact isQualified_of_plain hplain
  cases sequenceTurn h with
  | list hname hrun => exact ⟨s, hs, by simp [SequenceAt, hname], by simpa [parentNames, hname] using hrun⟩
  | unknown hname hreg hr => exact ⟨s, hs, by simp [SequenceAt, hreg], by simp [parentNames, hreg, callAll, hr]⟩
  | declared _ itf _ hfound _ =>
    rw [s.defines_of_not_qualified itf hqualified] at hfound
    cases hfound
  | parents hname itf hreg _ hrun =>
    rw [s.defines_of_not_qualified itf hqualified] at hrun
    rw [parentNames_of_registered hname hreg]
    refine ⟨s.byParameters itf, hs, fun d => ?_, hrun⟩
    simp [SequenceAt, SequenceSearch.byParameters, hs, hname, hreg]

/-- **What a lookup collects** are the matches of the interfaces it reaches. -/
theorem nameDefinesSequence_collects (hplain : isPlain theSequence.name = true) {fuel : Nat}
    {name : Word} {s : SequenceSearch} {r : Bool × SequenceSearch} (hs : s.prototype = theSequence)
    (h : nameDefinesSequence w fuel name [] s = some r) :
    r.2.prototype = theSequence ∧ ∀ d, d ∈ r.2.possibilities ↔
      d ∈ s.possibilities ∨ ∃ ancestor, Relation.ReflTransGen (Calls (parentNames w)) name ancestor ∧
        SequenceAt w theSequence ancestor d :=
  (collects_of_turn (f := fun fuel name s => nameDefinesSequence w fuel name [] s)
    (P := fun s => s.prototype = theSequence) (H := fun s d => d ∈ s.possibilities)
    (Q := fun _ => True) (fun _ _ _ _ => trivial) (fun _ _ => rfl)
    (fun fuel name s r _ => nameDefinesSequence_turn hplain fuel name s r) trivial hs h).2

/-! ## The list -/

/-- A lookup over a list that ends has found the candidates, and has settled nothing. -/
theorem nameDefinesSequence_list (hplain : isPlain theSequence.name = true) {fuel : Nat}
    {names : List Word} {r : Bool × SequenceSearch}
    (h : nameDefinesSequence w fuel Word.blank names ⟨theSequence, []⟩ = some r) :
    r.1 = false ∧ ∀ d, d ∈ r.2.possibilities ↔ SequenceCandidate w theSequence names d := by
  cases fuel with
  | zero => cases h
  | succ fuel =>
    have hloop : callAll (fun s itf => nameDefinesSequence w fuel itf [] s) ⟨theSequence, []⟩ names =
        some r := h
    obtain ⟨hfalse, -, hcollects⟩ := callAll_collects
      (P := fun s : SequenceSearch => s.prototype = theSequence)
      (H := fun s d => d ∈ s.possibilities)
      (fun name _ s r hs hrun => nameDefinesSequence_collects hplain hs hrun) rfl hloop
    exact ⟨hfalse, fun d => (hcollects d).trans (by simp [SequenceCandidate])⟩

/-- **The lookup of a sequence without a scope** ends where inheritance has no cycle. It succeeds when the
matching declarations of the interfaces in use and their ancestors have one full name, and then the
sequence and the qualifier are those of one of them. -/
theorem itfNameDefinesSequence_spec (w : Interfaces) (names : List Word) (theSequence : RType)
    (outQualifier : Option Qualifier) (hplain : isPlain theSequence.name = true)
    (hacyclic : ∀ name ∈ names, ¬ LeadsToCycle (parentNames w) name) :
    ∃ bound, ∀ fuel, bound ≤ fuel → ∃ answer,
      itfNameDefinesSequence w fuel theSequence Word.blank names outQualifier = some answer ∧
        (answer.found = true ↔ OneDeclaration (SequenceCandidate w theSequence names)) ∧
        (answer.found = true → ∃ d, SequenceCandidate w theSequence names d ∧
          answer.theSequence = d.rtype ∧ answer.outQualifier = d.qualifier) := by
  obtain ⟨bound, hbound⟩ := terminates_list
    (fun name hname => (grounded_iff mem_allParentNames).2 (hacyclic name hname)) ⟨theSequence, []⟩
  refine ⟨bound, fun fuel hfuel => ?_⟩
  obtain ⟨r, hr⟩ := Option.isSome_iff_exists.1 (hbound fuel hfuel)
  obtain ⟨hfalse, hcandidates⟩ := nameDefinesSequence_list hplain hr
  have hone : (Table.uniques (fun d => d.rtype.rtxRTypeFullQualifiedName) r.2.possibilities).only?.isSome
      ↔ OneDeclaration (SequenceCandidate w theSequence names) := by
    rw [Table.isSome_only?_uniques_iff]
    simp only [hcandidates, OneDeclaration]
  unfold itfNameDefinesSequence
  simp only at hr
  rw [hr]
  refine ⟨_, rfl, ?_⟩
  simp only [hfalse, Bool.false_eq_true, if_false]
  cases honly : (Table.uniques (fun d : ItfDecl => d.rtype.rtxRTypeFullQualifiedName)
      r.2.possibilities).only? with
  | none =>
    rw [honly] at hone
    exact ⟨by simpa using hone, by simp⟩
  | some entry =>
    rw [honly] at hone
    -- the entry left is the first one found, and so is the qualifier
    have hhead := (Table.only?_uniques_iff.1 honly).1
    refine ⟨by simpa using hone, fun _ => ⟨entry, ?_, rfl, by simp [hhead]⟩⟩
    exact (hcandidates entry).1 (List.mem_of_mem_head? hhead)

/-! ## A diamond -/

/-- The base declares `init(Base::dev)`; two interfaces inherit from it. -/
def diamond : Interfaces :=
  let base : Word := ⟨"Base", .refl true⟩
  let decl : ItfDecl :=
    ⟨⟨rtxNodeIdentifier ⟨"init", .refl true⟩ base, [rtxNodeIdentifier ⟨"dev", .refl true⟩ base]⟩, some .required⟩
  let sequences := Table.empty.set "init" (Table.empty.set decl.rtype.rtxRTypeFullQualifiedName decl)
  let heir (name : Word) : Itf := ⟨name, [], Table.empty, Table.empty, [base]⟩
  ⟨[], ((Table.empty.set "Base" ⟨base, [⟨"dev", .refl true⟩], Table.empty, sequences, []⟩).set "Left"
    (heir ⟨"Left", .refl true⟩)).set "Right" (heir ⟨"Right", .refl true⟩), fun _ _ => true⟩

theorem diamond_grounded {name : Word} (h : parentNames diamond name = [⟨"Base", rfl⟩]) :
    ¬ LeadsToCycle (parentNames diamond) name := by
  have hbase : parentNames diamond ⟨"Base", rfl⟩ = [] := by decide
  refine (grounded_iff mem_allParentNames).1 ⟨_, fun m hm => ⟨_, fun m' hm' => ?_⟩⟩
  rw [Calls, h, List.mem_singleton] at hm
  rw [Calls, hm, hbase] at hm'
  cases hm'

theorem itfNameDefinesSequence_diamond : ∃ bound, ∀ fuel, bound ≤ fuel → ∃ answer,
    itfNameDefinesSequence diamond fuel
        ⟨rtxNodeIdentifier ⟨"init", rfl⟩, [rtxNodeIdentifier ⟨"dev", rfl⟩]⟩ Word.blank
        [⟨"Left", rfl⟩, ⟨"Right", rfl⟩] none = some answer ∧
      (answer.found = true ↔ OneDeclaration (SequenceCandidate diamond
        ⟨rtxNodeIdentifier ⟨"init", rfl⟩, [rtxNodeIdentifier ⟨"dev", rfl⟩]⟩
        [⟨"Left", rfl⟩, ⟨"Right", rfl⟩])) ∧
      (answer.found = true → ∃ d, SequenceCandidate diamond
        ⟨rtxNodeIdentifier ⟨"init", rfl⟩, [rtxNodeIdentifier ⟨"dev", rfl⟩]⟩
        [⟨"Left", rfl⟩, ⟨"Right", rfl⟩] d ∧
        answer.theSequence = d.rtype ∧ answer.outQualifier = d.qualifier) :=
  itfNameDefinesSequence_spec diamond [⟨"Left", rfl⟩, ⟨"Right", rfl⟩] _ none rfl
    (by
      intro name hname
      have hparent : parentNames diamond name = [⟨"Base", rfl⟩] := by
        revert name
        decide
      exact diamond_grounded hparent)

end Rathaxes.Mid
