import Rathaxes.Mid.Interface

/-!
# Inheritance and the lookups that follow it

The inheritance pass asks of a parent that it exists, and of nothing else (`checkInheritanceAll_iff`). An
interface may inherit from itself, and the lookups then do not end: they end exactly when no path of
inheritance leads from the interfaces of the file to a cycle (`lookupsTerminate_iff`).
-/

set_option autoImplicit false

namespace Rathaxes.Mid

open CodeWorker Interfaces

variable {w : Interfaces}

/-! ## What the pass accepts -/

/-- Every parent of an interface is in the file or in the cache. -/
def ParentsExist (w : Interfaces) (theItf : Itf) : Prop :=
  ∀ name ∈ theItf.inheritance, (w.inFile name).isSome ∨ (w.cache.get? name.text).isSome

mutual

theorem checkInheritance_iff : ∀ item : FileItem,
    w.checkInheritance item = true ↔ ∀ theItf ∈ item.interfaces, ParentsExist w theItf
  | .itf theItf => by
    simp [checkInheritance, FileItem.interfaces, ParentsExist]
  | .withBlock body => by
    rw [checkInheritance, FileItem.interfaces]
    exact checkInheritanceAll_iff body
  | .other => by simp [checkInheritance, FileItem.interfaces]

/-- **The pass** accepts the blocks in which all parents of all interfaces exist. -/
theorem checkInheritanceAll_iff : ∀ items : List FileItem,
    w.checkInheritanceAll items = true ↔ ∀ theItf ∈ interfacesOf items, ParentsExist w theItf
  | [] => by simp [checkInheritanceAll, interfacesOf]
  | item :: items => by
    rw [checkInheritanceAll, interfacesOf, Bool.and_eq_true, List.forall_mem_append,
      checkInheritance_iff item, checkInheritanceAll_iff items]

end

/-! ## Nodes -/

/-- A parent that is in a node is a parent. -/
theorem mem_parents_of_loaded {node m : ItfNode} (h : m ∈ w.loadedParents node) :
    m ∈ w.parents node := by
  obtain ⟨name, hname, hparent⟩ := List.mem_filterMap.1 h
  unfold loadedParent at hparent
  split at hparent
  · exact List.mem_filterMap.2 ⟨name, hname, hparent⟩
  · cases hparent

/-- All nodes: those of the file and the trees in the cache. -/
def nodes (w : Interfaces) : List ItfNode :=
  w.file.map (ItfNode.mk true) ++ w.cache.entries.map fun e => ItfNode.mk false e.2

theorem mem_nodes_of_mem_parents (node m : ItfNode) (h : m ∈ w.parents node) : m ∈ nodes w := by
  obtain ⟨name, -, hparent⟩ := List.mem_filterMap.1 h
  unfold parent at hparent
  split at hparent
  · rename_i itf hfile
    cases hparent
    split at hfile
    · have hmem := List.mem_of_find?_eq_some hfile
      exact List.mem_append_left _ (List.mem_map_of_mem (List.mem_reverse.1 hmem))
    · cases hfile
  · obtain ⟨itf, hget, rfl⟩ := Option.map_eq_some_iff.1 hparent
    have hentry := (w.cache.mem_entries_iff name.text itf).2 hget
    exact List.mem_append_right _ (List.mem_map.2 ⟨_, hentry, rfl⟩)

theorem mem_nodes_of_reach {node m : ItfNode} (h : Relation.ReflTransGen (Calls w.parents) node m) :
    m ∈ node :: nodes w := by
  rcases Relation.ReflTransGen.cases_tail h with rfl | ⟨n, -, hlast⟩
  · exact List.mem_cons_self
  · exact List.mem_cons_of_mem _ (mem_nodes_of_mem_parents n m hlast)

/-- What holds of the interfaces of the file and of those in the cache holds of every node. -/
theorem itf_of_mem_nodes {P : Itf → Prop} (hfile : ∀ itf ∈ w.file, P itf)
    (hcache : ∀ e ∈ w.cache.entries, P e.2) {m : ItfNode} (h : m ∈ nodes w) : P m.itf := by
  rcases List.mem_append.1 h with hm | hm
  · obtain ⟨itf, hitf, rfl⟩ := List.mem_map.1 hm
    exact hfile itf hitf
  · obtain ⟨e, he, rfl⟩ := List.mem_map.1 hm
    exact hcache e he

/-! ## Types and pointcuts -/

/-- A lookup of a type is through when it is for the parents. -/
theorem isSome_hasType (rtype : RType) (fuel : Nat) (node : ItfNode)
    (h : ∀ m ∈ w.parents node, ∀ s, (hasType w rtype fuel m s).isSome) (s : List Word) :
    (hasType w rtype (fuel + 1) node s).isSome := by
  unfold hasType
  simp only
  split
  · exact isSome_callAll h
  · split
    · split
      · split
        · exact isSome_untilTrue fun m hm s => h m (mem_parents_of_loaded hm) s
        · split <;> rfl
      · rfl
    · rfl

/-- A lookup of a type without a scope goes to all parents. -/
theorem hasType_parents {rtype : RType} (hplain : isPlain rtype.name = true) (fuel : Nat)
    (node : ItfNode) (s : List Word) (h : (hasType w rtype (fuel + 1) node s).isSome) :
    ∀ m ∈ w.parents node, ∃ s', (hasType w rtype fuel m s').isSome := by
  unfold hasType at h
  simp only [hplain, if_true] at h
  obtain ⟨r, hloop⟩ := Option.isSome_iff_exists.1 h
  intro m hm
  obtain ⟨s', -, hs'⟩ :=
    (turns_of_callAll (P := fun _ => True) (fun _ _ _ _ _ => trivial) trivial hloop).2 m hm
  exact ⟨s', hs'⟩

/-- A lookup of a pointcut is through when it is for the parents. -/
theorem isSome_checkPointcut (fuel : Nat) (node : ItfNode)
    (h : ∀ m ∈ w.parents node, ∀ s, (checkPointcut w fuel m s).isSome) (s : PointcutSearch) :
    (checkPointcut w (fuel + 1) node s).isSome := by
  unfold checkPointcut
  simp only
  split
  · exact isSome_callAll fun m hm s => h m (mem_parents_of_loaded hm) s
  · split
    · split
      · split
        · exact isSome_untilTrue fun m hm s => h m (mem_parents_of_loaded hm) s
        · split <;> rfl
      · rfl
    · rfl

/-! ## Sequences -/

/-- The names a lookup of a sequence goes to from a name. -/
def parentNames (w : Interfaces) (name : Word) : List Word :=
  if name = Word.blank then [] else ((w.registered name).map Itf.inheritance).getD []

theorem parentNames_of_registered {name : Word} {itf : Itf} (hname : name ≠ Word.blank)
    (hreg : w.registered name = some itf) : parentNames w name = itf.inheritance := by
  unfold parentNames
  rw [if_neg hname, hreg]
  rfl

/-- All names of parents. -/
def allParentNames (w : Interfaces) : List Word :=
  (w.file ++ w.cache.entries.map Prod.snd).flatMap Itf.inheritance

theorem mem_allParentNames (name m : Word) (h : m ∈ parentNames w name) : m ∈ allParentNames w := by
  unfold parentNames at h
  split at h
  · cases h
  · cases hreg : w.registered name with
    | none =>
      rw [hreg] at h
      cases h
    | some itf =>
      rw [hreg] at h
      refine List.mem_flatMap.2 ⟨itf, ?_, h⟩
      rcases Option.or_eq_some_iff.1 hreg with hget | ⟨-, hfile⟩
      · have hentry := (w.cache.mem_entries_iff name.text itf).2 hget
        exact List.mem_append_right _ (List.mem_map.2 ⟨_, hentry, rfl⟩)
      · exact List.mem_append_left _ (List.mem_of_find?_eq_some hfile)

/-- A lookup of a sequence is through when it is for the names next to the name. -/
theorem isSome_nameDefinesSequence (fuel : Nat) (name : Word)
    (h : ∀ m ∈ parentNames w name, ∀ s, (nameDefinesSequence w fuel m [] s).isSome)
    (s : SequenceSearch) : (nameDefinesSequence w (fuel + 1) name [] s).isSome := by
  unfold nameDefinesSequence
  split
  · rename_i hname
    cases hreg : w.registered name with
    | none => rfl
    | some itf =>
      rw [parentNames_of_registered hname hreg] at h
      simp only
      split
      · rfl
      · exact isSome_callAll h
  · rfl

/-- What a turn of the lookup of a sequence can do: without a name it goes over the list, with one it stops where nothing
is registered, or at a declaration, of which the name becomes the scope, and else goes over the parents. -/
inductive SequenceTurn (w : Interfaces) (fuel : Nat) (name : Word) (list : List Word) (s : SequenceSearch)
    (r : Bool × SequenceSearch) : Prop where
  | list (hname : name = Word.blank)
      (hrun : callAll (fun s itf => nameDefinesSequence w fuel itf [] s) s list = some r)
  | unknown (hname : name ≠ Word.blank) (hreg : w.registered name = none) (hr : r = (false, s))
  | declared (hname : name ≠ Word.blank) (itf : Itf) (hreg : w.registered name = some itf)
      (hfound : (s.defines itf).1 = true)
      (hr : r = (true, { (s.defines itf).2 with prototype := withScope (s.defines itf).2.prototype name }))
  | parents (hname : name ≠ Word.blank) (itf : Itf) (hreg : w.registered name = some itf)
      (hfound : (s.defines itf).1 = false)
      (hrun : callAll (fun s itf => nameDefinesSequence w fuel itf [] s) (s.defines itf).2 itf.inheritance = some r)

theorem sequenceTurn {fuel : Nat} {name : Word} {list : List Word} {s : SequenceSearch} {r : Bool × SequenceSearch}
    (h : nameDefinesSequence w (fuel + 1) name list s = some r) : SequenceTurn w fuel name list s r := by
  unfold nameDefinesSequence at h
  split at h
  · rename_i hname
    cases hreg : w.registered name with
    | none =>
      simp only [hreg] at h
      cases h
      exact .unknown hname hreg rfl
    | some itf =>
      simp only [hreg] at h
      split at h
      · rename_i hfound
        cases h
        exact .declared hname itf hreg hfound rfl
      · rename_i hfound
        exact .parents hname itf hreg (Bool.eq_false_of_not_eq_true hfound) h
  · rename_i hname
    exact .list (not_not.1 hname) h

/-- An interface leaves the prototype as it is, and settles nothing about one without a scope. -/
theorem SequenceSearch.defines_plain {s : SequenceSearch} (hplain : isPlain s.prototype.name = true)
    (itf : Itf) : (s.defines itf).1 = false ∧ isPlain (s.defines itf).2.prototype.name = true := by
  have hqualified : isQualified s.prototype = false := by
    simp [isQualified, hplain]
  unfold SequenceSearch.defines
  split
  · exact ⟨rfl, hplain⟩
  · rw [hqualified]
    exact ⟨rfl, hplain⟩

/-- A lookup of a sequence without a scope leaves it without. -/
theorem nameDefinesSequence_plain : ∀ {fuel : Nat} {name : Word} {list : List Word}
    {s : SequenceSearch} {r : Bool × SequenceSearch}, isPlain s.prototype.name = true →
    nameDefinesSequence w fuel name list s = some r → isPlain r.2.prototype.name = true := by
  intro fuel
  induction fuel with
  | zero =>
    intro name list s r _ h
    cases h
  | succ fuel ih =>
    intro name list s r hplain h
    -- both loops go from one lookup to the next
    have hloop : ∀ {names : List Word} {s : SequenceSearch}, isPlain s.prototype.name = true →
        callAll (fun s itf => nameDefinesSequence w fuel itf [] s) s names = some r →
        isPlain r.2.prototype.name = true := by
      intro names s hs hrun
      exact (turns_of_callAll (P := fun s => isPlain s.prototype.name = true)
        (fun s itf r hs hstep => ih hs hstep) hs hrun).1
    cases sequenceTurn h with
    | list _ hrun => exact hloop hplain hrun
    | unknown _ _ hr =>
      rw [hr]
      exact hplain
    | declared _ itf _ hfound _ =>
      rw [(SequenceSearch.defines_plain hplain itf).1] at hfound
      cases hfound
    | parents _ itf _ _ hrun => exact hloop (SequenceSearch.defines_plain hplain itf).2 hrun

/-- A lookup of a sequence without a scope goes to all names next to the name. -/
theorem nameDefinesSequence_parents (fuel : Nat) (name : Word) (s : SequenceSearch)
    (hplain : isPlain s.prototype.name = true)
    (h : (nameDefinesSequence w (fuel + 1) name [] s).isSome) :
    ∀ m ∈ parentNames w name, ∃ s', isPlain s'.prototype.name = true ∧
      (nameDefinesSequence w fuel m [] s').isSome := by
  obtain ⟨r, hrun⟩ := Option.isSome_iff_exists.1 h
  intro m hm
  cases sequenceTurn hrun with
  | list hname _ =>
    rw [parentNames, if_pos hname] at hm
    cases hm
  | unknown hname hreg _ =>
    rw [parentNames, if_neg hname, hreg] at hm
    cases hm
  | declared _ itf _ hfound _ =>
    rw [(SequenceSearch.defines_plain hplain itf).1] at hfound
    cases hfound
  | parents hname itf hreg _ hloop =>
    rw [parentNames_of_registered hname hreg] at hm
    exact (turns_of_callAll (P := fun s => isPlain s.prototype.name = true)
      (fun s itf r hs hstep => nameDefinesSequence_plain hs hstep)
      (SequenceSearch.defines_plain hplain itf).2 hloop).2 m hm

/-! ## Termination -/

/-- No path of inheritance leads from an interface of the file to a cycle: neither over the nodes the pass
has put together, nor over the names under which interfaces are registered. -/
structure Acyclic (w : Interfaces) : Prop where
  nodes : ∀ itf ∈ w.file, ¬ LeadsToCycle w.parents ⟨true, itf⟩
  names : ∀ itf ∈ w.file, ¬ LeadsToCycle (parentNames w) itf.name

/-- The lookups end, for every type, pointcut and sequence: from every interface of the file, and for a
sequence also from any list of such interfaces. -/
structure LookupsTerminate (w : Interfaces) : Prop where
  types : ∀ itf ∈ w.file, ∀ rtype s, Terminates fun fuel => hasType w rtype fuel ⟨true, itf⟩ s
  pointcuts : ∀ itf ∈ w.file, ∀ s, Terminates fun fuel => checkPointcut w fuel ⟨true, itf⟩ s
  sequences : ∀ itf ∈ w.file, ∀ s, Terminates fun fuel => nameDefinesSequence w fuel itf.name [] s
  lists : ∀ names ⊆ w.file.map Itf.name, ∀ s,
    Terminates fun fuel => nameDefinesSequence w fuel Word.blank names s

/-- A type without a scope. -/
def plainType : RType := ⟨rtxNodeIdentifier Word.blank, []⟩

/-- From grounded names every lookup of a sequence ends, and so does one over a list. -/
theorem terminates_list {names : List Word} (h : ∀ name ∈ names, Grounded (parentNames w) name)
    (s : SequenceSearch) : Terminates fun fuel => nameDefinesSequence w fuel Word.blank names s := by
  obtain ⟨bound, hbound⟩ := exists_bound
    (P := fun name fuel => ∀ s, (nameDefinesSequence w fuel name [] s).isSome)
    fun name hname => terminates_of_grounded isSome_nameDefinesSequence (h name hname)
  refine ⟨bound + 1, fun fuel hfuel => ?_⟩
  obtain ⟨k, rfl⟩ := Nat.exists_eq_add_of_le' (Nat.le_of_add_left_le hfuel)
  show (callAll (fun s itf => nameDefinesSequence w k itf [] s) s names).isSome
  exact isSome_callAll (hbound k (Nat.le_of_add_le_add_right hfuel))

/-- **The lookups end** exactly when inheritance has no cycle. -/
theorem lookupsTerminate_iff (w : Interfaces) : LookupsTerminate w ↔ Acyclic w := by
  have hnodes : ∀ {n}, Grounded w.parents n ↔ ¬ LeadsToCycle w.parents n :=
    grounded_iff mem_nodes_of_mem_parents
  have hnames : ∀ {n}, Grounded (parentNames w) n ↔ ¬ LeadsToCycle (parentNames w) n :=
    grounded_iff mem_allParentNames
  constructor
  · intro h
    constructor
    case nodes =>
      intro itf hitf
      obtain ⟨bound, hbound⟩ := h.types itf hitf plainType []
      have hground := grounded_of_terminates (P := fun _ => True) (fun _ _ => rfl)
        (fun fuel n s _ hrun m hm => by
          obtain ⟨s', hs'⟩ := hasType_parents rfl fuel n s hrun m hm
          exact ⟨s', trivial, hs'⟩) trivial (hbound bound le_rfl)
      exact hnodes.1 hground
    case names =>
      intro itf hitf
      obtain ⟨bound, hbound⟩ := h.sequences itf hitf ⟨plainType, []⟩
      have hground := grounded_of_terminates (P := fun s => isPlain s.prototype.name = true)
        (fun _ _ => rfl) (fun fuel n s hs hrun => nameDefinesSequence_parents fuel n s hs hrun) rfl
        (hbound bound le_rfl)
      exact hnames.1 hground
  · intro h
    constructor
    case types =>
      intro itf hitf rtype s
      obtain ⟨bound, hbound⟩ :=
        terminates_of_grounded (isSome_hasType rtype) (hnodes.2 (h.nodes itf hitf))
      exact ⟨bound, fun fuel hfuel => hbound fuel hfuel s⟩
    case pointcuts =>
      intro itf hitf s
      obtain ⟨bound, hbound⟩ :=
        terminates_of_grounded isSome_checkPointcut (hnodes.2 (h.nodes itf hitf))
      exact ⟨bound, fun fuel hfuel => hbound fuel hfuel s⟩
    case sequences =>
      intro itf hitf s
      obtain ⟨bound, hbound⟩ :=
        terminates_of_grounded isSome_nameDefinesSequence (hnames.2 (h.names itf hitf))
      exact ⟨bound, fun fuel hfuel => hbound fuel hfuel s⟩
    case lists =>
      intro names hnamed s
      refine terminates_list (fun name hname => ?_) s
      obtain ⟨itf, hitf, rfl⟩ := List.mem_map.1 (hnamed hname)
      exact hnames.2 (h.names itf hitf)

/-- An interface that inherits from itself. -/
def selfItf : Itf := ⟨⟨"LKM", .refl true⟩, [], Table.empty, Table.empty, [⟨"LKM", .refl true⟩]⟩

/-- A file with this interface. -/
def selfFile : Interfaces := ⟨[.itf selfItf], Table.empty, fun _ _ => false⟩

/-- The pass accepts the file, and the lookup of a type, a pointcut or a sequence without a scope does
not end. -/
theorem self_inheritance_accepted : selfFile.checkInheritanceAll selfFile.source = true ∧ ∀ fuel,
    hasType selfFile plainType fuel ⟨true, selfItf⟩ [] = none ∧
      checkPointcut selfFile fuel ⟨true, selfItf⟩ ⟨plainType, Table.empty, []⟩ = none ∧
      nameDefinesSequence selfFile fuel selfItf.name [] ⟨plainType, []⟩ = none := by
  refine ⟨by decide, fun fuel => ?_⟩
  induction fuel with
  | zero => exact ⟨rfl, rfl, rfl⟩
  | succ fuel ih =>
    obtain ⟨htype, hpointcut, hsequence⟩ := ih
    -- each lookup does nothing but call itself for the interface
    have htypeStep : hasType selfFile plainType (fuel + 1) ⟨true, selfItf⟩ [] =
        callAll (fun s m => hasType selfFile plainType fuel m s) [] [⟨true, selfItf⟩] := rfl
    have hpointcutStep : checkPointcut selfFile (fuel + 1) ⟨true, selfItf⟩ ⟨plainType, Table.empty, []⟩ =
        callAll (fun s m => checkPointcut selfFile fuel m s) ⟨plainType, Table.empty, []⟩
          [⟨true, selfItf⟩] := rfl
    have hsequenceStep : nameDefinesSequence selfFile (fuel + 1) selfItf.name [] ⟨plainType, []⟩ =
        callAll (fun s m => nameDefinesSequence selfFile fuel m [] s) ⟨plainType, []⟩ [selfItf.name] :=
      rfl
    rw [htypeStep, hpointcutStep, hsequenceStep, callAll, callAll, callAll, htype, hpointcut, hsequence]
    exact ⟨Option.bind_none _, Option.bind_none _, Option.bind_none _⟩

end Rathaxes.Mid
