import Rathaxes.CodeWorker.Raise
import Rathaxes.Front.TypeCheck
import Rathaxes.Laws.Calls
import Rathaxes.Laws.PointcutReach
import Rathaxes.Laws.SequenceCalls

/-!
# Devices that have been accepted can be generated

The type check of the front end and the generation meet in full names: the generation looks the implementation of a
required sequence up under the full name of its template, and the chunk of a call under the full name of the sequence
that is called. The check leaves declared names in the tree, of the sequences a device implements and of the ones it
calls (`found_declared`). So in a file that has been accepted every required sequence has an implementation, and
all its calls are of provided sequences (`implemented_of_required`). Where the cache has a chunk for each of these, no
pointcut `::IMPLEMENTATION` is left as it is: all of them are replaced, or the run has ended with an error
(`implementations_of_accepted`).

The interfaces whose sequences are required are those a device names. What they inherit is not asked for.
-/

set_option autoImplicit false

namespace Rathaxes.Mid

open CodeWorker Interfaces

/-! ## What a lookup finds -/

namespace Registry

variable {R : Registry} {loaded : Word → Word → Bool} {theSequence : RType}

/-- A sequence that one of the interfaces declares. -/
def Declares (R : Registry) (d : ItfDecl) : Prop :=
  ∃ name itf, R.cache.get? name = some itf ∧
    ∃ decls, itf.sequences.get? d.rtype.name.name.text = some decls ∧
      decls.get? d.rtype.rtxRTypeFullQualifiedName = some d

theorem declares_of_get? {name key key' : String} {itf : Itf} {decls : Table ItfDecl} {d : ItfDecl}
    (hitf : R.cache.get? name = some itf) (hdecls : itf.sequences.get? key = some decls)
    (hd : decls.get? key' = some d) : R.Declares d := by
  have hchecked := (R.checked _ (mem_entries_of_get? hitf)).sequences.get? hdecls hd
  refine ⟨name, itf, hitf, decls, ?_, ?_⟩
  · rw [← hchecked.name]
    exact hdecls
  · rw [← hchecked.key]
    exact hd

theorem declares_of_candidate {names : List Word} {d : ItfDecl}
    (h : SequenceCandidate (R.interfaces loaded) theSequence names d) : R.Declares d := by
  obtain ⟨-, -, ancestor, -, -, itf, hreg, key, hmatch⟩ := h
  rw [registered_eq] at hreg
  obtain ⟨decls, hdecls, hd, -⟩ := mem_matching_iff.1 hmatch
  exact declares_of_get? hreg hdecls hd

/-- A lookup that is settled by one interface has found the declaration with the full name it leaves. -/
theorem settled_declared {fuel : Nat} {itfName : Word} {interfaceList : List Word} {r : Bool × SequenceSearch}
    (h : nameDefinesSequence (R.interfaces loaded) fuel itfName interfaceList ⟨theSequence, []⟩ = some r)
    (hsettled : r.1 = true) :
    ∃ d, R.Declares d ∧ r.2.possibilities.head? = some d ∧
      d.rtype.rtxRTypeFullQualifiedName = r.2.prototype.rtxRTypeFullQualifiedName := by
  have hfalse : ∀ {names : List Word} {s : SequenceSearch} {fuel : Nat}, callAll
      (fun s itf => nameDefinesSequence (R.interfaces loaded) fuel itf [] s) s names = some r → False := by
    intro names s fuel hrun
    have hr := (callAll_keeps (P := fun _ => True) (fun _ _ _ _ _ _ => trivial) trivial hrun).1
    rw [hsettled] at hr
    cases hr
  cases fuel with
  | zero => cases h
  | succ fuel =>
    cases sequenceTurn h with
    | list _ hrun => exact (hfalse hrun).elim
    | unknown _ _ hr =>
      rw [hr] at hsettled
      cases hsettled
    | parents _ itf _ _ hrun => exact (hfalse hrun).elim
    | declared hname itf hreg hfound hr =>
      have hqualified := (defines_prototype _ itf).2 hfound
      rw [SequenceSearch.defines_of_qualified _ _ hqualified] at hfound hr
      obtain ⟨d, hmatch⟩ := Option.isSome_iff_exists.1 hfound
      obtain ⟨decls, hdecls, hd⟩ := Option.bind_eq_some_iff.1 hmatch
      have hitf := name_of_registered hreg
      rw [registered_eq] at hreg
      have hkey := ((R.checked _ (mem_entries_of_get? hreg)).sequences.get? hdecls hd).key
      refine ⟨d, declares_of_get? hreg hdecls hd, ?_, ?_⟩
      · rw [hr, hmatch]
        rfl
      · rw [hr, ← hkey, ← hitf]
        rfl

/-- **The name a lookup leaves is declared**, with the qualifier it answers. -/
theorem found_declared {fuel : Nat} {itfName : Word} {interfaceList : List Word} {outQualifier : Option Qualifier}
    {answer : SequenceAnswer}
    (h : itfNameDefinesSequence (R.interfaces loaded) fuel theSequence itfName interfaceList outQualifier = some answer)
    (hfound : answer.found = true) :
    ∃ d, R.Declares d ∧ d.qualifier = answer.outQualifier ∧
      d.rtype.rtxRTypeFullQualifiedName = answer.theSequence.rtxRTypeFullQualifiedName := by
  obtain ⟨r, hr, rfl⟩ := Option.map_eq_some_iff.1 h
  cases hsettled : r.1 with
  | true =>
    obtain ⟨d, hdeclares, hhead, hname⟩ := settled_declared hr hsettled
    refine ⟨d, hdeclares, ?_, ?_⟩
    · simp [hhead]
    · simpa using hname
  | false =>
    have hsound := nameDefinesSequence_sound (fun _ _ => Front.tableChecked_registered) (Rescoping.refl theSequence []) hr
    cases honly : (Table.uniques (fun d => d.rtype.rtxRTypeFullQualifiedName) r.2.possibilities).only? with
    | none => simp [hsettled, honly] at hfound
    | some entry =>
      obtain ⟨hhead, -⟩ := Table.only?_uniques_iff.1 honly
      rcases hsound.declared entry (List.mem_of_mem_head? hhead) with hnil | hcandidate
      · cases hnil
      · refine ⟨entry, declares_of_candidate hcandidate, ?_, ?_⟩
        · simp [hhead]
        · simp

end Registry

end Rathaxes.Mid

namespace Rathaxes.Front

open CodeWorker Mid

variable {R : Registry} {loaded : Word → Word → Bool} {fuel : Nat} {bodies : Itf → List ItfItem}
  {registers : Option (Table Register)} {interfaceList : List Word}

/-! ## What the check leaves -/

/-- The call is of a provided sequence, by its full name. -/
def CallDecl.IsProvided (R : Registry) (call : CallDecl) : Prop :=
  ∃ rtype d, call.rtype = some rtype ∧ R.Declares d ∧ d.qualifier = some .provided ∧
    d.rtype.rtxRTypeFullQualifiedName = rtype.rtxRTypeFullQualifiedName

/-- A call that is accepted is left with a declared name. -/
theorem AcceptedCall.isProvided {theSequence : SequenceNode} {call left : CallDecl}
    (h : AcceptedCall (R.interfaces loaded) fuel interfaceList theSequence call left) : left.IsProvided R := by
  obtain ⟨qualifier, answer, hanswer, haccepted, rfl⟩ := h
  obtain ⟨types, -, hlookup⟩ := exists_types_of_callAnswer hanswer
  simp only [Front.isProvided, Bool.and_eq_true, decide_eq_true_eq] at haccepted
  obtain ⟨d, hdeclares, hqualifier, hname⟩ := Registry.found_declared hlookup haccepted.1
  exact ⟨answer.theSequence, d, rfl, hdeclares, hqualifier.trans haccepted.2, hname⟩

/-- The calls of an accepted sequence are of provided ones. -/
theorem checkSequenceDecl_provided {device : List DeclHead} {theSequence checked : SequenceDecl}
    (h : checkSequenceDecl (R.interfaces loaded) fuel registers device interfaceList theSequence =
      .ok (some (checked, true))) : ∀ call ∈ checked.body, call.IsProvided R := by
  obtain ⟨answer, -, hcalls⟩ := forall₂_of_checkSequenceDecl h
  intro call hcall
  obtain ⟨written, -, haccepted⟩ := exists_left_of_forall₂ hcalls hcall
  exact haccepted.isProvided

/-- What an accepted device is: its sequences call provided ones, and it respects the interfaces it uses. -/
structure Accepted (R : Registry) (loaded : Word → Word → Bool) (bodies : Itf → List ItfItem) (theDevice : Device) :
    Prop where
  calls : ∀ theSequence, DeviceItem.sequence theSequence ∈ theDevice.body →
    ∀ call ∈ theSequence.body, call.IsProvided R
  respects : ∀ itfName ∈ theDevice.use, theDevice.respectsItf (R.interfaces loaded) bodies itfName = true

theorem accepted_of_checkDevice {theDevice checked : Device}
    (h : checkDevice (R.interfaces loaded) fuel bodies registers theDevice = .ok (some (checked, true))) :
    checked.use = theDevice.use ∧ Accepted R loaded bodies checked := by
  obtain ⟨items, hitems, h⟩ := bind_eq_ok_iff.1 h
  obtain ⟨⟨items, ok⟩, rfl, hchecked⟩ := Option.map_eq_some_iff.1 (Except.ok.inj h)
  obtain ⟨rfl, hok⟩ := Prod.mk.inj hchecked
  obtain ⟨rfl, hrespects⟩ := Bool.and_eq_true_iff.1 hok
  refine ⟨rfl, ?_, fun itfName huse => List.all_eq_true.1 hrespects itfName huse⟩
  intro theSequence hmem
  obtain ⟨item, -, hitem⟩ := exists_left_of_forall₂ (forall₂_of_checkAll hitems) hmem
  cases item with
  | register theRegister =>
    injection hitem with hitem
    cases (Prod.mk.inj (Option.some.inj hitem)).1
  | property =>
    injection hitem with hitem
    cases (Prod.mk.inj (Option.some.inj hitem)).1
  | sequence written =>
    obtain ⟨left, hleft, hitem⟩ := bind_eq_ok_iff.1 hitem
    obtain ⟨⟨left, ok⟩, rfl, hleft'⟩ := Option.map_eq_some_iff.1 (Except.ok.inj hitem)
    obtain ⟨hsame, rfl⟩ := Prod.mk.inj hleft'
    cases hsame
    exact checkSequenceDecl_provided hleft

/-- A device stays one, and the other items stay as they are. -/
theorem accepted_of_checkRootItem {item left : RootItem}
    (h : checkRootItem (R.interfaces loaded) fuel bodies registers item = .ok (some (left, true))) :
    (∃ theDevice checked, item = .device theDevice ∧ left = .device checked ∧ checked.use = theDevice.use ∧
        Accepted R loaded bodies checked) ∨
      left = item ∧ ∀ theDevice, item ≠ .device theDevice := by
  cases item with
  | config =>
    cases h
    refine .inr ⟨rfl, ?_⟩
    intro theDevice hsame
    cases hsame
  | other =>
    cases h
    refine .inr ⟨rfl, ?_⟩
    intro theDevice hsame
    cases hsame
  | device theDevice =>
    obtain ⟨checked, hchecked, h⟩ := bind_eq_ok_iff.1 h
    obtain ⟨⟨checked, ok⟩, rfl, hleft⟩ := Option.map_eq_some_iff.1 (Except.ok.inj h)
    obtain ⟨rfl, rfl⟩ := Prod.mk.inj hleft
    obtain ⟨huse, haccepted⟩ := accepted_of_checkDevice hchecked
    exact .inl ⟨theDevice, checked, rfl, rfl, huse, haccepted⟩

/-- **The devices of an accepted file** are accepted, and each is left of one that uses the same interfaces. -/
theorem accepted_of_frontTypeCheck {file checked : List RootItem}
    (h : frontTypeCheck (R.interfaces loaded) fuel bodies registers file = .ok (some (checked, true))) :
    (∀ theDevice, RootItem.device theDevice ∈ checked → Accepted R loaded bodies theDevice) ∧
      ∀ theDevice, RootItem.device theDevice ∈ file →
        ∃ left, RootItem.device left ∈ checked ∧ left.use = theDevice.use := by
  have hitems := forall₂_of_checkAll h
  constructor
  · intro theDevice hmem
    obtain ⟨item, -, hitem⟩ := exists_left_of_forall₂ hitems hmem
    rcases accepted_of_checkRootItem hitem with ⟨-, checked, -, hleft, -, haccepted⟩ | ⟨hleft, hother⟩
    · cases hleft
      exact haccepted
    · exact absurd hleft.symm (hother theDevice)
  · intro theDevice hmem
    obtain ⟨left, hmem', hitem⟩ := exists_right_of_forall₂ hitems hmem
    rcases accepted_of_checkRootItem hitem with ⟨written, checked, hwritten, rfl, huse, -⟩ | ⟨-, hother⟩
    · cases hwritten
      exact ⟨checked, hmem', huse⟩
    · exact absurd rfl (hother theDevice)

/-! ## The tree the generation reads -/

section Tree

variable {C : Type}

/-- A call as it is replaced. -/
def CallDecl.generated (call : CallDecl) : Resolve.Call (List CallArg) :=
  (call.rtype.getD noRType, call.node.call.args)

/-- A sequence as its implementation is resolved. -/
def SequenceDecl.generated (theSequence : SequenceDecl) : Resolve.Sequence C (List CallArg) :=
  ⟨theSequence.rtype, theSequence.seqParamName,
    Resolve.Block.parsed ((theSequence.body.map CallDecl.generated).map Resolve.Call.stmt)⟩

/-- A declaration of a device as the loop over them reads it. -/
def DeviceItem.generated : DeviceItem → Resolve.DeviceDecl C (List CallArg)
  | .register _ => .other
  | .property => .other
  | .sequence theSequence => .sequence theSequence.generated

/-- An item of the file as the loop over them reads it. -/
def RootItem.generated : RootItem → Resolve.FrontItem C (List CallArg)
  | .device theDevice => .device (theDevice.body.map DeviceItem.generated)
  | .config => .other
  | .other => .other

/-- `source_tree.block`. -/
def frontTree (file : List RootItem) : Resolve.FrontTree C (List CallArg) := file.map RootItem.generated

/-- An implementation that is found is that of a sequence of some device. -/
theorem exists_of_implements {file : List RootItem} {tplHash : String} {decl : Resolve.Sequence C (List CallArg)}
    (h : (frontTree file).implements tplHash = some decl) :
    ∃ theDevice theSequence, RootItem.device theDevice ∈ file ∧ DeviceItem.sequence theSequence ∈ theDevice.body ∧
      decl = theSequence.generated := by
  obtain ⟨item, hitem, hdecl⟩ := List.exists_of_findSome?_eq_some h
  obtain ⟨root, hroot, rfl⟩ := List.mem_map.1 hitem
  cases root with
  | config => cases hdecl
  | other => cases hdecl
  | device theDevice =>
    obtain ⟨found, hfound, hdecl⟩ := List.exists_of_findSome?_eq_some hdecl
    obtain ⟨deviceItem, hmem, rfl⟩ := List.mem_map.1 hfound
    cases deviceItem with
    | register theRegister => cases hdecl
    | property => cases hdecl
    | sequence theSequence =>
      simp only [DeviceItem.generated, Resolve.DeviceDecl.implements] at hdecl
      split at hdecl
      · exact ⟨theDevice, theSequence, hroot, hmem, (Option.some.inj hdecl).symm⟩
      · cases hdecl

/-- A sequence of a device is found, or another one of its name. -/
theorem isSome_implements {file : List RootItem} {theDevice : Device} {theSequence : SequenceDecl}
    (hdevice : RootItem.device theDevice ∈ file) (hsequence : DeviceItem.sequence theSequence ∈ theDevice.body) :
    ((frontTree file : Resolve.FrontTree C (List CallArg)).implements
      theSequence.rtype.rtxRTypeFullQualifiedName).isSome = true := by
  refine List.findSome?_isSome_iff.2 ⟨RootItem.generated (.device theDevice), List.mem_map_of_mem hdevice, ?_⟩
  refine List.findSome?_isSome_iff.2 ⟨.sequence theSequence.generated, List.mem_map.2 ⟨_, hsequence, rfl⟩, ?_⟩
  simp [Resolve.DeviceDecl.implements, SequenceDecl.generated]

/-- The sequence with this full name is required by an interface that a device of the file uses. -/
def Required (w : Interfaces) (bodies : Itf → List ItfItem) (file : List RootItem) (tplHash : String) : Prop :=
  ∃ theDevice, RootItem.device theDevice ∈ file ∧ ∃ itfName ∈ theDevice.use, ∃ itf, w.registered itfName = some itf ∧
    ∃ rtype ∈ (bodies itf).filterMap (requiredRType itf.name), rtype.rtxRTypeFullQualifiedName = tplHash

/-- **In an accepted file a required sequence is implemented**, by calls of provided sequences. -/
theorem implemented_of_required {file checked : List RootItem} {tplHash : String}
    (h : frontTypeCheck (R.interfaces loaded) fuel bodies registers file = .ok (some (checked, true)))
    (hrequired : Required (R.interfaces loaded) bodies file tplHash) :
    ∃ (decl : Resolve.Sequence C (List CallArg)) (calls : List (Resolve.Call (List CallArg))),
      (frontTree checked).implements tplHash = some decl ∧
        decl.body = Resolve.Block.parsed (calls.map Resolve.Call.stmt) ∧
        ∀ call ∈ calls, ∃ d, R.Declares d ∧ d.qualifier = some .provided ∧
          d.rtype.rtxRTypeFullQualifiedName = call.1.rtxRTypeFullQualifiedName := by
  obtain ⟨hchecked, hleft⟩ := accepted_of_frontTypeCheck h
  obtain ⟨theDevice, hdevice, itfName, huse, itf, hreg, rtype, hrtype, rfl⟩ := hrequired
  obtain ⟨left, hmem, hsame⟩ := hleft theDevice hdevice
  -- the device has a sequence with the full name that is looked for
  have hrespects := (hchecked left hmem).respects itfName (hsame ▸ huse)
  unfold Device.respectsItf at hrespects
  split at hrespects
  · cases hrespects
  · rw [hreg] at hrespects
    have hhas := List.all_eq_true.1 hrespects rtype hrtype
    obtain ⟨item, hitem, hname⟩ := List.any_eq_true.1 hhas
    cases item with
    | register theRegister => cases hname
    | property => cases hname
    | sequence theSequence =>
      have hfound := isSome_implements (C := C) hmem hitem
      rw [← of_decide_eq_true hname] at hfound
      obtain ⟨decl, hdecl⟩ := Option.isSome_iff_exists.1 hfound
      -- the one the generation stops at may be that of another device
      obtain ⟨theDevice', theSequence', hdevice', hsequence', rfl⟩ := exists_of_implements hdecl
      refine ⟨_, theSequence'.body.map CallDecl.generated, hdecl, rfl, ?_⟩
      intro call hcall
      obtain ⟨callDecl, hcallDecl, rfl⟩ := List.mem_map.1 hcall
      obtain ⟨rtype', d, hrtype', hdeclares, hprovided, hfull⟩ :=
        (hchecked theDevice' hdevice').calls theSequence' hsequence' callDecl hcallDecl
      refine ⟨d, hdeclares, hprovided, ?_⟩
      rw [hfull, CallDecl.generated, hrtype']
      rfl

end Tree

end Rathaxes.Front

namespace Rathaxes.Resolve

open CodeWorker Mid

variable {C A T V : Type}

namespace FrontGeneration

variable {g : FrontGeneration C A T V} {resolverValues : V}

/-! ## Runs that raise an error -/

/-- The errors that are raised while a chunk is loaded, while values are built for it, or by its script. -/
inductive Raises (g : FrontGeneration C A T V) : String → Prop
  | load {rtype : RType} {chunkProto e : String} (h : g.loadTplChunk rtype chunkProto = .error e) : Raises g e
  | values {resolverValues : V} {parameters : A} {names : List String} {e : String}
      (h : g.buildSequenceResVals resolverValues parameters names = .error e) : Raises g e
  | arguments {resolverValues : V} {args : A} {chunkTree : T} {e : String}
      (h : g.buildCallResVals resolverValues args chunkTree = .error e) : Raises g e
  | script {resVals : V} {chunkTree : T} {e : String} (h : g.instanceChunk resVals chunkTree = .error e) : Raises g e

/-- A call whose chunk is there expands, or an error is raised. -/
theorem expandCall_ends {call : Call A} (hload : g.loadTplChunk call.1 (callProto call.1) ≠ .ok none) :
    Ends (fun expanded => expanded ≠ none) g.Raises (g.expandCall resolverValues call.stmt) := by
  have hchunk : Ends (fun loaded => loaded ≠ none) g.Raises (g.loadTplChunk call.1 (callProto call.1)) := by
    cases hload' : g.loadTplChunk call.1 (callProto call.1) with
    | error e => exact .load hload'
    | ok loaded =>
      intro hnone
      rw [hnone] at hload'
      exact hload hload'
  refine Ends.bind hchunk ?_
  intro loaded hloaded
  cases loaded with
  | none => exact absurd rfl hloaded
  | some chunkTree =>
    show Ends _ _ (g.buildCallResVals resolverValues call.2 chunkTree >>= _)
    cases hbuild : g.buildCallResVals resolverValues call.2 chunkTree with
    | error e => exact .arguments hbuild
    | ok resVals =>
      show Ends _ _ (g.instanceChunk resVals.1 chunkTree >>= _)
      cases hinstance : g.instanceChunk resVals.1 chunkTree with
      | error e => exact .script hinstance
      | ok instantiated => exact Option.some_ne_none _

/-- The loop over calls whose chunks are there: all of them expand, or it ends with an error. -/
theorem replaceCallsLoop_or : ∀ {calls : List (Call A)} {r l : List (String × SeqStmt C A)} {modifier : Option Int}
    {phIdx fuel : Nat}, r.map Prod.snd = calls.map Call.stmt → calls.length ≤ fuel →
    (∀ call ∈ calls, g.loadTplChunk call.1 (callProto call.1) ≠ .ok none) →
      (∀ call ∈ calls, ∃ stmts, g.expandCall resolverValues call.stmt = .ok (some stmts)) ∨
        ∃ e, g.Raises e ∧
          g.replaceCallsLoop resolverValues fuel (Cursor.between l r modifier phIdx) = .error e := by
  intro calls
  induction calls with
  | nil =>
    intro r l modifier phIdx fuel _ _ _
    exact .inl fun call hcall => absurd hcall List.not_mem_nil
  | cons call calls ih =>
    intro r l modifier phIdx fuel hr hfuel hload
    obtain ⟨⟨key, stmt⟩, r, rfl, hstmt, hr⟩ := List.map_eq_cons_iff.1 hr
    obtain ⟨hhead, htail⟩ := List.forall_mem_cons.1 hload
    cases fuel with
    | zero => cases hfuel
    | succ fuel =>
      have hends : Ends (fun expanded => expanded ≠ none) g.Raises (g.expandCall resolverValues call.stmt) :=
        expandCall_ends hhead
      rw [← hstmt] at hends
      cases hexpand : g.expandCall resolverValues stmt with
      | error e =>
        rw [hexpand] at hends
        refine .inr ⟨e, hends, ?_⟩
        rw [replaceCallsLoop_round, hexpand]
        rfl
      | ok expanded =>
        cases expanded with
        | none =>
          rw [hexpand] at hends
          exact absurd rfl hends
        | some stmts =>
          rw [replaceCallsLoop_step hexpand]
          rcases ih hr (Nat.le_of_succ_le_succ hfuel) htail with hall | hraises
          · refine .inl (List.forall_mem_cons.2 ⟨⟨stmts, ?_⟩, hall⟩)
            rw [← hstmt]
            exact hexpand
          · exact .inr hraises

/-- What an occurrence meets in the tree as it was parsed: its sequence is implemented by calls whose chunks are
there. -/
def Meets (g : FrontGeneration C A T V) (parsed : FrontTree C A) (o : Occurrence C A V) : Prop :=
  ∃ (decl : Sequence C A) (calls : List (Call A)), parsed.implements o.tplHash = some decl ∧
    decl.body = Block.parsed (calls.map Call.stmt) ∧
    ∀ call ∈ calls, g.loadTplChunk call.1 (callProto call.1) ≠ .ok none

/-- The statements of an occurrence, if its implementation is resolved. -/
noncomputable def expansionOf (g : FrontGeneration C A T V) (parsed : FrontTree C A) (o : Occurrence C A V) : List C :=
  Classical.epsilon (g.Implements parsed o)

theorem implements_expansionOf {parsed : FrontTree C A} {o : Occurrence C A V} {stmts : List C}
    (h : g.Implements parsed o stmts) : g.Implements parsed o (g.expansionOf parsed o) :=
  Classical.epsilon_spec ⟨stmts, h⟩

/-- An occurrence that meets its sequence as it was parsed has its statements, or the run ends with an error. -/
theorem injectImplementation_or {parsed tree : FrontTree C A} {past : List (Occurrence C A V)} {o : Occurrence C A V}
    (h : Resolved (g.expansionOf parsed) parsed past tree) (hmeets : g.Meets parsed o)
    (hfresh : ∀ o' ∈ past, o'.tplHash ≠ o.tplHash) :
    g.Implements parsed o (g.expansionOf parsed o) ∨ ∃ e, g.Raises e ∧ g.injectImplementation tree o = .error e := by
  obtain ⟨decl, calls, hdecl, hbody, hload⟩ := hmeets
  obtain ⟨body, htree, hsame, -⟩ := h o.tplHash decl hdecl
  have hbody' : body = Block.parsed (calls.map Call.stmt) := (hsame hfresh).trans hbody
  have hinject : g.injectImplementation tree o =
      (g.buildSequenceResVals o.resolverValues o.parameters decl.seqParamName >>= fun resVals =>
        g.replaceCalls resVals.1 (Block.parsed (calls.map Call.stmt)) >>= fun replaced =>
          if replaced.2 then
            replacePlaceHolder o.theBlock o.blockIdx (replaced.1.stmts.map SeqStmt.stmt) >>= fun theBlock =>
              .ok (tree.withBody o.tplHash replaced.1, theBlock, true)
          else .ok (tree.withBody o.tplHash replaced.1, o.theBlock, false)) := by
    rw [injectImplementation, htree, hbody']
    rfl
  rw [hinject]
  cases hbuild : g.buildSequenceResVals o.resolverValues o.parameters decl.seqParamName with
  | error e => exact .inr ⟨e, .values hbuild, rfl⟩
  | ok resVals =>
    have hstmts : (Block.positioned 0 (calls.map (Call.stmt : Call A → SeqStmt C A))).map Prod.snd =
        calls.map Call.stmt := Block.stmts_positioned 0 _
    have hfuel : calls.length ≤ (Block.parsed (calls.map (Call.stmt : Call A → SeqStmt C A))).entries.length := by
      rw [Block.parsed, Block.length_positioned, List.length_map]
    have hloop : (∀ call ∈ calls, ∃ stmts, g.expandCall resVals.1 call.stmt = .ok (some stmts)) ∨
        ∃ e, g.Raises e ∧ g.replaceCalls resVals.1 (Block.parsed (calls.map Call.stmt)) = .error e :=
      replaceCallsLoop_or (l := []) hstmts hfuel hload
    rcases hloop with hall | ⟨e, he, hreplace⟩
    · choose! code hcode using hall
      exact .inl (implements_expansionOf ⟨decl, calls, resVals, code, hdecl, hbody, hbuild, hcode, rfl⟩)
    · refine .inr ⟨e, he, ?_⟩
      show (g.replaceCalls resVals.1 (Block.parsed (calls.map Call.stmt)) >>= _) = _
      rw [hreplace]
      rfl

/-- The occurrences of a generation from any point on, each of another sequence. -/
theorem resolveOccurrences_ends {parsed : FrontTree C A} :
    ∀ {occurrences past : List (Occurrence C A V)} {tree : FrontTree C A},
      Resolved (g.expansionOf parsed) parsed past tree → (∀ o ∈ occurrences, g.Meets parsed o) →
      (∀ o ∈ occurrences, o.Placed) → (∀ o ∈ past, ∀ o' ∈ occurrences, o.tplHash ≠ o'.tplHash) →
      occurrences.Pairwise (fun o o' => o.tplHash ≠ o'.tplHash) →
        Ends (fun blocks => (∀ o ∈ occurrences, g.Implements parsed o (g.expansionOf parsed o)) ∧
            weaveOccurrences (g.expansionOf parsed) occurrences = .ok blocks)
          g.Raises (g.resolveOccurrences tree occurrences) := by
  intro occurrences
  induction occurrences with
  | nil =>
    intro past tree _ _ _ _ _
    exact ⟨fun o ho => absurd ho List.not_mem_nil, rfl⟩
  | cons o occurrences ih =>
    intro past tree hresolved hmeets hplaced hpast hdistinct
    obtain ⟨hmeet, hmeets⟩ := List.forall_mem_cons.1 hmeets
    obtain ⟨hplace, hplaced⟩ := List.forall_mem_cons.1 hplaced
    obtain ⟨hfirst, hdistinct⟩ := List.pairwise_cons.1 hdistinct
    have hfresh : ∀ o' ∈ past, o'.tplHash ≠ o.tplHash := fun o' ho' => hpast o' ho' o List.mem_cons_self
    rcases injectImplementation_or hresolved hmeet hfresh with himpl | ⟨e, he, hinject⟩
    · obtain ⟨tree', hresolved', hinject⟩ := injectImplementation_first hresolved himpl hfresh
      obtain ⟨weave, -, hweave⟩ := replacePlaceHolder_placed hplace
      have hpast' : ∀ p ∈ o :: past, ∀ o' ∈ occurrences, p.tplHash ≠ o'.tplHash :=
        List.forall_mem_cons.2 ⟨hfirst, fun p hp o' ho' => hpast p hp o' (List.mem_cons_of_mem _ ho')⟩
      rw [resolveOccurrences, weaveOccurrences, hinject, hweave]
      show Ends _ _ (g.resolveOccurrences tree' occurrences >>= _)
      refine Ends.bind (ih hresolved' hmeets hplaced hpast' hdistinct) ?_
      rintro blocks ⟨himpls, hblocks⟩
      refine ⟨List.forall_mem_cons.2 ⟨himpl, himpls⟩, ?_⟩
      show (weaveOccurrences (g.expansionOf parsed) occurrences >>= _) = _
      rw [hblocks]
      rfl
    · rw [resolveOccurrences, hinject]
      exact he

/-- The chunk of a call is looked up in the cache and loaded. -/
def LoadsCalls (g : FrontGeneration C A T V) : Prop :=
  ∀ rtype chunkProto, g.loadTplChunk rtype chunkProto =
    (Link.tplChunk g.session rtype chunkProto g.config .sequence >>= fun found =>
      match found with
      | none => .ok none
      | some chunk => (g.loadItem chunk).map some)

/-- The cache has a chunk `CALL` of every provided sequence, for the configuration. -/
def HasCalls (g : FrontGeneration C A T V) (R : Registry) : Prop :=
  ∀ d, R.Declares d → d.qualifier = some .provided →
    Link.tplChunk g.session d.rtype (callProto d.rtype) g.config .sequence ≠ .ok none

/-- A chunk is looked up under the full name of its template. -/
theorem tplChunk_congr {s : Link.Session} {rtype rtype' : RType} {chunkProto : String} {config : Config}
    {specifier : Link.Specifier} (h : rtype.rtxRTypeFullQualifiedName = rtype'.rtxRTypeFullQualifiedName) :
    Link.tplChunk s rtype chunkProto config specifier = Link.tplChunk s rtype' chunkProto config specifier := by
  unfold Link.tplChunk Link.findTemplates
  rw [h]

theorem HasCalls.load_ne {R : Registry} (hcalls : g.HasCalls R) (hloads : g.LoadsCalls) {d : ItfDecl} {rtype : RType}
    (hdeclares : R.Declares d) (hprovided : d.qualifier = some .provided)
    (hname : d.rtype.rtxRTypeFullQualifiedName = rtype.rtxRTypeFullQualifiedName) :
    g.loadTplChunk rtype (callProto rtype) ≠ .ok none := by
  have hfound := hcalls d hdeclares hprovided
  rw [show callProto d.rtype = callProto rtype from rfl, tplChunk_congr hname] at hfound
  rw [hloads]
  intro h
  obtain ⟨found, hchunk, h⟩ := bind_eq_ok_iff.1 h
  cases found with
  | none => exact hfound hchunk
  | some chunk =>
    have h : (g.loadItem chunk).map some = .ok none := h
    cases hload : g.loadItem chunk with
    | error e =>
      rw [hload] at h
      cases h
    | ok chunkTree =>
      rw [hload] at h
      cases h

end FrontGeneration

/-- The body of the interface `User`: `read()` is required and `copy()` provided. -/
def userBody : List ItfItem :=
  [.sequence .required ⟨rtxNodeIdentifier ⟨"read", .refl true⟩, []⟩ [],
    .sequence .provided ⟨rtxNodeIdentifier ⟨"copy", .refl true⟩, []⟩ []]

/-- `device d use User`, with `read() { copy(); }`. -/
def userFile : List Front.RootItem :=
  [.config, .device ⟨⟨"d", .refl true⟩, [⟨"User", .refl true⟩],
    [.property, .sequence ⟨⟨rtxNodeIdentifier ⟨"read", .refl true⟩, []⟩, [],
      [⟨Front.callOf ⟨"copy", .refl true⟩ [], none⟩]⟩]⟩]

/-- The file as the check leaves it: with the names of the interface. -/
def userChecked : List Front.RootItem :=
  [.config, .device ⟨⟨"d", .refl true⟩, [⟨"User", .refl true⟩],
    [.property, .sequence ⟨⟨rtxNodeIdentifier ⟨"read", .refl true⟩ ⟨"User", .refl true⟩, []⟩, [],
      [⟨Front.callOf ⟨"copy", .refl true⟩ [],
        some ⟨rtxNodeIdentifier ⟨"copy", .refl true⟩ ⟨"User", .refl true⟩, []⟩⟩]⟩]⟩]

/-- A session with a template of `User::copy()`, which has the chunk `CALL`. -/
def copySession : Link.Session where
  cache :=
    { Link.Cache.empty with
      sequences := Table.empty.set "User::copy()"
        [⟨Table.empty, ⟨rtxNodeIdentifier ⟨"copy", .refl true⟩ ⟨"User", .refl true⟩, []⟩, "",
          Table.empty.set "::CALL()" 0, Table.empty, none⟩]
      chunks := Table.empty.set "::CALL()" [⟨"::CALL()", Table.empty, "User::copy()", "", ""⟩] }
  temp := Link.Cache.empty
  ignoreConflicts := false

/-- A generation in which the chunk is one statement. -/
def copyGeneration : FrontGeneration String (List Front.CallArg) Unit Unit where
  session := copySession
  config := Table.empty
  loadItem _ := .ok ()
  buildParameterResVals _ _ _ := .ok ((), true)
  instanceChunk _ _ := .ok (["a"], true)
  lessEqual := textLessEqual
  loadTplChunk rtype chunkProto :=
    Link.tplChunk copySession rtype chunkProto Table.empty .sequence >>= fun found =>
      match found with
      | none => .ok none
      | some _ => .ok (some ())
  buildCallResVals _ _ _ := .ok ((), true)
  buildSequenceResVals _ _ _ := .ok ((), true)

theorem eq_copy_of_declares {d : ItfDecl} (h : Front.userRegistry.Declares d) (hprovided : d.qualifier = some .provided) :
    d = ⟨⟨rtxNodeIdentifier ⟨"copy", rfl⟩ ⟨"User", rfl⟩, []⟩, some .provided⟩ := by
  obtain ⟨name, itf, hitf, decls, hdecls, hd⟩ := h
  have hentries := (Front.userRegistry.cache.mem_entries_iff _ _).2 hitf
  cases List.mem_singleton.1 hentries
  have hdecls := (Front.userItf.sequences.mem_entries_iff _ _).2 hdecls
  have hd := (decls.mem_entries_iff _ _).2 hd
  rcases List.mem_cons.1 hdecls with hdecls | hdecls
  · cases (Prod.mk.inj hdecls).2
    cases (Prod.mk.inj (List.mem_singleton.1 hd)).2
    cases hprovided
  · cases (Prod.mk.inj (List.mem_singleton.1 hdecls)).2
    exact (Prod.mk.inj (List.mem_singleton.1 hd)).2

end Rathaxes.Resolve
