import Rathaxes.Resolve.Arguments

/-!
# Checked calls and their arguments

A call whose arguments are accepted by `rtxNodeCall_paramType` is resolved later, when the chunk of the
called sequence is instantiated. The two sides do not agree on registers: the check accepts them, their
fields and the values of these, and none of them can be made an argument unless the caller has an
argument of the same name (`buildParameterResVals_iff`).
-/

set_option autoImplicit false

namespace Rathaxes.Resolve

open CodeWorker Front

variable {srcResVals : List Arg}

/-! ## One argument -/

/-- The container has an argument of this name. -/
def Has (args : List Arg) (name : String) : Prop := ∃ arg ∈ args, arg.name = name

theorem isSome_getArgByName {args : List Arg} {name : String} :
    (getArgByName args name).isSome ↔ Has args name := by
  unfold getArgByName Has
  rw [List.find?_isSome]
  simp

/-- One argument of the call can be appended to a container. -/
def Resolves (srcResVals : List Arg) (srcP : CallArg) : Prop :=
  ∃ type value, paramResVal srcResVals srcP = .ok (some (type, value)) ∧ value.isValue = true

/-- **Which arguments can be made**: those the caller has, and literals. -/
theorem resolves_iff {srcP : CallArg} : Resolves srcResVals srcP ↔
    Has srcResVals srcP.val ∨ srcP.kind = .string ∨ srcP.kind = .number := by
  unfold Resolves paramResVal
  rw [← isSome_getArgByName]
  cases hfound : getArgByName srcResVals srcP.val with
  | some srcArg => simp [Arg.typeAndValue, srcArg.isValue]
  | none =>
    cases hkind : srcP.kind <;>
      simp [rtxNode2cnormNode, hkind, CNode.lookupId, CNode.isValue, Arg.typeAndValue, hfound, bind,
        Except.bind, pure, Except.pure]

/-! ## All arguments -/

theorem appendArg_of_fresh {args : List Arg} {name : String} (hfresh : name ∉ args.map Arg.name)
    (type : RType) {value : CNode} (hvalue : value.isValue = true) :
    appendArg args name type value = .ok (some (args ++ [⟨name, type, value, hvalue⟩])) := by
  have hnone : (args.any fun arg => arg.name = name) = false := by
    simpa using hfresh
  unfold appendArg rtxNodeArg
  rw [hnone, dif_pos hvalue]
  rfl

/-- What could be appended is a value. -/
theorem isValue_of_appendArg {args : List Arg} {name : String} {type : RType} {value : CNode}
    {args' : List Arg} (h : appendArg args name type value = .ok (some args')) :
    value.isValue = true := by
  unfold appendArg rtxNodeArg at h
  split at h
  · cases h
  · split at h
    · assumption
    · cases h

/-- A parameter the loop gets over has been resolved. -/
theorem resolves_of_buildResVals {srcParams : List CallArg} {srcP : CallArg} {dstP : String × Nat}
    {rest : List (String × Nat)} {acc resVals : List Arg} (hread : getAt srcParams dstP.2 = .ok srcP)
    (h : buildResVals srcResVals srcParams (dstP :: rest) acc = .ok (resVals, true)) :
    Resolves srcResVals srcP := by
  rw [buildResVals] at h
  obtain ⟨_, hsource, h⟩ := bind_eq_ok_iff.1 h
  cases hread.symm.trans hsource
  obtain ⟨found, hparam, h⟩ := bind_eq_ok_iff.1 h
  cases found with
  | none => cases h
  | some found =>
    obtain ⟨appended, happend, h⟩ := bind_eq_ok_iff.1 h
    cases appended with
    | none => cases h
    | some args => exact ⟨found.1, found.2, hparam, isValue_of_appendArg happend⟩

/-- The loop from a parameter on: the arguments in front have been read, and the container has other
names. -/
theorem buildResVals_iff : ∀ (names : List String) (front rest : List CallArg) (acc : List Arg),
    rest.length = names.length → names.Nodup → (acc.map Arg.name).Disjoint names →
    ((∃ resVals, buildResVals srcResVals (front ++ rest) (names.zipIdx front.length) acc =
        .ok (resVals, true) ∧ resVals.map Arg.name = acc.map Arg.name ++ names) ↔
      ∀ srcP ∈ rest, Resolves srcResVals srcP) := by
  intro names
  induction names with
  | nil =>
    intro front rest acc hlength _ _
    rw [List.length_eq_zero_iff.1 hlength]
    exact ⟨fun _ srcP h => (nomatch h), fun _ => ⟨acc, rfl, (List.append_nil _).symm⟩⟩
  | cons name names ih =>
    intro front rest acc hlength hnodup hdisjoint
    obtain ⟨srcP, rest, rfl⟩ := List.exists_cons_of_length_eq_add_one hlength
    obtain ⟨hfresh, hnodup⟩ := List.nodup_cons.1 hnodup
    rw [List.disjoint_cons_right] at hdisjoint
    have hread : getAt (front ++ srcP :: rest) front.length = .ok srcP := getAt_between
    rw [List.zipIdx_cons, List.forall_mem_cons]
    -- once the argument is appended, the loop goes on behind it
    have hnext : ∀ type value, paramResVal srcResVals srcP = .ok (some (type, value)) →
        value.isValue = true →
        ((∃ resVals, buildResVals srcResVals (front ++ srcP :: rest)
            ((name, front.length) :: names.zipIdx (front.length + 1)) acc = .ok (resVals, true) ∧
              resVals.map Arg.name = acc.map Arg.name ++ name :: names) ↔
          ∀ srcP ∈ rest, Resolves srcResVals srcP) := by
      intro type value hparam hvalue
      have hlater := ih (front ++ [srcP]) rest (acc ++ [⟨name, type, value, hvalue⟩])
        (Nat.succ.inj hlength) hnodup (by
          rw [List.map_append, List.disjoint_append_left]
          exact ⟨hdisjoint.2, List.singleton_disjoint.2 hfresh⟩)
      rw [← hlater, List.append_assoc, List.length_append, List.map_append, List.append_assoc,
        buildResVals, hread]
      simp only [bind, Except.bind, hparam, appendArg_of_fresh hdisjoint.1 type hvalue]
      rfl
    constructor
    · rintro ⟨resVals, hbuild, hnames⟩
      have hresolves := resolves_of_buildResVals hread hbuild
      obtain ⟨type, value, hparam, hvalue⟩ := hresolves
      exact ⟨⟨type, value, hparam, hvalue⟩, (hnext type value hparam hvalue).1 ⟨resVals, hbuild, hnames⟩⟩
    · rintro ⟨⟨type, value, hparam, hvalue⟩, hrest⟩
      exact (hnext type value hparam hvalue).2 hrest

/-! ## Calls that pass the check -/

/-- The argument names a register, a field of one or a value of such a field. -/
def NamesRegister (theSequence : SequenceNode) (arg : CallArg) : Prop :=
  arg.kind = .registerField ∨ arg.kind = .registerValue ∨
    arg.kind = .symbol ∧ arg.val ∉ theSequence.seqParamName

/-- The argument passes the check. -/
def Passes (theSequence : SequenceNode) (arg : CallArg) : Prop :=
  ∃ type, paramType theSequence arg = .ok (some type)

/-- A field of a variable passes only under the name of a parameter. -/
theorem Passes.mem_seqParamName {theSequence : SequenceNode} {arg : CallArg}
    (h : Passes theSequence arg) (hkind : arg.kind = .dataField) :
    arg.val ∈ theSequence.seqParamName := by
  obtain ⟨type, htype⟩ := h
  simp only [paramType, hkind, findParamType] at htype
  cases hidx : theSequence.seqParamName.findIdx? (· = arg.val) with
  | none =>
    rw [hidx] at htype
    cases htype
  | some i =>
    obtain ⟨hlt, heq, -⟩ := List.findIdx?_eq_some_iff_getElem.1 hidx
    rw [← of_decide_eq_true heq]
    exact List.getElem_mem hlt

/-- What the caller has to have for an argument that passes the check. -/
theorem Passes.resolves_iff {theSequence : SequenceNode} {arg : CallArg} (h : Passes theSequence arg)
    (hcaller : ∀ name ∈ theSequence.seqParamName, Has srcResVals name) :
    Resolves srcResVals arg ↔ (NamesRegister theSequence arg → Has srcResVals arg.val) := by
  rw [Resolve.resolves_iff]
  unfold NamesRegister
  cases hkind : arg.kind with
  | string => simp
  | number => simp
  | symbol =>
    by_cases hparam : arg.val ∈ theSequence.seqParamName
    · simp [hparam, hcaller arg.val hparam]
    · simp [hparam]
  | dataField => simp [hcaller arg.val (h.mem_seqParamName hkind)]
  | registerField => simp
  | registerValue => simp

/-- **Calls that pass the check**: the arguments can be built, one for each parameter and in order,
exactly when the caller happens to have an argument of the name of each register in the call. -/
theorem buildParameterResVals_iff {theSequence : SequenceNode} {args : List CallArg}
    {names : List String} (hpasses : ∀ arg ∈ args, Passes theSequence arg)
    (hcaller : ∀ name ∈ theSequence.seqParamName, Has srcResVals name) (hnodup : names.Nodup)
    (hlength : args.length = names.length) :
    (∃ resVals, buildParameterResVals srcResVals args names = .ok (resVals, true) ∧
      resVals.map Arg.name = names) ↔
    ∀ arg ∈ args, NamesRegister theSequence arg → Has srcResVals arg.val := by
  have hloop := @buildResVals_iff srcResVals names [] args [] hlength hnodup (List.disjoint_nil_left _)
  refine hloop.trans (forall₂_congr fun arg harg => ?_)
  exact (hpasses arg harg).resolves_iff hcaller

/-- The implementation of a sequence with the parameter `dev`, in a device with the register `CTRL`,
which has a field `EN` with the value `ON`. -/
def openSequence : SequenceNode where
  rtype := ⟨rtxNodeIdentifier ⟨"open", .refl true⟩, [rtxNodeIdentifier ⟨"device", .refl true⟩]⟩
  seqParamName := ["dev"]
  device := [.register "CTRL", .sequence]
  registers := some (Table.empty.set "CTRL" ⟨some (Table.empty.set "EN" ⟨some ["ON"]⟩)⟩)

/-- The container of a caller that opens `pdev`. -/
def openResVals : List Arg :=
  [⟨"dev", ⟨rtxNodeIdentifier ⟨"device", .refl true⟩, []⟩, .terminalId "pdev", rfl⟩]

/-- A node of the given kind for the builtin type of the given name. -/
def argNode (kind : ArgKind) (type : Word) (val : String) (parts : List String) : CallArg :=
  ⟨kind, val, parts, ⟨builtin type, []⟩⟩

/-- A call with the number 3 and the parameter `dev`. -/
theorem buildParameterResVals_open : ∃ resVals,
    buildParameterResVals openResVals [argNode .number ⟨"number", rfl⟩ "3" [],
        argNode .symbol ⟨"symbol", rfl⟩ "dev" []] ["count", "target"] = .ok (resVals, true) ∧
      resVals.map Arg.name = ["count", "target"] := by
  have hpasses : ∀ arg ∈ [argNode .number ⟨"number", rfl⟩ "3" [],
      argNode .symbol ⟨"symbol", rfl⟩ "dev" []], Passes openSequence arg := by
    rw [List.forall_mem_cons, List.forall_mem_singleton]
    exact ⟨⟨_, rfl⟩, ⟨_, rfl⟩⟩
  have hcaller : ∀ name ∈ openSequence.seqParamName, Has openResVals name := by
    intro name hname
    rw [List.mem_singleton.1 hname]
    exact ⟨_, List.mem_cons_self, rfl⟩
  refine (buildParameterResVals_iff hpasses hcaller (by decide) rfl).2 ?_
  rw [List.forall_mem_cons, List.forall_mem_singleton]
  refine ⟨fun h => ?_, fun _ => ⟨_, List.mem_cons_self, rfl⟩⟩
  simp [NamesRegister, argNode] at h

/-- A register passes the check and no argument can be made of it; on a field the resolution ends with
an error. -/
theorem register_passes_and_fails :
    paramType openSequence (argNode .symbol ⟨"symbol", rfl⟩ "CTRL" []) =
        .ok (some (builtin ⟨"register", rfl⟩)) ∧
      buildParameterResVals openResVals [argNode .symbol ⟨"symbol", rfl⟩ "CTRL" []] ["reg"] =
        .ok ([], false) ∧
      paramType openSequence (argNode .registerField ⟨"register_field", rfl⟩ "" ["CTRL", "EN"]) =
        .ok (some (builtin ⟨"register_field", rfl⟩)) ∧
      buildParameterResVals openResVals
          [argNode .registerField ⟨"register_field", rfl⟩ "" ["CTRL", "EN"]] ["field"] =
        .error (cannotAddArg "field") :=
  ⟨rfl, rfl, rfl, rfl⟩

end Rathaxes.Resolve
