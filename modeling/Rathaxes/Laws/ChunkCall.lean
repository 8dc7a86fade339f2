import Rathaxes.Back.ChunkCall

/-!
# Which method a placeholder calls

Nothing is ever removed from the methods of the right name and number of parameters
(`checkChunkCall_eq`), so the types of the arguments have no say: the check accepts when there is such a method
and stores the first. It is right exactly when the first one has the types of the arguments, or when there is
none (`resolvesOverload_iff`).
-/

set_option autoImplicit false

namespace Rathaxes.Back

open CodeWorker Mid

variable {trees : TypeTrees} {theChunk : CallChunk} {placeHolder : ChunkCall} {itfType : TypeTree}

/-- The loop leaves the list it should fill as it was. -/
theorem foldl_eliminationTurn (prospects : List RType) (params : List (ArgNode × Nat)) (removeList : List Nat) :
    params.foldl (eliminationTurn prospects) removeList = removeList := by
  induction params with
  | nil => rfl
  | cons param params ih => exact ih

/-- **The check** stores the first method of the name with that many parameters. -/
theorem checkChunkCall_eq (htype : getType trees placeHolder.rtype = some itfType) :
    checkChunkCall trees theChunk placeHolder =
      ⟨(possibilities itfType placeHolder).head?.isSome, (possibilities itfType placeHolder).head?⟩ := by
  have hleft : ((possibilities itfType placeHolder).zipIdx.filter fun prospect => prospect.2 ∉ ([] : List Nat)).map
      Prod.fst = possibilities itfType placeHolder := by
    simp [List.filter_eq_self.2]
  unfold checkChunkCall
  simp only [htype, foldl_eliminationTurn, hleft]
  cases possibilities itfType placeHolder <;> rfl

/-- A prototype has these parameter types: the same names and scopes, position by position. -/
def HasTypes (types : List Ident) (pointcut : RType) : Prop :=
  pointcut.params.map (fun id => (id.name, id.scope)) = types.map fun id => (id.name, id.scope)

instance (types : List Ident) (pointcut : RType) : Decidable (HasTypes types pointcut) :=
  inferInstanceAs (Decidable (_ = _))

/-- A method that can be called: one of the type, with the name called and the types of the arguments. -/
structure Callable (itfType : TypeTree) (placeHolder : ChunkCall) (types : List Ident) (pointcut : RType) :
    Prop where
  method : pointcut ∈ itfType.methods
  name : pointcut.name.name = placeHolder.chunk
  types : HasTypes types pointcut

/-- The answer is whether a method can be called, and what is stored is one that can. -/
structure ResolvesOverload (itfType : TypeTree) (placeHolder : ChunkCall) (types : List Ident)
    (answer : CallAnswer) : Prop where
  found : answer.found = true ↔ ∃ pointcut, Callable itfType placeHolder types pointcut
  stored : answer.found = true → ∃ pointcut, answer.callRtype = some pointcut ∧
    Callable itfType placeHolder types pointcut

/-- A method that can be called has as many parameters as there are arguments. -/
theorem Callable.mem_possibilities {types : List Ident} {pointcut : RType}
    (h : Callable itfType placeHolder types pointcut)
    (hlength : types.length = placeHolder.parameters.length) :
    pointcut ∈ possibilities itfType placeHolder := by
  have hparams : pointcut.params.length = types.length := by
    simpa using congrArg List.length h.types
  exact List.mem_filter.2 ⟨h.method, by simp [h.name, hparams, hlength]⟩

theorem length_types {types : List Ident}
    (hknown : placeHolder.parameters.map (fun param => (theChunk.argNode param).type?) = types.map some) :
    types.length = placeHolder.parameters.length := by
  simpa using (congrArg List.length hknown).symm

/-- **Overloads are resolved**, where the types of all arguments are known, exactly when the first method of the
name and number of parameters has these types. -/
theorem resolvesOverload_iff (trees : TypeTrees) (theChunk : CallChunk) (placeHolder : ChunkCall)
    (itfType : TypeTree) (types : List Ident) (htype : getType trees placeHolder.rtype = some itfType)
    (hknown : placeHolder.parameters.map (fun param => (theChunk.argNode param).type?) = types.map some) :
    ResolvesOverload itfType placeHolder types (checkChunkCall trees theChunk placeHolder) ↔
      ∀ pointcut ∈ (possibilities itfType placeHolder).head?, HasTypes types pointcut := by
  rw [checkChunkCall_eq htype]
  constructor
  · intro h pointcut hfirst
    obtain ⟨stored, hstored, hcallable⟩ := h.stored (by rw [hfirst]; rfl)
    rw [hfirst] at hstored
    cases hstored
    exact hcallable.types
  · intro h
    have hfirst : ∀ pointcut, (possibilities itfType placeHolder).head? = some pointcut →
        Callable itfType placeHolder types pointcut := by
      intro pointcut hhead
      obtain ⟨hmethod, hname⟩ := List.mem_filter.1 (List.mem_of_mem_head? hhead)
      exact ⟨hmethod, (of_decide_eq_true hname).1, h pointcut hhead⟩
    constructor
    case found =>
      constructor
      · intro hsome
        obtain ⟨pointcut, hhead⟩ := Option.isSome_iff_exists.1 hsome
        exact ⟨pointcut, hfirst pointcut hhead⟩
      · rintro ⟨pointcut, hcallable⟩
        have hmem := hcallable.mem_possibilities (length_types hknown)
        simp only [List.isSome_head?]
        exact List.ne_nil_of_mem hmem
    case stored =>
      intro hsome
      obtain ⟨pointcut, hhead⟩ := Option.isSome_iff_exists.1 hsome
      exact ⟨pointcut, hhead, hfirst pointcut hhead⟩

/-! ## A type with two methods of one name -/

/-- The prototype `Socket::send(Builtin::name)`. -/
def sendOf (name : Word) : RType :=
  ⟨rtxNodeIdentifier ⟨"send", .refl true⟩ ⟨"Socket", .refl true⟩, [rtxNodeIdentifier name ⟨"Builtin", .refl true⟩]⟩

/-- `Net::Socket` has `send` for a number and for a string. -/
def socketTree : TypeTree :=
  ⟨⟨rtxNodeIdentifier ⟨"Socket", .refl true⟩ ⟨"Net", .refl true⟩, []⟩,
    [.method (sendOf ⟨"number", .refl true⟩), .method (sendOf ⟨"string", .refl true⟩)]⟩

/-- The trees of the one interface `Net`. -/
def netTrees : TypeTrees := fun name => if name = ⟨"Net", .refl true⟩ then some [socketTree] else none

/-- A chunk with a parameter `arg` of the type `Builtin::name`. -/
def argChunk (name : Word) : CallChunk :=
  ⟨Table.empty, ["arg"], ⟨rtxNodeIdentifier ⟨"call", .refl true⟩, [rtxNodeIdentifier name ⟨"Builtin", .refl true⟩]⟩⟩

/-- The call of `send` with this parameter. -/
def sendArg : ChunkCall := ⟨socketTree.rtype, ⟨"send", .refl true⟩, [["arg"]]⟩

theorem resolvesOverload_number :
    ResolvesOverload socketTree sendArg [rtxNodeIdentifier ⟨"number", rfl⟩ ⟨"Builtin", rfl⟩]
        (checkChunkCall netTrees (argChunk ⟨"number", rfl⟩) sendArg) ↔
      ∀ pointcut ∈ (possibilities socketTree sendArg).head?,
        HasTypes [rtxNodeIdentifier ⟨"number", rfl⟩ ⟨"Builtin", rfl⟩] pointcut :=
  resolvesOverload_iff netTrees (argChunk ⟨"number", rfl⟩) sendArg socketTree
    [rtxNodeIdentifier ⟨"number", rfl⟩ ⟨"Builtin", rfl⟩] (by rfl) (by decide)

/-- With a string the method for a number is called, and the one for a string is there. -/
theorem string_sent_as_number :
    checkChunkCall netTrees (argChunk ⟨"string", rfl⟩) sendArg = ⟨true, some (sendOf ⟨"number", rfl⟩)⟩ ∧
      ¬ HasTypes [rtxNodeIdentifier ⟨"string", rfl⟩ ⟨"Builtin", rfl⟩] (sendOf ⟨"number", rfl⟩) ∧
      HasTypes [rtxNodeIdentifier ⟨"string", rfl⟩ ⟨"Builtin", rfl⟩] (sendOf ⟨"string", rfl⟩) := by
  decide

end Rathaxes.Back
