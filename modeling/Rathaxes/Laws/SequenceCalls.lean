import Rathaxes.CodeWorker.Pass
import Rathaxes.Front.Sequence
import Rathaxes.Laws.PointcutLookup
import Rathaxes.Laws.SequenceScope

/-!
# The calls of an accepted sequence

What a lookup of a sequence finds is declared in an interface it can reach, whether it goes by parameters or by the
full name (`nameDefinesSequence_sound`). A call the check accepts is therefore declared as provided with the
types of its arguments. The loop of the check does not go into the braces behind a call, so in an accepted
sequence all calls are declared exactly when those in braces are (`accepted_calls_iff`).
-/

set_option autoImplicit false

namespace Rathaxes.Mid

open CodeWorker Interfaces

variable {w : Interfaces} {theSequence : RType}

/-- The interfaces a lookup starts with. -/
def startsAt (itfName : Word) (interfaceList : List Word) : List Word :=
  if itfName = Word.blank then interfaceList else [itfName]

/-- A candidate of a parent is one of the interface. -/
theorem SequenceCandidate.of_parent {name m : Word} {d : ItfDecl} (hm : m ∈ parentNames w name)
    (h : SequenceCandidate w theSequence (startsAt m []) d) : SequenceCandidate w theSequence [name] d := by
  unfold startsAt at h
  split at h
  · obtain ⟨name, hname, -⟩ := h
    cases hname
  · obtain ⟨m', hm', ancestor, hreach, hat⟩ := h
    cases List.mem_singleton.1 hm'
    exact ⟨name, List.mem_singleton_self _, ancestor, Relation.ReflTransGen.head hm hreach, hat⟩

/-- What an interface adds to a search. -/
theorem defines_sound {s : SequenceSearch} (hs : Rescoping theSequence s) {name : Word} (hname : name ≠ Word.blank)
    {itf : Itf} (hreg : w.registered name = some itf) (hchecked : TableChecked itf.name itf.sequences)
    {d : ItfDecl} (hd : d ∈ (s.defines itf).2.possibilities) :
    d ∈ s.possibilities ∨ SequenceCandidate w theSequence [name] d := by
  have hown : ∀ key, (key, d) ∈ matching itf.sequences theSequence → SequenceCandidate w theSequence [name] d :=
    fun key hmatch => ⟨name, List.mem_singleton_self _, name, Relation.ReflTransGen.refl, hname, itf, hreg, key, hmatch⟩
  cases hqualified : isQualified s.prototype with
  | false =>
    rw [s.defines_of_not_qualified itf hqualified] at hd
    simp only [SequenceSearch.byParameters, hs.matching_eq, List.mem_append, List.mem_map] at hd
    rcases hd with hd | ⟨⟨key, d'⟩, hmatch, rfl⟩
    · exact .inl hd
    · exact .inr (hown key hmatch)
  | true =>
    rw [s.defines_of_qualified itf hqualified, hs.exactMatch_eq] at hd
    simp only [List.mem_append, Option.mem_toList] at hd
    rcases hd with hd | hmatch
    · exact .inl hd
    · have hqualified' : isQualified theSequence = true := hs.qualified.symm.trans hqualified
      exact .inr (hown _ ((exactMatch_eq_some_iff hchecked hqualified').1 ⟨rfl, hmatch⟩).1)

/-- A candidate of an interface in use is one of those in use. -/
theorem SequenceCandidate.of_start {m : Word} {names : List Word} {d : ItfDecl} (hm : m ∈ names)
    (h : SequenceCandidate w theSequence (startsAt m []) d) : SequenceCandidate w theSequence names d := by
  unfold startsAt at h
  split at h
  · obtain ⟨name, hname, -⟩ := h
    cases hname
  · obtain ⟨m', hm', hrest⟩ := h
    cases List.mem_singleton.1 hm'
    exact ⟨m, hm, hrest⟩

/-- Asking an interface does not change the prototype, and only a qualified one is settled by it. -/
theorem defines_prototype (s : SequenceSearch) (itf : Itf) :
    (s.defines itf).2.prototype = s.prototype ∧ ((s.defines itf).1 = true → isQualified s.prototype = true) := by
  cases hqualified : isQualified s.prototype with
  | false =>
    rw [s.defines_of_not_qualified itf hqualified]
    exact ⟨rfl, fun htrue => (nomatch htrue)⟩
  | true =>
    rw [s.defines_of_qualified itf hqualified]
    exact ⟨rfl, fun _ => rfl⟩

/-- A search whose declarations are old ones, or candidates of the interfaces it starts with. -/
structure SoundSequences (w : Interfaces) (theSequence : RType) (starts : List Word) (old : List ItfDecl)
    (s : SequenceSearch) : Prop where
  rescoping : Rescoping theSequence s
  declared : ∀ d ∈ s.possibilities, d ∈ old ∨ SequenceCandidate w theSequence starts d

/-- A loop is sound when the names it goes over lead to candidates only. -/
theorem SoundSequences.callAll {step : SequenceSearch → Word → Option (Bool × SequenceSearch)} {starts names : List Word}
    {old : List ItfDecl} {s : SequenceSearch} {r : Bool × SequenceSearch}
    (hstep : ∀ m s r, Rescoping theSequence s → step s m = some r →
      SoundSequences w theSequence (startsAt m []) s.possibilities r.2)
    (hnames : ∀ m ∈ names, ∀ d, SequenceCandidate w theSequence (startsAt m []) d →
      SequenceCandidate w theSequence starts d)
    (hs : SoundSequences w theSequence starts old s) (hrun : CodeWorker.callAll step s names = some r) :
    SoundSequences w theSequence starts old r.2 := by
  refine (callAll_keeps (P := SoundSequences w theSequence starts old) ?_ hs hrun).2
  intro m hm s₁ r₁ hs₁ hturn
  have hsound := hstep m s₁ r₁ hs₁.rescoping hturn
  refine ⟨hsound.rescoping, fun d hd => ?_⟩
  rcases hsound.declared d hd with hd | hcandidate
  · exact hs₁.declared d hd
  · exact .inr (hnames m hm d hcandidate)

/-- **What a lookup finds is declared** in an interface it reaches. -/
theorem nameDefinesSequence_sound
    (hchecked : ∀ name itf, w.registered name = some itf → TableChecked itf.name itf.sequences) :
    ∀ {fuel : Nat} {name : Word} {list : List Word} {s : SequenceSearch} {r : Bool × SequenceSearch},
      Rescoping theSequence s → nameDefinesSequence w fuel name list s = some r →
      SoundSequences w theSequence (startsAt name list) s.possibilities r.2 := by
  intro fuel
  induction fuel with
  | zero =>
    intro name list s r _ h
    cases h
  | succ fuel ih =>
    intro name list s r hs h
    have hcalls : ∀ m s r, Rescoping theSequence s → nameDefinesSequence w fuel m [] s = some r →
        SoundSequences w theSequence (startsAt m []) s.possibilities r.2 := fun _ _ _ hs hrun => ih hs hrun
    -- what the interface itself declares, before its parents are asked
    have hown : name ≠ Word.blank → ∀ itf, w.registered name = some itf →
        SoundSequences w theSequence [name] s.possibilities (s.defines itf).2 := by
      intro hname itf hreg
      refine ⟨⟨?_, ?_⟩, fun d hd => defines_sound hs hname hreg (hchecked name itf hreg) hd⟩
      · rw [(defines_prototype s itf).1]
        exact hs.qualified
      · rw [(defines_prototype s itf).1]
        exact hs.same
    cases sequenceTurn h with
    | list hname hrun =>
      rw [show startsAt name list = list from if_pos hname]
      have hstart : SoundSequences w theSequence list s.possibilities s := ⟨hs, fun d hd => .inl hd⟩
      exact hstart.callAll hcalls (fun m hm d hcandidate => hcandidate.of_start hm) hrun
    | unknown hname _ hr =>
      rw [hr]
      exact ⟨hs, fun d hd => .inl hd⟩
    | declared hname itf hreg hfound hr =>
      rw [show startsAt name list = [name] from if_neg hname, hr]
      have hqualified : isQualified theSequence = true :=
        hs.qualified.symm.trans ((defines_prototype s itf).2 hfound)
      have hdeclared := hown hname itf hreg
      exact ⟨hdeclared.rescoping.rescope hqualified hname _, hdeclared.declared⟩
    | parents hname itf hreg _ hrun =>
      rw [show startsAt name list = [name] from if_neg hname]
      refine (hown hname itf hreg).callAll hcalls (fun m hm d hcandidate => hcandidate.of_parent ?_) hrun
      rw [parentNames_of_registered hname hreg]
      exact hm

/-- A lookup that succeeds with a qualifier has found a declaration with this qualifier. -/
theorem declared_of_found
    (hchecked : ∀ name itf, w.registered name = some itf → TableChecked itf.name itf.sequences) {fuel : Nat}
    {itfName : Word} {interfaceList : List Word} {outQualifier : Option Qualifier} {answer : SequenceAnswer}
    (h : itfNameDefinesSequence w fuel theSequence itfName interfaceList outQualifier = some answer)
    (hfound : answer.found = true) {q : Qualifier} (hq : answer.outQualifier = some q) :
    ∃ d, SequenceCandidate w theSequence (startsAt itfName interfaceList) d ∧ d.qualifier = some q := by
  unfold itfNameDefinesSequence at h
  obtain ⟨r, hr, rfl⟩ := Option.map_eq_some_iff.1 h
  have hsound := nameDefinesSequence_sound hchecked (Rescoping.refl theSequence []) hr
  have hfront : r.2.possibilities.head?.bind ItfDecl.qualifier = some q := by
    simp only at hfound hq
    split at hq
    · exact hq
    · split at hq
      · exact hq
      · simp_all
  obtain ⟨d, hhead, hd⟩ := Option.bind_eq_some_iff.1 hfront
  rcases hsound.declared d (List.mem_of_mem_head? hhead) with hnil | hcandidate
  · cases hnil
  · exact ⟨d, hcandidate, hd⟩

end Rathaxes.Mid

namespace Rathaxes.Front

open CodeWorker Mid

/-! ## Calls -/

mutual

/-- The call and the calls in its braces, at any depth. -/
def CallNode.calls : CallNode → List CallNode
  | .mk call body => .mk call body :: callsOf body

/-- All calls of a body. -/
def callsOf : List CallNode → List CallNode
  | [] => []
  | call :: rest => call.calls ++ callsOf rest

end

/-- The calls in the braces behind the calls of a body. -/
def inBraces (body : List CallNode) : List CallNode := body.flatMap fun call => callsOf call.body

theorem mem_callsOf_iff {call : CallNode} : ∀ (body : List CallNode),
    call ∈ callsOf body ↔ call ∈ body ∨ call ∈ inBraces body
  | [] => by simp [callsOf, inBraces]
  | .mk first inner :: rest => by
    rw [callsOf, CallNode.calls, List.mem_append, mem_callsOf_iff rest]
    simp only [inBraces, List.flatMap_cons, List.mem_append, List.mem_cons, CallNode.body]
    tauto

variable {R : Registry} {loaded : Word → Word → Bool} {interfaceList : List Word} {theSequence : SequenceNode}

/-- The types of the arguments are known, and a sequence is declared as provided with them: in the interface of the
scope or an ancestor, or without a scope in those in use. -/
def Provided (w : Interfaces) (interfaceList : List Word) (theSequence : SequenceNode) (theCall : Call) : Prop :=
  ∃ types, toRtype theCall theSequence = .ok (theCall.sequence, types.map some, true) ∧
    ∃ d, SequenceCandidate w ⟨theCall.sequence, types⟩ (startsAt theCall.sequence.scope interfaceList) d ∧
      d.qualifier = some .provided

theorem tableChecked_registered {name : Word} {itf : Itf} (h : (R.interfaces loaded).registered name = some itf) :
    TableChecked itf.name itf.sequences := by
  rw [Registry.registered_eq] at h
  exact (R.checked _ (Registry.mem_entries_of_get? h)).sequences

/-- Types that have all been found. -/
theorem eq_map_some_of_mapM : ∀ {params : List (Option Ident)} {types : List Ident},
    params.mapM id = some types → params = types.map some
  | [], types, h => by
    cases h
    rfl
  | param :: params, types, h => by
    simp only [List.mapM_cons, id, bind, Option.bind_eq_some_iff] at h
    obtain ⟨type, rfl, rest, hrest, heq⟩ := h
    cases heq
    rw [eq_map_some_of_mapM hrest]
    rfl

/-- What a prototype with all types known is made of. -/
theorem toRtype_eq {theCall : Call} {sequence : Ident} {params : List (Option Ident)} {complete : Bool}
    {types : List Ident} (h : toRtype theCall theSequence = .ok (sequence, params, complete))
    (htypes : params.mapM id = some types) :
    sequence = theCall.sequence ∧ params = types.map some ∧ complete = true := by
  obtain ⟨found, -, heq⟩ := bind_eq_ok_iff.1 h
  simp only [pure, Except.pure, Except.ok.injEq, Prod.mk.injEq] at heq
  obtain ⟨rfl, rfl, rfl⟩ := heq
  have hparams := eq_map_some_of_mapM htypes
  exact ⟨rfl, hparams, by rw [hparams]; simp⟩

/-- What the lookup of a call that is accepted was asked for. -/
theorem exists_types_of_callAnswer {w : Interfaces} {fuel : Nat} {qualifier : Option Qualifier} {theCall : Call}
    {answer : SequenceAnswer}
    (h : callAnswer w fuel interfaceList theSequence qualifier theCall = .ok (some answer)) :
    ∃ types, toRtype theCall theSequence = .ok (theCall.sequence, types.map some, true) ∧
      itfNameDefinesSequence w fuel ⟨theCall.sequence, types⟩ theCall.sequence.scope interfaceList qualifier =
        some answer := by
  obtain ⟨⟨sequence, params, complete⟩, hrtype, hlookup⟩ := bind_eq_ok_iff.1 h
  cases htypes : params.mapM id with
  | none =>
    simp only [htypes] at hlookup
    cases hlookup
  | some types =>
    obtain ⟨rfl, rfl, rfl⟩ := toRtype_eq hrtype htypes
    simp only [htypes] at hlookup
    exact ⟨types, hrtype, Except.ok.inj hlookup⟩

/-- A call the loop accepts, and what it leaves of it. -/
def AcceptedCall (w : Interfaces) (fuel : Nat) (interfaceList : List Word) (theSequence : SequenceNode)
    (call left : CallDecl) : Prop :=
  ∃ qualifier answer, callAnswer w fuel interfaceList theSequence qualifier call.node.call = .ok (some answer) ∧
    isProvided answer = true ∧ left = { call with rtype := some answer.theSequence }

/-- A call that is accepted is declared. -/
theorem AcceptedCall.provided {fuel : Nat} {call left : CallDecl}
    (h : AcceptedCall (R.interfaces loaded) fuel interfaceList theSequence call left) :
    Provided (R.interfaces loaded) interfaceList theSequence call.node.call := by
  obtain ⟨qualifier, answer, hanswer, haccepted, -⟩ := h
  obtain ⟨types, hrtype, hlookup⟩ := exists_types_of_callAnswer hanswer
  simp only [isProvided, Bool.and_eq_true, decide_eq_true_eq] at haccepted
  exact ⟨types, hrtype, declared_of_found (fun _ _ => tableChecked_registered) hlookup haccepted.1 haccepted.2⟩

/-- A loop without an error accepts every call. -/
theorem forall₂_of_checkCallDecls {w : Interfaces} {fuel : Nat} :
    ∀ {calls calls' : List CallDecl} {qualifier : Option Qualifier},
      checkCallDecls w fuel interfaceList theSequence qualifier calls = .ok (some (calls', 0)) →
        List.Forall₂ (AcceptedCall w fuel interfaceList theSequence) calls calls'
  | [], calls', qualifier, h => by
    cases h
    exact .nil
  | call :: calls, calls', qualifier, h => by
    obtain ⟨answer, hanswer, h⟩ := bind_eq_ok_iff.1 h
    cases answer with
    | none => cases h
    | some answer =>
      obtain ⟨rest, hrest, h⟩ := bind_eq_ok_iff.1 h
      cases rest with
      | none => cases h
      | some rest =>
        obtain ⟨rest, errcount⟩ := rest
        obtain ⟨rfl, herrors⟩ := Prod.mk.inj (Option.some.inj (Except.ok.inj h))
        cases haccepted : isProvided answer with
        | false =>
          rw [haccepted] at herrors
          cases herrors
        | true =>
          rw [haccepted] at herrors
          cases herrors
          exact .cons ⟨qualifier, answer, hanswer, haccepted, rfl⟩ (forall₂_of_checkCallDecls hrest)

/-- What the check of a sequence that is accepted has done: the prototype was found, and every call was accepted. -/
theorem forall₂_of_checkSequenceDecl {w : Interfaces} {fuel : Nat} {registers : Option (Table Register)}
    {device : List DeclHead} {theSequence checked : SequenceDecl}
    (h : checkSequenceDecl w fuel registers device interfaceList theSequence = .ok (some (checked, true))) :
    ∃ answer, itfNameDefinesSequence w fuel theSequence.rtype theSequence.rtype.name.scope interfaceList none =
        some answer ∧
      List.Forall₂ (AcceptedCall w fuel interfaceList
        (SequenceDecl.node { theSequence with rtype := answer.theSequence } device registers))
        theSequence.body checked.body := by
  unfold checkSequenceDecl at h
  split at h
  · cases h
  · next answer hanswer =>
    split at h
    · cases h
    · obtain ⟨calls, hcalls, h⟩ := bind_eq_ok_iff.1 h
      obtain ⟨⟨calls, errcount⟩, rfl, hchecked⟩ := Option.map_eq_some_iff.1 (Except.ok.inj h)
      obtain ⟨rfl, herrors⟩ := Prod.mk.inj hchecked
      cases of_decide_eq_true herrors
      exact ⟨answer, hanswer, forall₂_of_checkCallDecls hcalls⟩

/-- The sequence as the loop sees it: its prototype is the declared one. -/
def declaredSequence (w : Interfaces) (fuel : Nat) (theSequence : SequenceNode) (interfaceList : List Word) :
    Option SequenceNode :=
  (itfNameDefinesSequence w fuel theSequence.rtype theSequence.rtype.name.scope interfaceList none).map
    fun answer => { theSequence with rtype := answer.theSequence }

/-- **In an accepted sequence all calls are declared as provided** exactly when those in braces are. -/
theorem accepted_calls_iff (R : Registry) (loaded : Word → Word → Bool) (fuel : Nat) (theSequence declared : SequenceNode)
    (body : List CallNode) (interfaceList : List Word)
    (hdeclared : declaredSequence (R.interfaces loaded) fuel theSequence interfaceList = some declared)
    (haccepted : typeCheckSequence (R.interfaces loaded) fuel theSequence body interfaceList = .ok (some true)) :
    (∀ call ∈ callsOf body, Provided (R.interfaces loaded) interfaceList declared call.call) ↔
      ∀ call ∈ inBraces body, Provided (R.interfaces loaded) interfaceList declared call.call := by
  obtain ⟨answer, hanswer, rfl⟩ := Option.map_eq_some_iff.1 hdeclared
  have hdirect : ∀ call ∈ body, Provided (R.interfaces loaded) interfaceList
      { theSequence with rtype := answer.theSequence } call.call := by
    obtain ⟨checked, hcheck, h⟩ := bind_eq_ok_iff.1 haccepted
    obtain ⟨⟨checked, ok⟩, rfl, rfl⟩ := Option.map_eq_some_iff.1 (Except.ok.inj h)
    obtain ⟨answer', hanswer', hcalls⟩ := forall₂_of_checkSequenceDecl hcheck
    cases hanswer.symm.trans hanswer'
    intro call hcall
    obtain ⟨left, -, hleft⟩ := exists_right_of_forall₂ hcalls (List.mem_map_of_mem hcall)
    exact hleft.provided
  constructor
  · intro h call hcall
    exact h call ((mem_callsOf_iff _).2 (.inr hcall))
  · intro h call hcall
    rcases (mem_callsOf_iff _).1 hcall with hbody | hbraces
    · exact hdirect call hbody
    · exact h call hbraces

/-! ## A call in braces -/

/-- An interface with the required sequence `read()` and the provided sequence `copy()`. -/
def userItf : Itf :=
  let decl (name : Word) (qualifier : Qualifier) : ItfDecl :=
    ⟨⟨rtxNodeIdentifier name ⟨"User", .refl true⟩, []⟩, some qualifier⟩
  let table (d : ItfDecl) : Table ItfDecl := Table.empty.set d.rtype.rtxRTypeFullQualifiedName d
  ⟨⟨"User", .refl true⟩, [], Table.empty,
    (Table.empty.set "read" (table (decl ⟨"read", .refl true⟩ .required))).set "copy"
      (table (decl ⟨"copy", .refl true⟩ .provided)), []⟩

/-- The session with this interface. -/
def userRegistry : Registry where
  cache := Table.empty.set "User" userItf
  named := by decide
  checked := by decide

/-- `User::read() { ... }` of a device. -/
def readSequence : SequenceNode :=
  ⟨⟨rtxNodeIdentifier ⟨"read", .refl true⟩ ⟨"User", .refl true⟩, []⟩, [], [], none⟩

/-- A call without arguments. -/
def callOf (name : Word) (body : List CallNode) : CallNode := .mk ⟨rtxNodeIdentifier name, []⟩ body

/-- `copy() { copy(); } copy();`, with a provided call in the braces too. -/
theorem accepted_calls_copy :
    (∀ call ∈ callsOf [callOf ⟨"copy", rfl⟩ [callOf ⟨"copy", rfl⟩ []], callOf ⟨"copy", rfl⟩ []],
        Provided (userRegistry.interfaces fun _ _ => true) [⟨"User", rfl⟩] readSequence call.call) ↔
      ∀ call ∈ inBraces [callOf ⟨"copy", rfl⟩ [callOf ⟨"copy", rfl⟩ []], callOf ⟨"copy", rfl⟩ []],
        Provided (userRegistry.interfaces fun _ _ => true) [⟨"User", rfl⟩] readSequence call.call :=
  accepted_calls_iff userRegistry (fun _ _ => true) 2 readSequence readSequence
    [callOf ⟨"copy", rfl⟩ [callOf ⟨"copy", rfl⟩ []], callOf ⟨"copy", rfl⟩ []] [⟨"User", rfl⟩] (by rfl) (by rfl)

/-- `copy() { wait(); }` is accepted, and no interface declares a sequence `wait`. -/
theorem undeclared_call_accepted :
    typeCheckSequence (userRegistry.interfaces fun _ _ => true) 2 readSequence
        [callOf ⟨"copy", rfl⟩ [callOf ⟨"wait", rfl⟩ []]] [⟨"User", rfl⟩] = .ok (some true) ∧
      callOf ⟨"wait", rfl⟩ [] ∈ callsOf [callOf ⟨"copy", rfl⟩ [callOf ⟨"wait", rfl⟩ []]] ∧
      ¬ Provided (userRegistry.interfaces fun _ _ => true) [⟨"User", rfl⟩] readSequence
        (callOf ⟨"wait", rfl⟩ []).call := by
  refine ⟨by rfl, by simp [callOf, callsOf, CallNode.calls], ?_⟩
  rintro ⟨types, -, d, ⟨name, -, ancestor, -, -, itf, hreg, key, hmatch⟩, -⟩
  rw [Registry.registered_eq] at hreg
  change (Table.empty.set "User" userItf).get? ancestor.text = some itf at hreg
  rw [Table.get?_set, Table.get?_empty] at hreg
  split at hreg
  · cases hreg
    cases hmatch
  · cases hreg

end Rathaxes.Front
