import Rathaxes.Back.InferTypes

/-!
# What inferring types leaves of the tables

The types of a placeholder should follow from the tables of its chunk, whatever has been inferred before. The
handler for a pointcut writes to `type_map` when an argument is a chain of fields: the entry of its variable
becomes the type of the field. Placeholders are independent of each other exactly as long as no such chain has
a type other than that of its variable (`framed_iff`).
-/

set_option autoImplicit false

namespace Rathaxes.Back

open CodeWorker

variable (lookup : FieldLookup) (t : ChunkTypes)

/-! ## Types from the tables alone -/

/-- The types of parameters, each from these tables. -/
def paramsAlone (templateExpr : String) : Nat → List (List String) → Except String (List ParamType)
  | _, [] => .ok []
  | number, param :: params => do
    let inferred ← inferPointcutParam lookup templateExpr number param t
    let rest ← paramsAlone templateExpr (number + 1) params
    return inferred.1 :: rest

/-- The types of a placeholder, each from these tables. -/
def typesAlone : TypedPlaceHolder → Except String InferredTypes
  | .pointcut name templateExpr parameters => do
    return ⟨name, ← paramsAlone lookup t templateExpr 1 parameters, []⟩
  | .sequenceCall seqName seqArgs => do
    let argTypes ← seqArgs.mapM (inferSequenceArg lookup t)
    return ⟨seqName, argTypes.map TypeNode.name, argTypes⟩

/-- The types of placeholders, each from these tables. -/
def allAlone : List TypedPlaceHolder → Except String (List InferredTypes)
  | [] => .ok []
  | placeHolder :: placeHolders => do
    let inferred ← typesAlone lookup t placeHolder
    let rest ← allAlone placeHolders
    return inferred :: rest

/-- The tables are left as they are, and each placeholder has the types the tables give it. -/
def Framed (placeHolders : List TypedPlaceHolder) : Prop :=
  inferAll lookup placeHolders t = (allAlone lookup t placeHolders).map fun inferred => (inferred, t)

/-! ## One argument -/

/-- A chain of fields of an argument of the template, with a type other than that of the argument. -/
def Overwrites (identifiers : List String) : Prop :=
  ∃ entry fieldRtype, identifiers[0]?.getD "" ≠ "local" ∧ identifiers.length > 1 ∧
    t.typeMap.get? (identifiers[0]?.getD "") = some entry ∧
    lookup Table.empty entry identifiers.tail = .ok (some fieldRtype) ∧ fieldRtype ≠ entry

variable {lookup t}

theorem inferPointcutParam_frame {templateExpr : String} {number : Nat} {identifiers : List String}
    {r : ParamType × ChunkTypes} (hframe : ¬ Overwrites lookup t identifiers)
    (h : inferPointcutParam lookup templateExpr number identifiers t = .ok r) : r.2 = t := by
  unfold inferPointcutParam at h
  simp only at h
  split at h
  · -- a variable of the C code
    split at h
    · cases h
      rfl
    · cases h
      rfl
    · cases h
  · rename_i hlocal
    split at h
    · rename_i hchain
      cases hlookup : lookup Table.empty ((t.typeMap.get? (identifiers[0]?.getD "")).getD .other)
          identifiers.tail with
      | error e =>
        rw [hlookup] at h
        cases h
      | ok found =>
        rw [hlookup] at h
        cases found with
        | none => cases h
        | some fieldRtype =>
          cases h
          cases hentry : t.typeMap.get? (identifiers[0]?.getD "") with
          | none => rfl
          | some entry =>
            rw [hentry, Option.getD_some] at hlookup
            have hsame : fieldRtype = entry := by
              by_contra hne
              exact hframe ⟨entry, fieldRtype, hlocal, hchain, hentry, hlookup, hne⟩
            simp [hsame, Table.set_of_get? hentry]
    · cases h
      rfl

theorem inferPointcutParam_overwrites {identifiers : List String} (h : Overwrites lookup t identifiers)
    (templateExpr : String) (number : Nat) :
    ∃ r, inferPointcutParam lookup templateExpr number identifiers t = .ok r ∧ r.2 ≠ t := by
  obtain ⟨entry, fieldRtype, hlocal, hchain, hentry, hlookup, hne⟩ := h
  refine ⟨(.node fieldRtype,
    { t with typeMap := t.typeMap.set (identifiers[0]?.getD "") fieldRtype }), ?_, ?_⟩
  · unfold inferPointcutParam
    simp only [hlocal, hchain, hentry, Option.getD_some, if_true, if_false, hlookup, Option.isSome_some]
    rfl
  · intro hsame
    have hget := congrArg (fun t => t.typeMap.get? (identifiers[0]?.getD "")) hsame
    simp only [Table.get?_set, if_true, hentry, Option.some.injEq] at hget
    exact hne hget

/-! ## Placeholders -/

/-- The arguments of the pointcut of a placeholder. -/
def TypedPlaceHolder.pointcutArgs : TypedPlaceHolder → List (List String)
  | .pointcut _ _ parameters => parameters
  | .sequenceCall _ _ => []

theorem inferPointcutParams_frame (templateExpr : String) : ∀ {params : List (List String)} (number : Nat),
    (∀ identifiers ∈ params, ¬ Overwrites lookup t identifiers) →
    inferPointcutParams lookup templateExpr number params t =
      (paramsAlone lookup t templateExpr number params).map fun types => (types, t)
  | [], _, _ => rfl
  | param :: params, number, hframe => by
    obtain ⟨hfirst, hrest⟩ := List.forall_mem_cons.1 hframe
    unfold inferPointcutParams paramsAlone
    cases hparam : inferPointcutParam lookup templateExpr number param t with
    | error e => rfl
    | ok r =>
      have htables := inferPointcutParam_frame hfirst hparam
      have hloop := inferPointcutParams_frame templateExpr (number + 1) hrest
      obtain ⟨paramType, t'⟩ := r
      subst htables
      change (inferPointcutParams lookup templateExpr (number + 1) params t').bind _ = _
      rw [hloop]
      cases paramsAlone lookup t' templateExpr (number + 1) params <;> rfl

theorem inferPlaceHolderTypes_frame {placeHolder : TypedPlaceHolder}
    (hframe : ∀ identifiers ∈ placeHolder.pointcutArgs, ¬ Overwrites lookup t identifiers) :
    inferPlaceHolderTypes lookup t placeHolder =
      (typesAlone lookup t placeHolder).map fun types => (types, t) := by
  cases placeHolder with
  | pointcut name templateExpr parameters =>
    have hparams : ∀ identifiers ∈ parameters, ¬ Overwrites lookup t identifiers := hframe
    rw [inferPlaceHolderTypes, typesAlone, inferPointcutParams_frame templateExpr 1 hparams]
    cases paramsAlone lookup t templateExpr 1 parameters <;> rfl
  | sequenceCall seqName seqArgs =>
    rw [inferPlaceHolderTypes, typesAlone]
    cases seqArgs.mapM (inferSequenceArg lookup t) <;> rfl

theorem framed_of_not_overwrites : ∀ {placeHolders : List TypedPlaceHolder},
    (∀ placeHolder ∈ placeHolders, ∀ identifiers ∈ placeHolder.pointcutArgs,
      ¬ Overwrites lookup t identifiers) → Framed lookup t placeHolders
  | [], _ => rfl
  | placeHolder :: placeHolders, hframe => by
    obtain ⟨hfirst, hrest⟩ := List.forall_mem_cons.1 hframe
    have hloop : inferAll lookup placeHolders t = _ := framed_of_not_overwrites hrest
    unfold Framed inferAll allAlone
    rw [inferPlaceHolderTypes_frame hfirst]
    cases typesAlone lookup t placeHolder with
    | error e => rfl
    | ok types =>
      change (inferAll lookup placeHolders t).bind _ = _
      rw [hloop]
      cases allAlone lookup t placeHolders <;> rfl

/-- **Which arguments keep placeholders independent**: all lists of placeholders with arguments of some kind
leave the tables as they are, and have the types the tables give them, when no argument of the kind overwrites
its entry. -/
theorem framed_iff (lookup : FieldLookup) (t : ChunkTypes) (A : List String → Prop) :
    (∀ placeHolders : List TypedPlaceHolder, (∀ placeHolder ∈ placeHolders,
        ∀ identifiers ∈ placeHolder.pointcutArgs, A identifiers) → Framed lookup t placeHolders) ↔
      ∀ identifiers, A identifiers → ¬ Overwrites lookup t identifiers := by
  constructor
  · intro h identifiers hA hover
    -- a pointcut with this one argument
    let placeHolder : TypedPlaceHolder := .pointcut (rtxNodeIdentifier Word.blank) "" [identifiers]
    have hframed : Framed lookup t [placeHolder] := by
      refine h [placeHolder] fun p hp ids hids => ?_
      rw [List.mem_singleton] at hp
      subst hp
      rw [List.mem_singleton.1 hids]
      exact hA
    obtain ⟨r, hr, hne⟩ := inferPointcutParam_overwrites hover "" 1
    have hrun : inferAll lookup [placeHolder] t =
        .ok ([⟨rtxNodeIdentifier Word.blank, [r.1], []⟩], r.2) := by
      simp only [inferAll, inferPlaceHolderTypes, placeHolder, inferPointcutParams, hr]
      rfl
    rw [Framed, hrun] at hframed
    cases halone : allAlone lookup t [placeHolder] with
    | error e =>
      rw [halone] at hframed
      cases hframed
    | ok types =>
      rw [halone] at hframed
      injection hframed with hpair
      exact hne (Prod.mk.inj hpair).2
  · intro h placeHolders hA
    exact framed_of_not_overwrites fun p hp ids hids => h ids (hA p hp ids hids)

/-! ## A chain before its variable -/

/-- `Socket::buf` has a field `ptr` of type `Socket::ptr`. -/
def socketAttributes : Attributes := fun name =>
  if name.text = "Socket" then
    some (Table.empty.set "buf"
      (Table.empty.set "ptr" ⟨rtxNodeIdentifier ⟨"ptr", .refl true⟩ ⟨"Socket", .refl true⟩, []⟩))
  else none

/-- `Socket::buf`. -/
def socketBuf : RType := ⟨rtxNodeIdentifier ⟨"buf", .refl true⟩ ⟨"Socket", .refl true⟩, []⟩

/-- A chunk with an argument `buf` of this type. -/
def socketTypes : ChunkTypes := ⟨Table.empty.set "buf" (.rtype socketBuf), Table.empty⟩

/-- `${pointcut send(buf)}`. -/
def sendBuf : TypedPlaceHolder := .pointcut (rtxNodeIdentifier ⟨"send", .refl true⟩) "send(buf)" [["buf"]]

/-- `${pointcut copy(buf.ptr)}`. -/
def copyPtr : TypedPlaceHolder :=
  .pointcut (rtxNodeIdentifier ⟨"copy", .refl true⟩) "copy(buf.ptr)" [["buf", "ptr"]]

/-- A lookup whose caller finds something else in its variable. -/
def leaving (left : RType → TypeNode) (lookup : FieldLookup) : FieldLookup := fun theVariables baseRtype theFields => do
  match ← lookup theVariables baseRtype theFields with
  | some (.rtype theRtype) => return some (left theRtype)
  | found => return found

/-- The parameter types inferred for placeholders, and the entry of `buf` at the end. -/
def inferredParams (left : RType → TypeNode) (placeHolders : List TypedPlaceHolder) :
    Option (List (List ParamType) × Option TypeNode) :=
  match inferAll (leaving left (fieldLookup socketAttributes)) placeHolders socketTypes with
  | .ok (inferred, t) => some (inferred.map InferredTypes.params, t.typeMap.get? "buf")
  | .error _ => none

/-- `send(buf)` alone has a parameter of type `Socket::buf`. After `copy(buf.ptr)` it has the type of the field, and would
have none if the lookup left the variable of its caller empty. -/
theorem chain_changes_type :
    inferredParams .rtype [sendBuf] = some ([[.node (.rtype socketBuf)]], some (.rtype socketBuf)) ∧
      (let ptr : TypeNode := .rtype ⟨rtxNodeIdentifier ⟨"ptr", rfl⟩ ⟨"Socket", rfl⟩, []⟩
       inferredParams .rtype [copyPtr, sendBuf] = some ([[.node ptr], [.node ptr]], some ptr)) ∧
      inferredParams (fun _ => .other) [copyPtr, sendBuf] =
        some ([[.node .other], [.node .other]], some .other) := by
  decide

end Rathaxes.Back
