import Rathaxes.CodeWorker.Raise
import Rathaxes.Laws.Arguments
import Rathaxes.Laws.InferTypes
import Rathaxes.Laws.TypeMap
import Rathaxes.Resolve.Parameters

/-!
# The types of the arguments of a pointcut, inferred and built

Introspection infers the types of the arguments of a pointcut, and the chunk that is injected is looked up with them.
The resolution builds the values of its parameters, each with a type of its own. Nothing compares the two.

Both passes write to what they read from: introspection to `type_map`, the resolution to the types of the values of the
caller. The writes are the same ones in the same order, so an invariant that relates the two, `Tracks`, is kept by every
argument, and the types agree (`ends_buildChunkResVals`).
-/

set_option autoImplicit false

namespace Rathaxes.Resolve

open CodeWorker Front
open Back (Attributes ChunkTypes ParamType TypeForm TypeNode fieldLookup inferPointcutParam inferPointcutParams typeField)

/-! ## Chains of fields -/

section Fields

variable {attributes : Attributes} {theVariables : Table Back.VariableType} {base t : RType} {field : String}
  {fields : List String}

/-- A field found without the variables of a chunk is found with them. -/
theorem typeField_of_empty (h : typeField ⟨attributes, Table.empty⟩ base field = .ok (some t)) :
    typeField ⟨attributes, theVariables⟩ base field = .ok (some t) := by
  unfold typeField at h ⊢
  simp only at h ⊢
  by_cases hlocal : (TypeForm.rtype base).rtxRTypeName = "Builtin::local"
  · rw [if_pos hlocal] at h
    cases h
  · rw [if_neg hlocal] at h ⊢
    exact h

theorem Reaches.of_empty (h : Reaches ⟨attributes, Table.empty⟩ base fields t) :
    Reaches ⟨attributes, theVariables⟩ base fields t := by
  induction h with
  | done t => exact .done t
  | field hfield _ ih => exact .field (typeField_of_empty hfield) ih

theorem fieldLookup_of_reaches (h : Reaches ⟨attributes, theVariables⟩ base (field :: fields) t) :
    fieldLookup attributes theVariables (.rtype base) (field :: fields) = .ok (some (.rtype t)) := by
  have hfound := typeOfFields_of_reaches h
  simp only [fieldLookup, TypeNode.rtype?, hfound, bind, Except.bind, pure, Except.pure]
  rfl

theorem reaches_of_fieldLookup {found : TypeNode}
    (h : fieldLookup attributes theVariables (.rtype base) (field :: fields) = .ok (some found)) :
    ∃ t, found = .rtype t ∧ Reaches ⟨attributes, theVariables⟩ base (field :: fields) t := by
  obtain ⟨left, hleft, h⟩ := bind_eq_ok_iff.1 h
  obtain ⟨⟨returned, s⟩, hcall, hread⟩ := bind_eq_ok_iff.1 hleft
  cases returned with
  | false =>
    cases hread
    cases h
  | true =>
    obtain ⟨t, ht, hvariable⟩ := reaches_of_resolveTypeFields hcall
    have hvariable : s.read 0 = some t := hvariable
    cases hread
    simp only [if_true, hvariable] at h
    cases h
    exact ⟨t, rfl, ht⟩

end Fields

/-! ## What relates the two passes -/

/-- The type a parameter has in the prototype of the pointcut is this one. -/
def InferredAs : ParamType → RType → Prop
  | .ident id, t => id = t.name
  | .node type, t => type = .rtype t

/-- Each argument of the template has a value, of the type `type_map` has for it. No value is called `local`. -/
structure Tracks (args : List String) (types : ChunkTypes) (resVals : List Arg) : Prop where
  typed : ∀ x ∈ args, ∃ arg, getArgByName resVals x = some arg ∧ types.typeMap.get? x = some (.rtype arg.rtype)
  noLocal : getArgByName resVals "local" = none

/-- What both passes look at as a whole: an argument of the template with any fields, and a variable of the C code
without any. -/
inductive InSight (args : List String) : List String → Prop where
  | argument {x : String} {fields : List String} : x ∈ args → InSight args (x :: fields)
  | cVariable (v : String) : InSight args ["local", v]

/-- An error about the expression of an argument, and not about its type. -/
inductive NoExpression (m : ValueMaps) (types : ChunkTypes) : String → Prop where
  | raised {self : Arg} {identifiers : List String} {e : String} :
      m.typeMap types [self] self.rtype identifiers = .error e → NoExpression m types e
  | unresolved (r : Resolver) : NoExpression m types (couldNotResolve r)
  | cannotAdd (name : String) : NoExpression m types (cannotAddArg name)

theorem getArgByName_setType (x : String) (t : RType) (y : String) : ∀ resVals : List Arg,
    getArgByName (setType resVals x t) y =
      if y = x then (getArgByName resVals y).map fun arg => { arg with rtype := t } else getArgByName resVals y
  | [] => by
    split <;> rfl
  | arg :: resVals => by
    have ih := getArgByName_setType x t y resVals
    unfold getArgByName setType at ih ⊢
    by_cases hx : arg.name = x
    · subst hx
      by_cases hy : arg.name = y
      · subst hy
        simp [updateFirst]
      · simp [updateFirst, hy, Ne.symm hy]
    · rw [updateFirst, if_neg (by simpa using hx)]
      by_cases hy : arg.name = y
      · subst hy
        simp [hx]
      · simp only [List.find?_cons, hy, decide_false]
        exact ih

theorem setType_of_none {x : String} {resVals : List Arg} (h : getArgByName resVals x = none) (t : RType) :
    setType resVals x t = resVals := by
  refine updateFirst_eq_self fun arg harg => ?_
  rw [getArgByName, harg] at h
  cases h

namespace Tracks

variable {args : List String} {types : ChunkTypes} {resVals : List Arg}

theorem ne_local (h : Tracks args types resVals) {x : String} (hx : x ∈ args) : x ≠ "local" := by
  rintro rfl
  obtain ⟨arg, harg, -⟩ := h.typed _ hx
  rw [h.noLocal] at harg
  cases harg

/-- The same assignment on both sides. -/
theorem set (h : Tracks args types resVals) {x : String} (hx : x ∈ args) (t : RType) :
    Tracks args { types with typeMap := types.typeMap.set x (.rtype t) } (setType resVals x t) where
  typed := by
    intro y hy
    obtain ⟨arg, harg, htype⟩ := h.typed y hy
    rw [getArgByName_setType, Table.get?_set]
    by_cases hyx : y = x
    · rw [if_pos hyx, if_pos hyx, harg]
      exact ⟨_, rfl, rfl⟩
    · rw [if_neg hyx, if_neg hyx]
      exact ⟨arg, harg, htype⟩
  noLocal := by
    rw [getArgByName_setType, if_neg (h.ne_local hx).symm]
    exact h.noLocal

end Tracks

/-! ## One argument -/

section Argument

variable {m : ValueMaps} {args : List String} {types t t' : ChunkTypes} {resVals : List Arg} {identifiers : List String}
  {templateExpr : String} {number : Nat} {paramType : ParamType}

/-- What is left of an argument: a type, as it was inferred, and an expression. The passes still go together. -/
def Built (args : List String) (paramType : ParamType) (t' : ChunkTypes) (found : List Arg × TypeNode × CNode) : Prop :=
  ∃ u, found.2.1 = .rtype u ∧ InferredAs paramType u ∧ Tracks args t' found.1

/-- The expression of a variable comes from `type_map<T>`, its type from what comes after. -/
theorem ends_mapVariable {r : Resolver} {P : List Arg × TypeNode × CNode → Prop}
    (hchain : identifiers.length > 1 → ∃ u, fieldLookup m.attributes types.theVariables (.rtype r.self.rtype)
      identifiers.tail = .ok (some (.rtype u)) ∧
        ∀ mapping, P (setType resVals (identifiers[0]?.getD "") u, .rtype u, mapping))
    (halone : ¬ identifiers.length > 1 → ∀ mapping, P (resVals, r.paramType, mapping)) :
    Ends P (NoExpression m types) (m.mapVariable types resVals identifiers r) := by
  unfold ValueMaps.mapVariable
  cases hmap : m.typeMap types [r.self] r.self.rtype identifiers with
  | error e => exact .raised hmap
  | ok found =>
    cases found with
    | none => exact .unresolved r
    | some mapping =>
      simp only [bind, Except.bind]
      by_cases hlength : identifiers.length > 1
      · obtain ⟨u, hlookup, hP⟩ := hchain hlength
        rw [if_pos hlength, hlookup]
        exact hP mapping
      · rw [if_neg hlength]
        exact halone hlength mapping

theorem ends_srcResVal {r : Resolver} {P : List Arg × TypeNode × CNode → Prop}
    (hresolver : resolver types resVals identifiers = .ok (some r))
    (h : Ends P (NoExpression m types) (m.mapVariable types resVals identifiers r)) :
    Ends (fun found => ∃ built, found = some built ∧ P built) (NoExpression m types)
      (m.srcResVal types resVals (.var identifiers)) := by
  rw [ValueMaps.srcResVal, hresolver]
  exact h.bind fun built hbuilt => ⟨built, rfl, hbuilt⟩

/-- The type inferred for a field of an argument of the template, and what is assigned to the entry. -/
theorem inferPointcutParam_chain {x field : String} {fields : List String} {u : RType} (hne : x ≠ "local")
    (hentry : t.typeMap.get? x = some (.rtype u))
    (hinfer : inferPointcutParam (fieldLookup m.attributes) templateExpr number (x :: field :: fields) t =
      .ok (paramType, t')) :
    ∃ v, Reaches ⟨m.attributes, Table.empty⟩ u (field :: fields) v ∧ paramType = .node (.rtype v) ∧
      t' = { t with typeMap := t.typeMap.set x (.rtype v) } := by
  simp only [inferPointcutParam, List.getElem?_cons_zero, Option.getD_some, if_neg hne, hentry, List.length_cons,
    gt_iff_lt, List.tail_cons, Option.isSome_some, if_true] at hinfer
  rw [if_pos (by omega)] at hinfer
  obtain ⟨found, hlookup, hinfer⟩ := bind_eq_ok_iff.1 hinfer
  cases found with
  | none => cases hinfer
  | some found =>
    obtain ⟨v, rfl, hreaches⟩ := reaches_of_fieldLookup hlookup
    cases hinfer
    exact ⟨v, hreaches, rfl, rfl⟩

/-- An argument of the template. -/
theorem ends_srcResVal_argument {x : String} {fields : List String} (htracks : Tracks args t resVals) (hx : x ∈ args)
    (hinfer : inferPointcutParam (fieldLookup m.attributes) templateExpr number (x :: fields) t = .ok (paramType, t')) :
    Ends (fun found => ∃ built, found = some built ∧ Built args paramType t' built) (NoExpression m types)
      (m.srcResVal types resVals (.var (x :: fields))) := by
  obtain ⟨arg, harg, hentry⟩ := htracks.typed x hx
  have hne := htracks.ne_local hx
  have hresolver : resolver types resVals (x :: fields) = .ok (some ⟨arg.asSelf, .rtype arg.rtype, x⟩) := by
    simp [resolver, harg]
  refine ends_srcResVal hresolver ?_
  cases fields with
  | nil =>
    have halone : inferPointcutParam (fieldLookup m.attributes) templateExpr number [x] t =
        .ok (.node (.rtype arg.rtype), t) := by
      simp [inferPointcutParam, hne, hentry]
    cases halone.symm.trans hinfer
    refine ends_mapVariable (fun hlength => absurd hlength (Nat.lt_irrefl 1)) fun _ mapping => ?_
    exact ⟨arg.rtype, rfl, rfl, htracks⟩
  | cons field fields =>
    obtain ⟨v, hreaches, rfl, rfl⟩ := inferPointcutParam_chain hne hentry hinfer
    refine ends_mapVariable (fun _ => ⟨v, fieldLookup_of_reaches hreaches.of_empty, fun mapping => ?_⟩) fun hlength => ?_
    · exact ⟨v, rfl, rfl, htracks.set hx v⟩
    · exact absurd (by simp) hlength

/-- The type of a variable of the C code, as both passes see it. -/
def cType : Back.VariableType → RType
  | .rtxtype typeNode => typeNode
  | .ctype => ⟨Back.builtinSymbol, []⟩

theorem inferPointcutParam_cVariable {v : String}
    (hinfer : inferPointcutParam (fieldLookup m.attributes) templateExpr number ["local", v] t = .ok (paramType, t')) :
    ∃ theVariable, t.theVariables.get? v = some theVariable ∧ paramType = .ident (cType theVariable).name ∧ t' = t := by
  simp only [inferPointcutParam, List.getElem?_cons_zero, List.getElem?_cons_succ, Option.getD_some, if_true] at hinfer
  cases hget : t.theVariables.get? v with
  | none =>
    rw [hget] at hinfer
    cases hinfer
  | some theVariable =>
    rw [hget] at hinfer
    cases theVariable with
    | rtxtype typeNode =>
      cases hinfer
      exact ⟨_, rfl, rfl, rfl⟩
    | ctype =>
      cases hinfer
      exact ⟨_, rfl, rfl, rfl⟩

theorem reaches_cVariable {v : String} {theVariable : Back.VariableType}
    (hget : types.theVariables.get? v = some theVariable) :
    Reaches ⟨m.attributes, types.theVariables⟩ builtinLocal [v] (cType theVariable) := by
  refine .field ?_ (.done _)
  have hlocal : (TypeForm.rtype builtinLocal).rtxRTypeName = "Builtin::local" := by decide
  unfold typeField
  simp only [hlocal, if_true, hget]
  cases theVariable with
  | rtxtype typeNode => rfl
  | ctype => rfl

/-- A variable of the C code. -/
theorem ends_srcResVal_cVariable {v : String} (htracks : Tracks args t resVals)
    (hvariables : t.theVariables = types.theVariables)
    (hinfer : inferPointcutParam (fieldLookup m.attributes) templateExpr number ["local", v] t = .ok (paramType, t')) :
    Ends (fun found => ∃ built, found = some built ∧ Built args paramType t' built) (NoExpression m types)
      (m.srcResVal types resVals (.var ["local", v])) := by
  obtain ⟨theVariable, hget, rfl, rfl⟩ := inferPointcutParam_cVariable hinfer
  rw [hvariables] at hget
  obtain ⟨paramType, htype⟩ : ∃ paramType, variableType types v = some paramType := by
    unfold variableType
    rw [hget]
    cases types.typeMap.get? v with
    | none => exact ⟨_, rfl⟩
    | some entry => exact ⟨entry, rfl⟩
  have hself : buildLocalSelf types ["local", v] = rtxNodeArg "self" builtinLocal (.terminalId v) := by
    simp [buildLocalSelf, getAt, cut, hget, bind, Except.bind]
  by_cases hname : (CNode.terminalId v).isValue = true
  · let self : Arg := ⟨"self", builtinLocal, .terminalId v, hname⟩
    have hresolver : resolver types resVals ["local", v] = .ok (some ⟨self, paramType, v⟩) := by
      simp [resolver, htracks.noLocal, hself, rtxNodeArg, hname, getAt, cut, htype, copyOf, Except.map, bind, Except.bind,
        pure, Except.pure, self]
    refine ends_srcResVal hresolver (ends_mapVariable (fun _ => ?_) fun hlength => absurd (by simp) hlength)
    refine ⟨cType theVariable, fieldLookup_of_reaches (reaches_cVariable hget), fun mapping => ?_⟩
    refine ⟨cType theVariable, rfl, rfl, ?_⟩
    -- `local` is no value, so nothing is assigned
    show Tracks args _ (setType resVals "local" _)
    rw [setType_of_none htracks.noLocal]
    exact htracks
  · have hresolver : resolver types resVals ["local", v] = .error (cannotAddArg "self") := by
      simp [resolver, htracks.noLocal, hself, rtxNodeArg, hname, Except.map, bind, Except.bind]
    rw [ValueMaps.srcResVal, hresolver]
    exact .cannotAdd "self"

/-- **One argument**: it is built with the type that was inferred, and the passes still go together. -/
theorem InSight.ends_srcResVal (hsight : InSight args identifiers) (htracks : Tracks args t resVals)
    (hvariables : t.theVariables = types.theVariables)
    (hinfer : inferPointcutParam (fieldLookup m.attributes) templateExpr number identifiers t = .ok (paramType, t')) :
    Ends (fun found => ∃ built, found = some built ∧ Built args paramType t' built) (NoExpression m types)
      (m.srcResVal types resVals (.var identifiers)) := by
  cases hsight with
  | argument hx => exact ends_srcResVal_argument htracks hx hinfer
  | cVariable v => exact ends_srcResVal_cVariable htracks hvariables hinfer

/-- Introspection leaves `variables` alone. -/
theorem theVariables_of_inferPointcutParam {lookup : Back.FieldLookup}
    (hinfer : inferPointcutParam lookup templateExpr number identifiers t = .ok (paramType, t')) :
    t'.theVariables = t.theVariables := by
  unfold inferPointcutParam at hinfer
  simp only at hinfer
  split at hinfer
  · split at hinfer <;> cases hinfer <;> rfl
  · split at hinfer
    · obtain ⟨found, -, hinfer⟩ := bind_eq_ok_iff.1 hinfer
      cases found <;> cases hinfer
      rfl
    · cases hinfer
      rfl

theorem ends_appendArg {resVals : List Arg} {name : String} (hfresh : name ∉ resVals.map Arg.name) (u : RType)
    (value : CNode) :
    Ends (fun appended => ∃ arg, appended = some (resVals ++ [arg]) ∧ arg.name = name ∧ arg.rtype = u)
      (NoExpression m types) (appendArg resVals name u value) := by
  by_cases hvalue : value.isValue = true
  · rw [appendArg_of_fresh hfresh u hvalue]
    exact ⟨⟨name, u, value, hvalue⟩, rfl, rfl, rfl⟩
  · have hnone : (resVals.any fun arg => arg.name = name) = false := by
      simpa using hfresh
    rw [appendArg, hnone, rtxNodeArg, dif_neg hvalue]
    exact .cannotAdd name

end Argument

/-! ## All arguments -/

section Run

variable {m : ValueMaps} {args : List String} {types t' : ChunkTypes} {templateExpr : String}

/-- What the function leaves: a value for each parameter, of the type inferred for it, and values of the caller of the
types introspection leaves. -/
structure Agrees (args : List String) (paramTypes : List ParamType) (t' : ChunkTypes) (dstParams : List String)
    (built : BuiltVals) : Prop where
  returned : built.returned = true
  named : built.dstResVals.map Arg.name = dstParams
  typed : List.Forall₂ (fun paramType arg => InferredAs paramType arg.rtype) paramTypes built.dstResVals
  tracks : Tracks args t' built.srcResVals

/-- The loop from a parameter on: the arguments in front have been read, and the container has other names. -/
theorem ends_buildVals : ∀ (params : List (List String)) (front : List SrcParam) (resVals acc : List Arg)
    {t : ChunkTypes} {number : Nat} {paramTypes paramTypes' : List ParamType} {dstParams : List String},
    (∀ identifiers ∈ params, InSight args identifiers) → Tracks args t resVals →
    t.theVariables = types.theVariables →
    inferPointcutParams (fieldLookup m.attributes) templateExpr number params t = .ok (paramTypes, t') →
    (acc.map Arg.name ++ dstParams).Nodup → dstParams.length = params.length →
    List.Forall₂ (fun paramType arg => InferredAs paramType arg.rtype) paramTypes' acc →
    Ends (Agrees args (paramTypes' ++ paramTypes) t' (acc.map Arg.name ++ dstParams)) (NoExpression m types)
      (m.buildVals ⟨types, front ++ params.map .var⟩ (dstParams.zipIdx front.length) resVals acc) := by
  intro params
  induction params with
  | nil =>
    intro front resVals acc t number paramTypes paramTypes' dstParams _ htracks _ hinfer _ hlength hacc
    cases hinfer
    rw [List.length_eq_zero_iff.1 hlength, List.append_nil, List.append_nil]
    exact ⟨rfl, rfl, hacc, htracks⟩
  | cons identifiers params ih =>
    intro front resVals acc t number paramTypes paramTypes' dstParams hsight htracks hvariables hinfer hnodup hlength hacc
    obtain ⟨name, names, rfl⟩ := List.exists_cons_of_length_eq_add_one hlength
    obtain ⟨hfirst, hrest⟩ := List.forall_mem_cons.1 hsight
    obtain ⟨⟨paramType, t₁⟩, hparam, hinfer⟩ := bind_eq_ok_iff.1 hinfer
    obtain ⟨⟨paramTypes, t₂⟩, hparams, hinfer⟩ := bind_eq_ok_iff.1 hinfer
    cases hinfer
    have hread : getAt (front ++ SrcParam.var identifiers :: params.map .var) front.length = .ok (.var identifiers) :=
      getAt_between
    rw [List.zipIdx_cons, List.map_cons, ValueMaps.buildVals, hread]
    refine (hfirst.ends_srcResVal htracks hvariables hparam).bind ?_
    rintro _ ⟨⟨resVals₁, _, value⟩, rfl, u, rfl, htype, htracks₁⟩
    have hfresh : name ∉ acc.map Arg.name := fun hmem =>
      (List.nodup_append.1 hnodup).2.2 name hmem name List.mem_cons_self rfl
    refine (ends_appendArg hfresh u value).bind ?_
    rintro _ ⟨arg, rfl, rfl, rfl⟩
    -- the loop goes on behind the argument
    have hlater := ih (front ++ [.var identifiers]) resVals₁ (acc ++ [arg]) hrest htracks₁
      ((theVariables_of_inferPointcutParam hparam).trans hvariables) hparams
      (by simpa using hnodup) (Nat.succ.inj hlength) (List.rel_append hacc (.cons htype .nil))
    simpa using hlater

end Run

/-! ## The values of the caller

Where chunks are woven the values of the caller are taken to stay as they are (`Weaver`). They do where no field of a value
is passed (`buildChunkResVals_frame`). -/

section Frame

variable {m : ValueMaps} {types : ChunkTypes} {resVals : List Arg}

/-- The argument is a field of a value. -/
def PassesField (resVals : List Arg) : SrcParam → Prop
  | .var identifiers => identifiers.length > 1 ∧ Has resVals (identifiers[0]?.getD "")
  | .literal _ => False

theorem setType_of_not_has {x : String} (h : ¬ Has resVals x) (t : RType) : setType resVals x t = resVals := by
  rw [← isSome_getArgByName, Option.not_isSome_iff_eq_none] at h
  exact setType_of_none h t

theorem mapVariable_frame {identifiers : List String} {r : Resolver} {found : List Arg × TypeNode × CNode}
    (hframe : ¬ PassesField resVals (.var identifiers))
    (h : m.mapVariable types resVals identifiers r = .ok found) : found.1 = resVals := by
  obtain ⟨mapped, -, h⟩ := bind_eq_ok_iff.1 h
  cases mapped with
  | none => cases h
  | some mapping =>
    simp only at h
    split at h
    · rename_i hlength
      obtain ⟨fieldType, -, h⟩ := bind_eq_ok_iff.1 h
      split at h
      · cases h
      · cases h
        rfl
      · cases h
        exact setType_of_not_has (fun hhas => hframe ⟨hlength, hhas⟩) _
    · cases h
      rfl

theorem srcResVal_frame {srcP : SrcParam} {found : List Arg × TypeNode × CNode}
    (hframe : ¬ PassesField resVals srcP) (h : m.srcResVal types resVals srcP = .ok (some found)) :
    found.1 = resVals := by
  cases srcP with
  | literal node =>
    obtain ⟨paramValue, -, h⟩ := bind_eq_ok_iff.1 h
    cases h
    rfl
  | var identifiers =>
    obtain ⟨r, -, h⟩ := bind_eq_ok_iff.1 h
    cases r with
    | none => cases h
    | some r =>
      obtain ⟨mapped, hmapped, h⟩ := bind_eq_ok_iff.1 h
      cases h
      exact mapVariable_frame hframe hmapped

theorem buildVals_frame {actuals : Actuals} (hframe : ∀ srcP ∈ actuals.params, ¬ PassesField resVals srcP) :
    ∀ {dstParams : List (String × Nat)} {acc : List Arg} {built : BuiltVals},
      m.buildVals actuals dstParams resVals acc = .ok built → built.srcResVals = resVals
  | [], acc, built, h => by
    cases h
    rfl
  | dstP :: rest, acc, built, h => by
    obtain ⟨srcP, hread, h⟩ := bind_eq_ok_iff.1 h
    obtain ⟨found, hfound, h⟩ := bind_eq_ok_iff.1 h
    cases found with
    | none =>
      cases h
      rfl
    | some found =>
      obtain ⟨resVals', paramType, paramValue⟩ := found
      have hsame : resVals' = resVals := srcResVal_frame (hframe srcP (mem_of_getAt hread)) hfound
      obtain ⟨appended, -, h⟩ := bind_eq_ok_iff.1 h
      cases appended with
      | none => cases h
      | some dstResVals =>
        simp only [hsame] at h
        exact buildVals_frame hframe h

/-- **Without fields the values of the caller stay as they are**, whatever is returned. -/
theorem buildChunkResVals_frame {actuals : Actuals} {dstParams : List String} {built : BuiltVals}
    (hframe : ∀ srcP ∈ actuals.params, ¬ PassesField resVals srcP)
    (h : m.buildChunkResVals resVals actuals dstParams = .ok built) : built.srcResVals = resVals :=
  buildVals_frame hframe h

end Frame

/-! ## A field before its variable -/

/-- Each chain of fields has an expression. -/
def socketMaps : ValueMaps where
  typeMap _ _ _ identifiers := .ok (some (.expr (".".intercalate identifiers)))
  attributes := Back.socketAttributes

/-- A chunk with an argument `buf` of the type `Socket::buf`, and a variable `n` of a C type. -/
def socketChunk : ChunkTypes := { Back.socketTypes with theVariables := Table.empty.set "n" .ctype }

/-- The value of its argument. -/
def socketVals : List Arg := [⟨"buf", Back.socketBuf, .terminalId "skb", rfl⟩]

/-- The arguments `buf.ptr`, `buf` and `local.n`. -/
def socketParams : List (List String) := [["buf", "ptr"], ["buf"], ["local", "n"]]

-- with a second chunk for the pointcut the values are built again: there is no field `ptr` in the type of a field
example : (do
    let built ← socketMaps.buildChunkResVals socketVals ⟨socketChunk, [.var ["buf", "ptr"]]⟩ ["p"]
    socketMaps.buildChunkResVals built.srcResVals ⟨socketChunk, [.var ["buf", "ptr"]]⟩ ["p"]) =
    .error "[Error] Could not resolve type fields for variable 'ptr'" := by
  decide

-- introspection infers the type of `local.b` for `local.b.ptr`
example :
    let types := { socketChunk with theVariables := Table.empty.set "b" (.rtxtype Back.socketBuf) }
    let params := [["local", "b", "ptr"]]
    (inferPointcutParams (fieldLookup socketMaps.attributes) "" 1 params types).map Prod.fst =
        .ok [.ident Back.socketBuf.name] ∧
      (socketMaps.buildChunkResVals [] ⟨types, params.map .var⟩ ["p"]).map
          (fun built => built.dstResVals.map fun arg => arg.rtype.name) =
        .ok [rtxNodeIdentifier ⟨"ptr", rfl⟩ ⟨"Socket", rfl⟩] := by
  decide

end Rathaxes.Resolve
