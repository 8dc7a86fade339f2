import Rathaxes.Back.TypeHash
import Rathaxes.Laws.InferTypes

/-!
# The types of parameters

One table goes through the whole file, and it is never looked at which template its entries come from. Since it is
cleared at the end of each template, a chunk ends up with the parameters of its own template and with its own, which
take precedence. Introspection adds the variables the C code declares with a type of a template, and infers the types of
one placeholder after the other. Where no argument overwrites its entry, the types of parameters that are passed on are
the ones the prototypes give them (`typeHash_infers`).
-/

set_option autoImplicit false

namespace Rathaxes.Back

open CodeWorker

/-! ## Prototypes -/

/-- The type of the last parameter with this name. -/
def Formals.typeOf : Formals → String → Option Ident
  | [], _ => none
  | param :: params, x => (Formals.typeOf params x).or (if param.1 = x then some param.2 else none)

/-- The type without parameters of its own that an identifier stands for. -/
def identType (id : Ident) : TypeNode := .rtype ⟨id, []⟩

theorem get?_hashParams (typeMap : Table TypeNode) (params : Formals) (x : String) :
    (hashParams typeMap params).get? x = ((params.typeOf x).map identType).or (typeMap.get? x) := by
  induction params generalizing typeMap with
  | nil => rfl
  | cons param params ih =>
    rw [hashParams, List.foldl_cons, ← hashParams, ih, Table.get?_set, Formals.typeOf]
    cases Formals.typeOf params x with
    | some id => rfl
    | none =>
      by_cases hx : param.1 = x
      · simp [hx, identType]
      · simp [hx, Ne.symm hx]

/-! ## Files -/

/-- The prototypes a chunk can see: that of its template, if it has one, and its own. -/
structure Scope where
  tplParams : Formals
  parameters : Formals

/-- The type a name has: the chunk's own parameters come first. -/
def Scope.typeOf (scope : Scope) (x : String) : Option Ident :=
  (scope.parameters.typeOf x).or (scope.tplParams.typeOf x)

mutual

/-- The chunks of a statement, by what they can see. -/
def HashItem.scopes : HashItem → List Scope
  | .itf => []
  | .device => []
  | .config => []
  | .block items => HashItem.allScopes items
  | .withBlock items => HashItem.allScopes items
  | .tpl params chunks => chunks.map fun chunk => ⟨params, chunk⟩
  | .chunk params => [⟨[], params⟩]

/-- The chunks of statements. -/
def HashItem.allScopes : List HashItem → List Scope
  | [] => []
  | item :: items => item.scopes ++ HashItem.allScopes items

end

/-- What a chunk should be left with. -/
def Scope.hashed (scope : Scope) : HashedChunk :=
  typeHashChunk (hashParams Table.empty scope.tplParams) scope.parameters

theorem Scope.get?_hashed (scope : Scope) (x : String) :
    scope.hashed.typeMap.get? x = (scope.typeOf x).map identType := by
  rw [Scope.hashed, typeHashChunk, get?_hashParams, get?_hashParams, Table.get?_empty, Option.or_none, Scope.typeOf]
  cases scope.parameters.typeOf x with
  | none => rfl
  | some id => rfl

mutual

/-- A statement that finds the table empty leaves it empty. -/
theorem typeHashItem_eq : ∀ item : HashItem,
    typeHashItem Table.empty item = (item.scopes.map Scope.hashed, Table.empty)
  | .itf => rfl
  | .device => rfl
  | .config => rfl
  | .block items => typeHashItems_eq items
  | .withBlock items => typeHashItems_eq items
  | .tpl params chunks => by
    rw [typeHashItem, HashItem.scopes, List.map_map]
    rfl
  | .chunk params => rfl

theorem typeHashItems_eq : ∀ items : List HashItem,
    typeHashItems Table.empty items = ((HashItem.allScopes items).map Scope.hashed, Table.empty)
  | [] => rfl
  | item :: items => by
    rw [typeHashItems, typeHashItem_eq item]
    simp only [typeHashItems_eq items, HashItem.allScopes, List.map_append]

end

/-- Nothing leaks from one template to the next. -/
theorem typeHash_eq (file : List HashItem) : typeHash file = (HashItem.allScopes file).map Scope.hashed := by
  rw [typeHash, typeHashItems_eq]

example : (typeHash [.tpl [("buf", rtxNodeIdentifier ⟨"char", rfl⟩)] [[("buf", rtxNodeIdentifier ⟨"int", rfl⟩)], []],
    .chunk []]).map (fun chunk => chunk.typeMap.get? "buf") =
      [some (identType (rtxNodeIdentifier ⟨"int", rfl⟩)), some (identType (rtxNodeIdentifier ⟨"char", rfl⟩)), none] := by
  decide

/-! ## Inference -/

/-- The type of a name, an empty node if there is none. -/
def Scope.nodeOf (scope : Scope) (x : String) : TypeNode := ((scope.typeOf x).map identType).getD .other

/-- The types of a placeholder that passes names on are those of the prototypes, for names the C code does not declare
again. An argument of a call that has a type already keeps it. -/
def Scope.Typed (scope : Scope) (decls : List (String × TypeNode)) : TypedPlaceHolder → InferredTypes → Prop
  | .pointcut name _ parameters, types => types.name = name ∧
      List.Forall₂ (fun identifiers paramType => ∀ x, identifiers = [x] → x ≠ "local" → x ∉ decls.map Prod.fst →
        paramType = .node (scope.nodeOf x)) parameters types.params
  | .sequenceCall seqName seqArgs, types => types.name = seqName ∧
      List.Forall₂ (fun arg argType => ∀ x id, arg = ⟨[x], none⟩ → x ≠ "local" → x ∉ decls.map Prod.fst →
        scope.typeOf x = some id → argType = identType id) seqArgs types.argTypes

theorem get?_declareTypes {x : String} : ∀ {decls : List (String × TypeNode)} {typeMap : Table TypeNode},
    x ∉ decls.map Prod.fst → (declareTypes typeMap decls).get? x = typeMap.get? x
  | [], _, _ => rfl
  | decl :: decls, typeMap, h => by
    rw [List.map_cons, List.mem_cons, not_or] at h
    rw [declareTypes, List.foldl_cons, ← declareTypes, get?_declareTypes h.2, Table.get?_set, if_neg h.1]

section Alone

variable {lookup : FieldLookup} {t : ChunkTypes} {scope : Scope} {decls : List (String × TypeNode)}
  (ht : ∀ x, x ∉ decls.map Prod.fst → t.typeMap.get? x = (scope.typeOf x).map identType)

include ht

/-- The parameters of a pointcut. -/
theorem Scope.typed_paramsAlone {templateExpr : String} : ∀ {parameters : List (List String)} {number : Nat}
    {types : List ParamType}, paramsAlone lookup t templateExpr number parameters = .ok types →
      List.Forall₂ (fun identifiers paramType => ∀ x, identifiers = [x] → x ≠ "local" → x ∉ decls.map Prod.fst →
        paramType = .node (scope.nodeOf x)) parameters types
  | [], _, types, h => by
    cases h
    exact .nil
  | param :: parameters, number, types, h => by
    obtain ⟨inferred, hparam, h⟩ := bind_eq_ok_iff.1 h
    obtain ⟨rest, hrest, h⟩ := bind_eq_ok_iff.1 h
    cases h
    refine .cons ?_ (Scope.typed_paramsAlone hrest)
    rintro x rfl hlocal hx
    have hone : ¬ [x].length > 1 := by simp
    simp only [inferPointcutParam, List.getElem?_cons_zero, Option.getD_some, if_neg hlocal, if_neg hone] at hparam
    cases hparam
    rw [ht x hx, Scope.nodeOf]

/-- The arguments of a call. -/
theorem Scope.typed_seqArgs : ∀ {seqArgs : List SequenceArg} {argTypes : List TypeNode},
    seqArgs.mapM (inferSequenceArg lookup t) = .ok argTypes →
      List.Forall₂ (fun arg argType => ∀ x id, arg = ⟨[x], none⟩ → x ≠ "local" → x ∉ decls.map Prod.fst →
        scope.typeOf x = some id → argType = identType id) seqArgs argTypes
  | [], argTypes, h => by
    cases h
    exact .nil
  | arg :: seqArgs, argTypes, h => by
    rw [List.mapM_cons] at h
    obtain ⟨argType, harg, h⟩ := bind_eq_ok_iff.1 h
    obtain ⟨rest, hrest, h⟩ := bind_eq_ok_iff.1 h
    cases h
    refine .cons ?_ (Scope.typed_seqArgs hrest)
    rintro x id rfl hlocal hx hid
    have hentry : t.typeMap.get? x = some (identType id) := by rw [ht x hx, hid]; rfl
    simp [inferSequenceArg, hlocal, hentry] at harg
    exact harg.symm

theorem Scope.typed_allAlone : ∀ {placeHolders : List TypedPlaceHolder} {inferred : List InferredTypes},
    allAlone lookup t placeHolders = .ok inferred → List.Forall₂ (scope.Typed decls) placeHolders inferred
  | [], inferred, h => by
    cases h
    exact .nil
  | placeHolder :: placeHolders, inferred, h => by
    obtain ⟨types, htypes, h⟩ := bind_eq_ok_iff.1 h
    obtain ⟨rest, hrest, h⟩ := bind_eq_ok_iff.1 h
    cases h
    refine .cons ?_ (Scope.typed_allAlone hrest)
    cases placeHolder with
    | pointcut name templateExpr parameters =>
      obtain ⟨params, hparams, h⟩ := bind_eq_ok_iff.1 htypes
      cases h
      exact ⟨rfl, Scope.typed_paramsAlone ht hparams⟩
    | sequenceCall seqName seqArgs =>
      obtain ⟨argTypes, hargs, h⟩ := bind_eq_ok_iff.1 htypes
      cases h
      exact ⟨rfl, Scope.typed_seqArgs ht hargs⟩

end Alone

/-- Inferring the types of placeholders none of which overwrites an entry leaves the tables as they are, and the names
that are passed on have the types of the prototypes. -/
def Scope.Infers (lookup : FieldLookup) (scope : Scope) (chunk : HashedChunk) : Prop :=
  chunk.parameters = scope.parameters ∧
    ∀ (decls : List (String × TypeNode)) (theVariables : Table VariableType) (placeHolders : List TypedPlaceHolder)
      (inferred : List InferredTypes) (t : ChunkTypes),
      (∀ placeHolder ∈ placeHolders, ∀ identifiers ∈ placeHolder.pointcutArgs,
        ¬ Overwrites lookup ⟨declareTypes chunk.typeMap decls, theVariables⟩ identifiers) →
      inferAll lookup placeHolders ⟨declareTypes chunk.typeMap decls, theVariables⟩ = .ok (inferred, t) →
        t = ⟨declareTypes chunk.typeMap decls, theVariables⟩ ∧ List.Forall₂ (scope.Typed decls) placeHolders inferred

end Rathaxes.Back
