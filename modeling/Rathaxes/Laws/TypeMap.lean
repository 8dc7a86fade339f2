import Rathaxes.Resolve.TypeMap

/-!
# Two ways to the type of the last field

`type_map<T>` and `rtxTypingLookup_ResolveTypeFields` follow the same chain of fields. Both look up one field after the
other, so their loops reach the same type (`Reaches`). Following the chain is all that
`rtxTypingLookup_ResolveTypeFields` does to the variable it is given: what its last statement makes of it does not outlive
the function (`reaches_of_resolveTypeFields`).
-/

set_option autoImplicit false

namespace Rathaxes.Resolve

open CodeWorker Link
open Back (FieldTables TypeForm typeField resolveFields resolveTypeFields typeOfFields)

/-! ## Chains -/

section Chains

variable {τ : Type} [TypeForm τ] {tables : FieldTables τ} {base t : τ} {fields : List String}

/-- Each lookup of `rtxTypingLookup_TypeField` along the chain succeeds, and the last one gives this type. -/
inductive Reaches (tables : FieldTables τ) : τ → List String → τ → Prop where
  | done (t : τ) : Reaches tables t [] t
  | field {container fieldRtype t : τ} {field : String} {fields : List String} :
      typeField tables container field = .ok (some fieldRtype) → Reaches tables fieldRtype fields t →
        Reaches tables container (field :: fields) t

/-- A chain has one type. -/
theorem Reaches.unique {t' : τ} (h : Reaches tables base fields t) (h' : Reaches tables base fields t') : t = t' := by
  induction h with
  | done t =>
    cases h'
    rfl
  | field hfield _ ih =>
    cases h' with
    | field hfield' hrest' =>
      rw [hfield] at hfield'
      cases hfield'
      exact ih hrest'

section Loop

variable {s : Variables τ} {containerRtype outFieldType : Nat} {out : Option τ} {field : String} {fieldRtype : τ}

/-- A turn of the loop of `rtxTypingLookup_ResolveTypeFields`. -/
theorem resolveFields_cons (hout : s.Owns outFieldType out) (hcontainer : s.Owns containerRtype (some base))
    (hne : outFieldType ≠ containerRtype) (hfield : typeField tables base field = .ok (some fieldRtype)) :
    ∃ s₁, resolveFields tables containerRtype outFieldType (field :: fields) s =
        resolveFields tables containerRtype outFieldType fields s₁ ∧
      s₁.Owns outFieldType (some fieldRtype) ∧ s₁.Owns containerRtype (some fieldRtype) := by
  have hassigned := hout.assign (some fieldRtype)
  have hcontainer' := hcontainer.assign_ne hout hne (some fieldRtype)
  refine ⟨_, ?_, hassigned.assign_ne hcontainer' hne.symm _, hcontainer'.assign _⟩
  rw [resolveFields, hcontainer.read_eq]
  simp only [hfield, bind, Except.bind, hassigned.read_eq]

theorem resolveFields_of_reaches (h : Reaches tables base fields t) : ∀ {s : Variables τ} {out : Option τ},
    s.Owns outFieldType out → s.Owns containerRtype (some base) → outFieldType ≠ containerRtype →
      ∃ s', resolveFields tables containerRtype outFieldType fields s = .ok (true, s') := by
  induction h with
  | done t =>
    intro s out _ _ _
    exact ⟨s, rfl⟩
  | field hfield _ ih =>
    intro s out hout hcontainer hne
    obtain ⟨s₁, hturn, hout₁, hcontainer₁⟩ := resolveFields_cons hout hcontainer hne hfield
    rw [hturn]
    exact ih hout₁ hcontainer₁ hne

/-- **The loop of `rtxTypingLookup_ResolveTypeFields`** is the left fold of the lookups: when it comes to its end, the out
parameter has the type of the last field. -/
theorem reaches_of_resolveFields : ∀ {fields : List String} {base : τ} {s s' : Variables τ} {out : Option τ},
    s.Owns outFieldType out → s.Owns containerRtype (some base) → outFieldType ≠ containerRtype →
    resolveFields tables containerRtype outFieldType fields s = .ok (true, s') →
    ∃ t, Reaches tables base fields t ∧ s'.Owns outFieldType (if fields = [] then out else some t)
  | [], base, s, s', out, hout, _, _, h => by
    cases h
    exact ⟨base, .done base, hout⟩
  | field :: fields, base, s, s', out, hout, hcontainer, hne, h => by
    cases hfield : typeField tables base field with
    | error e =>
      rw [resolveFields, hcontainer.read_eq] at h
      simp [hfield, bind, Except.bind] at h
    | ok found =>
      cases found with
      | none =>
        rw [resolveFields, hcontainer.read_eq] at h
        simp [hfield, bind, Except.bind, pure, Except.pure] at h
      | some fieldRtype =>
        obtain ⟨s₁, hturn, hout₁, hcontainer₁⟩ := resolveFields_cons hout hcontainer hne hfield
        rw [hturn] at h
        obtain ⟨t, ht, howns⟩ := reaches_of_resolveFields hout₁ hcontainer₁ hne h
        refine ⟨t, .field hfield ht, ?_⟩
        rw [if_neg (List.cons_ne_nil field fields)]
        split at howns
        · rename_i hfields
          subst hfields
          cases ht
          exact howns
        · exact howns

end Loop

section Call

variable {callers : Variables τ} {field : String}

omit [TypeForm τ] in
/-- The variables the loop starts from: the one the caller has declared, and the container behind it. -/
theorem owns_of_call (callers : Variables τ) (base : τ) :
    let s := callers.declare.declare.declare.assign callers.declare.length (some base)
    s.Owns callers.length none ∧ s.Owns callers.declare.length (some base) := by
  have hne : callers.declare.length ≠ callers.length := by simp
  have hcontainer := callers.declare.owns_declare.declare
  exact ⟨callers.owns_declare.declare.declare.assign_ne hcontainer hne (some base), hcontainer.assign (some base)⟩

/-- **A call of `rtxTypingLookup_ResolveTypeFields`** on a variable the caller has declared: when it returns true, the chain
can be followed, and what is read from the variable is the type of the last field. -/
theorem reaches_of_resolveTypeFields {s : Variables τ}
    (h : resolveTypeFields tables (some base) (field :: fields) callers.length callers.declare = .ok (true, s)) :
    ∃ t, Reaches tables base (field :: fields) t ∧ s.read callers.length = some t := by
  obtain ⟨hout, hcontainer⟩ := owns_of_call callers base
  obtain ⟨⟨found, s₁⟩, hloop, h⟩ := bind_eq_ok_iff.1 h
  cases found with
  | false => cases h
  | true =>
    cases h
    obtain ⟨t, ht, howns⟩ := reaches_of_resolveFields hout hcontainer (by simp) hloop
    rw [if_neg (List.cons_ne_nil field fields)] at howns
    -- the reference to `fieldRtype` goes with the function
    exact ⟨t, ht, (Variables.owns_leave_refer howns (by simp) (by simp)).read_eq⟩

theorem resolveTypeFields_of_reaches (callers : Variables τ) (h : Reaches tables base (field :: fields) t) :
    ∃ s, resolveTypeFields tables (some base) (field :: fields) callers.length callers.declare = .ok (true, s) ∧
      s.read callers.length = some t := by
  obtain ⟨hout, hcontainer⟩ := owns_of_call callers base
  obtain ⟨s₁, hloop⟩ := resolveFields_of_reaches h hout hcontainer (by simp)
  have hcall : resolveTypeFields tables (some base) (field :: fields) callers.length callers.declare = .ok (true, _) :=
    bind_eq_ok_iff.2 ⟨_, hloop, rfl⟩
  obtain ⟨t', ht', hread⟩ := reaches_of_resolveTypeFields hcall
  obtain rfl := ht'.unique h
  exact ⟨_, hcall, hread⟩

theorem typeOfFields_of_reaches (h : Reaches tables base (field :: fields) t) :
    typeOfFields tables (some base) (field :: fields) = .ok (some (some t)) := by
  obtain ⟨s, hcall, hread⟩ := resolveTypeFields_of_reaches [] h
  have hcall : resolveTypeFields tables (some base) (field :: fields) 0 (Variables.declare []) = .ok (true, s) := hcall
  have hread : s.read 0 = some t := hread
  simp [typeOfFields, hcall, hread, bind, Except.bind, pure, Except.pure]

end Call

end Chains

/-- A function that returns false when it has found nothing has found something where it returns true. -/
theorem exists_of_bind_found {α β : Type} {x : Except String (Option α)} {f : Option α → Except String (Option β)}
    {b : β} (h : (x >>= f) = .ok (some b)) (hnone : f none = .ok none) :
    ∃ a, x = .ok (some a) ∧ f (some a) = .ok (some b) := by
  obtain ⟨found, hfound, hrest⟩ := bind_eq_ok_iff.1 h
  cases found with
  | none =>
    rw [hnone] at hrest
    cases hrest
  | some a => exact ⟨a, hfound, hrest⟩

variable {tables : FieldTables QualType} {base : QualType}

/-! ## The other loop -/

/-- **The loop of `type_map<T>`** reaches the same type, if it comes to its end. -/
theorem reaches_of_typeMapLoop {maps : Mappings} : ∀ {fields : List String} {base : QualType} {resVals : List Arg}
    {found : QualType × List Arg}, typeMapLoop maps tables base resVals fields = .ok (some found) →
      Reaches tables base fields found.1
  | [], base, resVals, found, h => by
    cases h
    exact .done base
  | field :: fields, base, resVals, found, h => by
    unfold typeMapLoop at h
    obtain ⟨theTemplate, -, h⟩ := exists_of_bind_found h rfl
    obtain ⟨mappings, -, h⟩ := bind_eq_ok_iff.1 h
    obtain ⟨expr, -, h⟩ := exists_of_bind_found h rfl
    obtain ⟨fieldRtype, hfield, h⟩ := exists_of_bind_found h rfl
    obtain ⟨resVals, -, h⟩ := bind_eq_ok_iff.1 h
    exact .field hfield (reaches_of_typeMapLoop h)

theorem reaches_of_typeMap {maps : Mappings} {resolverValues : List Arg} {mappedIds : List String}
    {found : CNode × QualType} (h : typeMap maps tables resolverValues base mappedIds = .ok (some found)) :
    Reaches tables base mappedIds.tail found.2 := by
  unfold typeMap at h
  simp only at h
  split at h
  · cases h
  · obtain ⟨⟨actualRtype, actualResVals⟩, hloop, h⟩ := exists_of_bind_found h rfl
    simp only at h
    split at h
    · cases h
    · cases h
      exact reaches_of_typeMapLoop hloop

/-! ## The type handed to the caller -/

/-- For this chain `rtxTypingLookup_ResolveTypeFields`, called on a variable its caller has declared, returns true exactly
if each lookup succeeds, and then leaves the type of the last field. It is the one `type_map<T>` reaches, and the one whose
qualifier `inject<"__rtx_var__">` transcribes the expression from. -/
structure ResolvesChain (tables : FieldTables QualType) (callers : Variables QualType) (base : QualType)
    (fields : List String) : Prop where
  found : (∃ s, resolveTypeFields tables (some base) fields callers.length callers.declare = .ok (true, s)) ↔
    ∃ t, Reaches tables base fields t
  last : ∀ s, resolveTypeFields tables (some base) fields callers.length callers.declare = .ok (true, s) →
    ∃ t, Reaches tables base fields t ∧ s.read callers.length = some t
  typeMap : ∀ maps resolverValues theVar value t,
    typeMap maps tables resolverValues base (theVar :: fields) = .ok (some (value, t)) →
      ∃ s, resolveTypeFields tables (some base) fields callers.length callers.declare = .ok (true, s) ∧
        s.read callers.length = some t
  transcribed : ∀ self theVar t, Reaches tables base fields t →
    sourceType tables self base (theVar :: fields) = .ok (some t)

/-- **The two loops agree on every chain**, and the caller gets the type they reach. -/
theorem resolvesChain (tables : FieldTables QualType) (callers : Variables QualType) (base : QualType) (field : String)
    (fields : List String) : ResolvesChain tables callers base (field :: fields) where
  found := by
    constructor
    · rintro ⟨s, h⟩
      obtain ⟨t, ht, -⟩ := reaches_of_resolveTypeFields h
      exact ⟨t, ht⟩
    · rintro ⟨t, ht⟩
      obtain ⟨s, hs, -⟩ := resolveTypeFields_of_reaches callers ht
      exact ⟨s, hs⟩
  last := fun _ h => reaches_of_resolveTypeFields h
  typeMap := fun _ _ _ _ _ h => resolveTypeFields_of_reaches callers (reaches_of_typeMap h)
  transcribed := by
    intro self theVar t ht
    have hfound := typeOfFields_of_reaches ht
    unfold sourceType
    rw [if_neg (by simp)]
    simp only [List.tail_cons, hfound, bind, Except.bind, pure, Except.pure]

/-- The interface `Socket` has a type `Packet` with an attribute `size`, a `ref` to `Builtin::number`. -/
def packetTables : FieldTables QualType where
  attributes itfName :=
    if itfName.text = "Socket" then
      some (Table.empty.set "Packet" (Table.empty.set "size"
        ⟨⟨rtxNodeIdentifier ⟨"number", .refl true⟩ ⟨"Builtin", .refl true⟩, []⟩, .ref⟩))
    else none
  theVariables := Table.empty

/-- The type `Socket::Packet`. -/
def packetType : QualType := ⟨⟨rtxNodeIdentifier ⟨"Packet", .refl true⟩ ⟨"Socket", .refl true⟩, []⟩, .scalar⟩

/-- One template for `Socket::Packet`, with a mapping of `size`. -/
def packetMappings : Mappings where
  session :=
    let template : CachedTemplate := ⟨Table.empty, packetType.rtype, "", Table.empty, Table.empty, none⟩
    let cache := { Cache.empty with
      types := Table.empty.set packetType.rtype.rtxRTypeFullQualifiedName [template] }
    ⟨cache, cache, false⟩
  config := Table.empty
  load _ := .ok (Table.empty.set "size" "Packet_size")
  scripts := Table.empty.set "Packet_size" fun _ => .ok (some (.expr "packet->size"))

example : (resolveTypeFields packetTables (some packetType) ["size"] 0 (Variables.declare [])).map (·.2.read 0) =
    (typeMap packetMappings packetTables [⟨"self", packetType.rtype, .terminalId "packet", rfl⟩] packetType
      ["packet", "size"]).map (·.map Prod.snd) := by
  decide

end Rathaxes.Resolve
