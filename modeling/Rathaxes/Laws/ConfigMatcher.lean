import Rathaxes.Link.ConfigMatcher

/-!
# What a with-block's match means

`Meets` is what a single constraint asks of a configuration. The matcher's verdict is proved to
be the conjunction of `Meets` over the constraints it is given (`isWithNodeCompatible_iff`), and
the filing of a list of constraints is proved to keep the last one for each interface and variable
(`fieldConstraint_build`). Put together, the block's match is the conjunction over the constraints
no later one has replaced, which is the conjunction over all of them exactly when the replaced
ones follow from the others.
-/

set_option autoImplicit false

namespace Rathaxes.Link

open CodeWorker

/-- What a constraint asks: when the configuration defines its interface, its variable is defined
there and the comparison answers true. -/
def Meets (config : Config) (c : Constraint) : Prop :=
  ∀ vars, config.get? c.itfName = some vars →
    ∃ var, vars.get? c.varName = some var ∧ compareValues c.op c.val var.val = .ok true

/-- The constraint a block has filed under an interface and a variable. -/
def fieldConstraint (withConfig : WithConfig) (itf var : String) : Option Constraint :=
  (withConfig.get? itf).bind (·.get? var)

/-! ## The matcher -/

theorem matchConstraints_eq_true_iff (vars : Table ConfigVar) :
    ∀ cs : List (String × Constraint), matchConstraints vars cs = .ok true ↔
      ∀ k c, (k, c) ∈ cs →
        ∃ var, vars.get? k = some var ∧ compareValues c.op c.val var.val = .ok true
  | [] => by simp [matchConstraints]
  | (key, cst) :: cs => by
    have ih := matchConstraints_eq_true_iff vars cs
    simp only [List.mem_cons, Prod.mk.injEq]
    constructor
    · intro h
      rw [matchConstraints] at h
      split at h
      · exact absurd h (by simp)
      · rename_i var hvar
        split at h
        · exact absurd h (by simp)
        · exact absurd h (by simp)
        · rename_i hcmp
          rintro k c (⟨rfl, rfl⟩ | hmem)
          · exact ⟨var, hvar, hcmp⟩
          · exact ih.1 h k c hmem
    · intro h
      obtain ⟨var, hvar, hcmp⟩ := h key cst (Or.inl ⟨rfl, rfl⟩)
      simp only [matchConstraints, hvar, hcmp]
      exact ih.2 fun k c hmem => h k c (Or.inr hmem)

theorem matchInterfaces_eq_true_iff (config : Config) :
    ∀ itfs : List (String × Table Constraint), matchInterfaces config itfs = .ok true ↔
      ∀ i cs, (i, cs) ∈ itfs → ∀ vars, config.get? i = some vars →
        matchConstraints vars cs.entries = .ok true
  | [] => by simp [matchInterfaces]
  | (itf, table) :: itfs => by
    have ih := matchInterfaces_eq_true_iff config itfs
    simp only [List.mem_cons, Prod.mk.injEq]
    constructor
    · intro h
      rw [matchInterfaces] at h
      split at h
      · rename_i hnone
        rintro i cs (⟨rfl, rfl⟩ | hmem) vars hvars
        · exact absurd (hnone.symm.trans hvars) (by simp)
        · exact ih.1 h i cs hmem vars hvars
      · rename_i found hfound
        split at h
        · exact absurd h (by simp)
        · exact absurd h (by simp)
        · rename_i hmatch
          rintro i cs (⟨rfl, rfl⟩ | hmem) vars hvars
          · obtain rfl : found = vars := Option.some.inj (hfound.symm.trans hvars)
            exact hmatch
          · exact ih.1 h i cs hmem vars hvars
    · intro h
      have hrest := ih.2 fun i cs hmem => h i cs (Or.inr hmem)
      cases hfound : config.get? itf with
      | none => simpa only [matchInterfaces, hfound] using hrest
      | some vars =>
        simpa only [matchInterfaces, hfound, h itf table (Or.inl ⟨rfl, rfl⟩) vars hfound] using hrest

/-- **A block is compatible exactly when each constraint it has filed holds.** -/
theorem isWithNodeCompatible_iff (withConfig : WithConfig) (config : Config) :
    isWithNodeCompatible withConfig config = .ok true ↔
      ∀ i v c, fieldConstraint withConfig i v = some c → ∀ vars, config.get? i = some vars →
        ∃ var, vars.get? v = some var ∧ compareValues c.op c.val var.val = .ok true := by
  rw [isWithNodeCompatible, matchInterfaces_eq_true_iff]
  constructor
  · intro h i v c hc vars hvars
    obtain ⟨cs, hcs, hcv⟩ := Option.bind_eq_some_iff.1 hc
    have hmatch := h i cs ((withConfig.mem_entries_iff i cs).2 hcs) vars hvars
    exact (matchConstraints_eq_true_iff vars cs.entries).1 hmatch v c
      ((cs.mem_entries_iff v c).2 hcv)
  · intro h i cs hmem vars hvars
    refine (matchConstraints_eq_true_iff vars cs.entries).2 fun v c hvc => ?_
    refine h i v c ?_ vars hvars
    rw [fieldConstraint, (withConfig.mem_entries_iff i cs).1 hmem]
    exact (cs.mem_entries_iff v c).1 hvc

/-! ## Filing the constraints -/

/-- The last constraint of a list on a given interface and variable. -/
def lastOn (itf var : String) (cs : List Constraint) : Option Constraint :=
  cs.reverse.find? fun c => c.itfName = itf ∧ c.varName = var

/-- No later constraint of the list is on the same interface and variable. -/
def Survives (cs : List Constraint) (c : Constraint) : Prop :=
  lastOn c.itfName c.varName cs = some c

instance (cs : List Constraint) (c : Constraint) : Decidable (Survives cs c) :=
  inferInstanceAs (Decidable (_ = _))

theorem lastOn_cons (itf var : String) (c : Constraint) (cs : List Constraint) :
    lastOn itf var (c :: cs) =
      (lastOn itf var cs).or (if c.itfName = itf ∧ c.varName = var then some c else none) := by
  simp [lastOn, List.find?_append, List.find?_singleton]

theorem lastOn_eq_some {itf var : String} {cs : List Constraint} {c : Constraint}
    (h : lastOn itf var cs = some c) : c ∈ cs ∧ c.itfName = itf ∧ c.varName = var := by
  refine ⟨List.mem_reverse.1 (List.mem_of_find?_eq_some h), ?_⟩
  simpa using List.find?_some h

/-- One filing: the new constraint is found under its own interface and variable, everything else
is as before. -/
theorem fieldConstraint_assoc (w : WithNode) {key : String} {c : Constraint}
    (hkey : w.constraints.get? key = some c) (itf var : String) :
    fieldConstraint (w.assocInterfaceConstraint c.itfName key).config itf var =
      if c.itfName = itf ∧ c.varName = var then some c
      else fieldConstraint w.config itf var := by
  simp only [WithNode.assocInterfaceConstraint, hkey, fieldConstraint, Table.get?_set]
  by_cases hi : itf = c.itfName
  · subst hi
    by_cases hv : var = c.varName
    · simp [Table.get?_set, hv]
    · cases hold : w.config.get? c.itfName <;> simp [Table.get?_set, hv, Ne.symm hv]
  · simp [hi, Ne.symm hi]

@[simp] theorem constraints_assoc (w : WithNode) (itf key : String) :
    (w.assocInterfaceConstraint itf key).constraints = w.constraints := by
  unfold WithNode.assocInterfaceConstraint
  split <;> rfl

/-- The first loop of the filing, from any block: the last constraint on an interface and a
variable wins over the earlier ones and over what the block had there. -/
theorem fieldConstraint_foldl (itf var : String) :
    ∀ (es : List (String × Constraint)) (w : WithNode),
      (∀ e ∈ es, w.constraints.get? e.1 = some e.2) →
      fieldConstraint
          (es.foldl (fun n e => n.assocInterfaceConstraint e.2.itfName e.1) w).config itf var =
        (lastOn itf var (es.map Prod.snd)).or (fieldConstraint w.config itf var)
  | [], w, _ => by simp [lastOn]
  | e :: es, w, h => by
    have hhead := h e (List.mem_cons_self ..)
    have hrest : ∀ e' ∈ es, (w.assocInterfaceConstraint e.2.itfName e.1).constraints.get? e'.1
        = some e'.2 := by
      intro e' hmem
      rw [constraints_assoc]
      exact h e' (List.mem_cons_of_mem e hmem)
    rw [List.foldl_cons, fieldConstraint_foldl itf var es _ hrest, fieldConstraint_assoc w hhead,
      List.map_cons, lastOn_cons, Option.or_assoc]
    congr 1
    split <;> simp

@[simp] theorem config_removeConstraint (w : WithNode) (key : String) :
    (w.removeConstraint key).config = w.config := rfl

/-- The second loop only empties the list of constraints. -/
theorem config_foldl_remove : ∀ (keys : List String) (w : WithNode),
    (keys.foldl WithNode.removeConstraint w).config = w.config
  | [], _ => rfl
  | key :: keys, w => by
    rw [List.foldl_cons, config_foldl_remove keys, config_removeConstraint]

/-- **Filing keeps the last constraint on each interface and variable, and only that one.** -/
theorem fieldConstraint_build (itfs : List Word) (hitfs : itfs ≠ []) (cs : List Constraint)
    (itf var : String) :
    fieldConstraint (rtxNodeWith itfs hitfs cs).buildFromConstraints.config itf var =
      lastOn itf var cs := by
  rw [WithNode.buildFromConstraints, config_foldl_remove, fieldConstraint_foldl]
  · have hempty : fieldConstraint (rtxNodeWith itfs hitfs cs).config itf var = none := rfl
    rw [hempty, Option.or_none]
    exact congrArg (lastOn itf var) (Table.values_ofList cs)
  · intro e hmem
    exact (Table.mem_entries_iff _ e.1 e.2).1 hmem

/-! ## The block's match -/

/-- The match of a parsed block is the conjunction over its surviving constraints. -/
theorem compatible_build_iff (itfs : List Word) (hitfs : itfs ≠ []) (cs : List Constraint)
    (config : Config) :
    isWithNodeCompatible (rtxNodeWith itfs hitfs cs).buildFromConstraints.config config = .ok true ↔
      ∀ c, Survives cs c → Meets config c := by
  rw [isWithNodeCompatible_iff]
  simp only [fieldConstraint_build]
  constructor
  · intro h c hc vars hvars
    exact h c.itfName c.varName c hc vars hvars
  · intro h i v c hc vars hvars
    obtain ⟨-, rfl, rfl⟩ := lastOn_eq_some hc
    exact h c hc vars hvars

/-- **When a block's match is the conjunction of all its constraints.** It is, for a given
configuration, exactly when the constraints a later one has replaced all hold there as soon as the
surviving ones do. -/
theorem compatible_iff_all_meet_iff (itfs : List Word) (hitfs : itfs ≠ []) (cs : List Constraint)
    (config : Config) :
    (isWithNodeCompatible (rtxNodeWith itfs hitfs cs).buildFromConstraints.config config = .ok true
        ↔ ∀ c ∈ cs, Meets config c) ↔
      ((∀ c ∈ cs, Survives cs c → Meets config c) →
        ∀ c ∈ cs, ¬ Survives cs c → Meets config c) := by
  rw [compatible_build_iff]
  have hmem : ∀ c, Survives cs c → c ∈ cs := fun c hc => (lastOn_eq_some hc).1
  constructor
  · intro h hsurv c hc _
    exact h.1 (fun d hd => hsurv d (hmem d hd) hd) c hc
  · intro h
    constructor
    · intro hsurv c hc
      by_cases hs : Survives cs c
      · exact hsurv c hs
      · exact h (fun d _ hd => hsurv d hd) c hc hs
    · intro hall c hc
      exact hall c (hmem c hc)

/-! ## A lost bound -/

/-- The node `rtxType_Parse` builds for a number. -/
def numberNode (str : String) : ValueNode where
  type := "__rtx_number__"
  rtype := ⟨rtxNodeIdentifier ⟨"number", .refl true⟩ ⟨"Builtin", .refl true⟩, []⟩
  val := str
  list := []

/-- `LKM::version op bound`. -/
def versionIs (op : Operator) (bound location : String) : Constraint where
  var := rtxNodeIdentifier ⟨"version", .refl true⟩ ⟨"LKM", .refl true⟩
  op := op
  val := numberNode bound
  location := location

/-- The configuration that sets `LKM::version` and nothing else. -/
def versionConfig (value : String) : Config :=
  Table.empty.set "LKM" (Table.empty.set "version" ⟨"__rtx_number__", numberNode value⟩)

/-- `with LKM values LKM::version < 5, LKM::version < 3` on version 2, which meets the bound that is lost too. -/
theorem lost_bound_met :
    isWithNodeCompatible
        (rtxNodeWith [⟨"LKM", rfl⟩] (by decide) [versionIs .lesser "5" "a:1:1",
          versionIs .lesser "3" "a:1:20"]).buildFromConstraints.config (versionConfig "2") = .ok true ↔
      ∀ c ∈ [versionIs .lesser "5" "a:1:1", versionIs .lesser "3" "a:1:20"], Meets (versionConfig "2") c := by
  refine (compatible_iff_all_meet_iff _ (by decide) _ _).2 fun _ c hc hlost => ?_
  rcases List.mem_pair.1 hc with rfl | rfl
  · intro vars hvars
    cases hvars
    exact ⟨_, rfl, by decide⟩
  · exact absurd (by decide) hlost

/-- `with LKM values LKM::version < 3, LKM::version >= 2` on version 4: the upper bound is lost to
the lower one, and the block matches. -/
theorem upper_bound_lost :
    isWithNodeCompatible
        (rtxNodeWith [⟨"LKM", rfl⟩] (by decide) [versionIs .lesser "3" "a:1:1",
          versionIs .greaterEqual "2" "a:1:20"]).buildFromConstraints.config
        (versionConfig "4") = .ok true ∧
      ¬ Meets (versionConfig "4") (versionIs .lesser "3" "a:1:1") := by
  refine ⟨by decide, fun h => ?_⟩
  obtain ⟨var, hvar, hcmp⟩ := h _ rfl
  cases hvar
  exact absurd hcmp (by decide)

end Rathaxes.Link
