import Rathaxes.Laws.Qualification

/-!
# Builtin types with a body

The check of a builtin type enters its name in the interface, and leaves a body to the check of types, which enters the
name again. A name is entered once, so the second entry fails and nothing of the body is looked at
(`checkBuiltintype_body`). A declaration of a type is therefore accepted or it can be declared as a builtin type, but
never both (`agreesAsBuiltintype_iff`), and no file with such a declaration passes the type check of the middle end
(`body_none_of_accepted`).
-/

set_option autoImplicit false

namespace Rathaxes.Mid

open CodeWorker Interfaces

section Declarations

variable {world : Itf → Nat → Interfaces} {fuel : Nat} {rtype : RType} {body : List TypeItem} {s : CheckState}

/-! ## One declaration -/

/-- The prototype with the scope `enforceScope` gives it. -/
def placed (itfName : Word) (rtype : RType) : RType :=
  if rtype.name.global = false then withScope rtype itfName else rtype

theorem placed_name (itfName : Word) (rtype : RType) : (placed itfName rtype).name.name = rtype.name.name := by
  unfold placed
  split <;> rfl

theorem placed_placed (itfName : Word) (rtype : RType) :
    placed itfName (placed itfName rtype) = placed itfName rtype := by
  by_cases hglobal : rtype.name.global = false
  · have hplaced : placed itfName rtype = withScope rtype itfName := if_pos hglobal
    rw [hplaced]
    exact if_pos hglobal
  · have hplaced : placed itfName rtype = rtype := if_neg hglobal
    rw [hplaced, hplaced]

theorem enforceScope_run : enforceScope rtype s = some (placed s.itf.name rtype, s) := rfl

/-- The state after the entry of a name that is not taken. -/
def entered (name : Word) (s : CheckState) : CheckState :=
  { s with itf := { s.itf with types := s.itf.types ++ [name] }, theType := TypeTables.empty }

theorem addType_of_taken (h : rtype.name.name ∈ s.itf.types) : addType rtype s = some (false, s) := by
  have hadd : addNameToList s.itf.types rtype.name.name = none := if_pos h
  unfold addType
  rw [bind_run (show (get : Check CheckState) s = some (s, s) from rfl), hadd]
  rfl

theorem addType_of_free (h : rtype.name.name ∉ s.itf.types) :
    addType rtype s = some (true, entered rtype.name.name s) := by
  have hadd : addNameToList s.itf.types rtype.name.name = some (s.itf.types ++ [rtype.name.name]) := if_neg h
  unfold addType
  rw [bind_run (show (get : Check CheckState) s = some (s, s) from rfl), hadd]
  rfl

/-- A type is not entered under a name that is taken. -/
theorem checkType_of_taken (h : rtype.name.name ∈ s.itf.types) :
    checkType world fuel rtype body s = some ((false, placed s.itf.name rtype, body), s) := by
  have hplaced : (placed s.itf.name rtype).name.name ∈ s.itf.types := by rwa [placed_name]
  unfold checkType
  rw [bind_run enforceScope_run, bind_run (addType_of_taken hplaced)]
  rfl

/-- **A builtin type with a body is refused.** Its name is entered if it is not taken, and the body stays as it is
written. -/
theorem checkBuiltintype_body :
    checkBuiltintype world fuel rtype (some body) s =
      some ((false, .builtintype (placed s.itf.name rtype) (some body)),
        if rtype.name.name ∈ s.itf.types then s else entered rtype.name.name s) := by
  unfold checkBuiltintype
  rw [bind_run enforceScope_run]
  by_cases h : rtype.name.name ∈ s.itf.types
  · have hplaced : (placed s.itf.name rtype).name.name ∈ s.itf.types := by rwa [placed_name]
    rw [bind_run (addType_of_taken hplaced), if_pos h]
    rfl
  · have hplaced : (placed s.itf.name rtype).name.name ∉ s.itf.types := by rwa [placed_name]
    rw [bind_run (addType_of_free hplaced), if_neg h, placed_name]
    -- the entry has taken the name
    have htaken : (placed s.itf.name rtype).name.name ∈ (entered rtype.name.name s).itf.types := by
      rw [placed_name]
      exact List.mem_append_right _ (List.mem_singleton_self _)
    have hcheck : checkType world fuel (placed s.itf.name rtype) body (entered rtype.name.name s) =
        some ((false, placed s.itf.name (placed s.itf.name rtype), body), entered rtype.name.name s) :=
      checkType_of_taken htaken
    show (checkType world fuel (placed s.itf.name rtype) body >>= _) (entered rtype.name.name s) = _
    rw [bind_run hcheck]
    show some ((false, ItfItem.builtintype (placed s.itf.name (placed s.itf.name rtype)) (some body)), _) = _
    rw [placed_placed]

/-- A type that is accepted is accepted as a builtin type as well, and the same is filed in its node: the pointcuts,
the chunks, the methods, the attributes and the declaration of the type. -/
def AgreesAsBuiltintype (world : Itf → Nat → Interfaces) (fuel : Nat) (rtype : RType) (body : List TypeItem)
    (s : CheckState) : Prop :=
  ∀ rtype' body' t, checkType world fuel rtype body s = some ((true, rtype', body'), t) →
    ∃ item t', checkBuiltintype world fuel rtype (some body) s = some ((true, item), t') ∧ t'.theType = t.theType

/-- **A type can be declared as a builtin one** only where it is not accepted as a type. -/
theorem agreesAsBuiltintype_iff (world : Itf → Nat → Interfaces) (fuel : Nat) (rtype : RType) (body : List TypeItem)
    (s : CheckState) :
    AgreesAsBuiltintype world fuel rtype body s ↔
      ∀ rtype' body' t, checkType world fuel rtype body s ≠ some ((true, rtype', body'), t) := by
  constructor
  · intro h rtype' body' t haccepted
    obtain ⟨item, t', hbuiltin, -⟩ := h rtype' body' t haccepted
    rw [checkBuiltintype_body] at hbuiltin
    cases hbuiltin
  · intro h rtype' body' t haccepted
    exact absurd haccepted (h rtype' body' t)

end Declarations

/-! ## An interface with a pointcut and a type -/

/-- The interface `LKM` with the pointcut `data`, when its types are checked. -/
def lkmState : CheckState where
  itf :=
    { name := ⟨"LKM", .refl true⟩
      types := []
      pointcuts := Table.empty.set "data" (Table.empty.set "LKM::data()"
        ⟨⟨rtxNodeIdentifier ⟨"data", .refl true⟩ ⟨"LKM", .refl true⟩, []⟩, some .provided⟩)
      sequences := Table.empty
      inheritance := [] }
  theVariables := []
  theType := TypeTables.empty
  lookups := 0

/-- A file with this interface alone. -/
def lkmWorld (itf : Itf) (_ : Nat) : Interfaces := ⟨[.itf itf], Table.empty, fun _ _ => false⟩

/-- `LKM::Context`. -/
def contextType : RType := ⟨rtxNodeIdentifier ⟨"Context", .refl true⟩ ⟨"LKM", .refl true⟩, []⟩

/-- Its body, `decl LKM::data();`. -/
def contextBody : List TypeItem := [.typedecl ⟨rtxNodeIdentifier ⟨"data", .refl true⟩ ⟨"LKM", .refl true⟩, []⟩]

/-- The type is accepted, and as a builtin type it is not. -/
theorem context_refused :
    (checkType lkmWorld 4 contextType contextBody lkmState).map (fun r => r.1.1) = some true ∧
      ¬ AgreesAsBuiltintype lkmWorld 4 contextType contextBody lkmState := by
  have haccepted : (checkType lkmWorld 4 contextType contextBody lkmState).map (fun r => r.1.1) = some true := by
    decide
  refine ⟨haccepted, fun h => ?_⟩
  obtain ⟨⟨⟨ok, rtype, body⟩, t⟩, hrun, hok⟩ := Option.map_eq_some_iff.1 haccepted
  obtain rfl : ok = true := hok
  obtain ⟨item, t', hbuiltin, -⟩ := h rtype body t hrun
  rw [checkBuiltintype_body] at hbuiltin
  cases hbuiltin

/-! ## The pass -/

section Pass

variable {cache : Table Itf} {loaded : Nat → Word → Word → Bool} {fuel : Nat}

theorem ensures_refused (world : Itf → Nat → Interfaces) (rtype : RType) (body : List TypeItem) :
    Ensures (fun _ => True) (checkItfItem world fuel (.builtintype rtype (some body))) fun r => r.1 = false := by
  intro s _ r hr
  have hrun := checkBuiltintype_body.symm.trans hr
  cases hrun
  exact ⟨trivial, rfl⟩

/-- A block with such a declaration is not in order. -/
theorem checkBlock_refuses {source : ItfSource} {rtype : RType} {body : List TypeItem}
    (hitem : .builtintype rtype (some body) ∈ source.body) :
    ∀ {items : List SourceItem} {before : List FileItem} {n : Nat} {out : Outcome},
      .itf source ∈ items → checkBlock cache loaded fuel before n items = some out → out.ok = false
  | item :: rest, before, n, out, hmem, h => by
    by_cases hitf : ∃ source', item = .itf source'
    · obtain ⟨source', rfl⟩ := hitf
      obtain ⟨ok, body', s, outRest, hbody, houtRest, rfl⟩ := checkBlock_itf h
      rcases List.mem_cons.1 hmem with hsame | hmem
      · cases hsame
        obtain ⟨-, hok⟩ := ensures_checkEach_refused (ensures_refused _ rtype body) hitem trivial hbody
        have hfalse : ok = false := hok
        simp only [hfalse, Bool.false_and]
      · simp only [checkBlock_refuses hitem hmem houtRest, Bool.and_false]
    · obtain ⟨outRest, houtRest, rfl⟩ := checkBlock_skips (fun source' heq => hitf ⟨source', heq⟩) h
      rcases List.mem_cons.1 hmem with hsame | hmem
      · exact absurd ⟨source, hsame.symm⟩ hitf
      · have hrest : outRest.ok = false := checkBlock_refuses hitem hmem houtRest
        exact hrest

/-- **In a file that is accepted** no builtin type of an interface has a body. -/
theorem body_none_of_accepted {items : List SourceItem} {out : Outcome}
    (h : middleTypeCheck cache loaded fuel items = some out) (hok : out.ok = true) {source : ItfSource}
    (hsource : .itf source ∈ items) {rtype : RType} {body : Option (List TypeItem)}
    (hitem : .builtintype rtype body ∈ source.body) : body = none := by
  cases body with
  | none => rfl
  | some body =>
    unfold middleTypeCheck at h
    simp only at h
    split at h
    · have hrefused := checkBlock_refuses hitem hsource h
      rw [hok] at hrefused
      cases hrefused
    · cases h

end Pass

end Rathaxes.Mid
