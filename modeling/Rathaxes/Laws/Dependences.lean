import Rathaxes.CodeWorker.Grouping
import Rathaxes.Laws.TypeReordering

/-!
# The dependences of a body

A declaration gets a list of the types its fields use. A field is not entered if the list has its type
already, by name and kind, so every type is listed once. But the field that is left out leaves its flag
out too: `aggreg` tells how the first field uses the type. It tells whether the type is used by value at
all just when no type is first used through a pointer and by value later (`listsUses_iff_valueFirst`).
-/

set_option autoImplicit false

namespace Rathaxes.Resolve

open CodeWorker

/-! ## Vocabulary -/

/-- What the check against multiple insertions compares. -/
def Dep.key (dep : Dep) : String × DepType := (dep.name, dep.type)

/-- The type a field uses, by name and kind. -/
def CDecl.typeUsed (use : CDecl) : Option (String × DepType) := use.dep.toOption.map Dep.key

/-- The list has every named type that the fields of a body use once, and its flag says whether one of
them uses it by value. -/
structure ListsUses (body : List CDecl) (list : List Dep) : Prop where
  once : ∀ use ∈ fieldsOf body, ∀ key, use.typeUsed = some key → key.1 ≠ "" →
    list.countP (fun dep => dep.key = key) = 1
  flag : ∀ dep ∈ list, dep.name ≠ "" →
    (dep.aggreg = true ↔ ∃ use ∈ fieldsOf body, use.typeUsed = some dep.key ∧ use.ctype.pointer = false)

/-- The first field of a body that uses a type. -/
def firstUse (body : List CDecl) (key : String × DepType) : Option CDecl :=
  (fieldsOf body).find? fun use => use.typeUsed = some key

/-- A named type that some field uses by value is used by value by the first field that uses it. -/
def ValueFirst (body : List CDecl) : Prop :=
  ∀ use ∈ fieldsOf body, ∀ key, use.typeUsed = some key → key.1 ≠ "" → use.ctype.pointer = false →
    ∀ first, firstUse body key = some first → first.ctype.pointer = false

/-! ## One field -/

theorem CDecl.typeUsed_of_dep {use : CDecl} {dep : Dep} (h : use.dep = .ok dep) :
    use.typeUsed = some dep.key := by
  rw [CDecl.typeUsed, h]
  rfl

theorem CDecl.dep_of_typeUsed {use : CDecl} {key : String × DepType} (h : use.typeUsed = some key) :
    ∃ dep, use.dep = .ok dep ∧ dep.key = key := by
  unfold CDecl.typeUsed at h
  cases hdep : use.dep with
  | error message =>
    rw [hdep] at h
    cases h
  | ok dep =>
    rw [hdep] at h
    exact ⟨dep, rfl, Option.some.inj h⟩

/-- All four branches set the flag alike. -/
theorem CDecl.aggreg_of_dep {use : CDecl} {dep : Dep} (h : use.dep = .ok dep) :
    dep.aggreg = !use.ctype.pointer := by
  unfold CDecl.dep at h
  simp only at h
  split at h
  · cases h
    rfl
  · split at h
    · cases h
      rfl
    · split at h
      · split at h
        · split at h
          · cases h
            rfl
          · cases h
            rfl
        · cases h
          rfl
      · cases h

theorem any_same_iff {dep : Dep} {list : List Dep} :
    list.any dep.same = true ↔ dep.key ∈ list.map Dep.key := by
  rw [List.any_eq_true, List.mem_map]
  refine exists_congr fun entry => and_congr_right fun _ => ?_
  rw [Dep.same, Bool.and_eq_true, decide_eq_true_iff, decide_eq_true_iff, Dep.key, Dep.key, Prod.mk.injEq]

/-! ## The lists while a body is walked -/

/-- Every type of a chunk has one and the same list. -/
def SameLists (ts : List TypeId) (deps : Deps) (list : List Dep) : Prop :=
  ∀ t ∈ ts, (deps.get? t).map TypeEntry.list = some list

namespace SameLists

variable {ts : List TypeId} {deps deps' : Deps} {list : List Dep} {use : CDecl}

theorem listOf_eq (h : SameLists ts deps list) {t : TypeId} (ht : t ∈ ts) : deps.listOf t = list := by
  rw [Deps.listOf, h t ht]
  rfl

/-- Types that have no dependences have the same list once they are located. -/
theorem located {key : Nat} (h : ∀ t ∈ ts, deps.listOf t = []) :
    SameLists ts (ts.foldl (fun deps t => deps.locate key t) deps) [] := by
  intro t ht
  rw [Deps.get?_foldl_locate, if_pos ht, h t ht]
  rfl

theorem frontList_eq (h : SameLists ts deps list) (hts : ts ≠ []) : frontList ts deps = list := by
  obtain ⟨t, ts, rfl⟩ := List.exists_cons_of_ne_nil hts
  exact h.listOf_eq List.mem_cons_self

/-- One field: its type is added to all the lists, unless it is there. -/
theorem step {dep : Dep} (h : SameLists ts deps list) (hts : ts ≠ []) (hnodup : ts.Nodup)
    (hdep : use.dep = .ok dep) (hstep : insertDep ts deps use = .ok deps') :
    SameLists ts deps' (addFirst Dep.key list dep) := by
  obtain ⟨dep', hdep', hcases⟩ := insertDep_eq_ok_iff.1 hstep
  obtain rfl : dep = dep' := Except.ok.inj (hdep.symm.trans hdep')
  rw [h.frontList_eq hts] at hcases
  unfold addFirst
  rcases hcases with ⟨hany, heq⟩ | ⟨hany, heq⟩
  · rw [if_pos (any_same_iff.1 hany), heq]
    exact h
  · have hnew : dep.key ∉ list.map Dep.key := by
      rw [← any_same_iff, hany]
      exact Bool.false_ne_true
    rw [if_neg hnew, heq]
    intro t ht
    rw [Deps.get?_foldl_push dep t ts deps hnodup, if_pos ht]
    obtain ⟨entry, hget, hlist⟩ := Option.map_eq_some_iff.1 (h t ht)
    rw [hget, ← hlist]
    rfl

/-- All the fields. -/
theorem run (hts : ts ≠ []) (hnodup : ts.Nodup) : ∀ {uses : List CDecl} {deps : Deps} {list : List Dep},
    SameLists ts deps list → uses.foldlM (insertDep ts) deps = .ok deps' →
      (∀ use ∈ uses, ∃ dep, use.dep = .ok dep) ∧
        SameLists ts deps' ((uses.filterMap fun use => use.dep.toOption).foldl (addFirst Dep.key) list) := by
  intro uses
  induction uses with
  | nil =>
    intro deps list h hrun
    cases hrun
    exact ⟨fun use huse => absurd huse List.not_mem_nil, h⟩
  | cons use uses ih =>
    intro deps list h hrun
    rw [List.foldlM_cons] at hrun
    obtain ⟨deps₁, hstep, hrun⟩ := bind_eq_ok_iff.1 hrun
    obtain ⟨dep, hdep, -⟩ := insertDep_eq_ok_iff.1 hstep
    obtain ⟨hall, hlists⟩ := ih (h.step hts hnodup hdep hstep) hrun
    refine ⟨List.forall_mem_cons.2 ⟨⟨dep, hdep⟩, hall⟩, ?_⟩
    rw [List.filterMap_cons, hdep]
    exact hlists

end SameLists

/-! ## The list of a body -/

/-- The dependences of the fields of a body, the first of each type. -/
def listedUses (body : List CDecl) : List Dep :=
  firstItems Dep.key ((fieldsOf body).filterMap fun use => use.dep.toOption)

/-- A dependence is listed just when the first field that uses its type makes it. -/
theorem mem_listedUses_iff {body : List CDecl} {dep : Dep} :
    dep ∈ listedUses body ↔ ∃ first, firstUse body dep.key = some first ∧ first.dep = .ok dep := by
  have htest : (fun use : CDecl => use.dep.toOption.any fun d => decide (d.key = dep.key)) =
      fun use => decide (use.typeUsed = some dep.key) := by
    funext use
    unfold CDecl.typeUsed
    cases use.dep with
    | error message => simp [Except.toOption]
    | ok d => simp [Except.toOption]
  rw [listedUses, mem_firstItems, List.find?_filterMap, htest, Option.bind_eq_some_iff]
  refine exists_congr fun first => and_congr_right fun _ => ?_
  cases first.dep with
  | error message => simp [Except.toOption]
  | ok d => simp [Except.toOption]

/-- A type that some field uses has a first use, and it is listed. -/
theorem exists_listed {body : List CDecl} {use : CDecl} {key : String × DepType}
    (huse : use ∈ fieldsOf body) (hkey : use.typeUsed = some key) :
    ∃ first dep, firstUse body key = some first ∧ first.dep = .ok dep ∧ dep.key = key ∧
      dep ∈ listedUses body := by
  obtain ⟨first, hfirst⟩ : ∃ first, firstUse body key = some first := by
    rw [← Option.isSome_iff_exists, firstUse, List.find?_isSome]
    exact ⟨use, huse, decide_eq_true hkey⟩
  have hused : first.typeUsed = some key := by
    have htest := List.find?_some hfirst
    exact of_decide_eq_true htest
  obtain ⟨dep, hdep, rfl⟩ := CDecl.dep_of_typeUsed hused
  exact ⟨first, dep, hfirst, hdep, rfl, mem_listedUses_iff.2 ⟨first, hfirst, hdep⟩⟩

theorem countP_listedUses {body : List CDecl} {use : CDecl} {key : String × DepType}
    (huse : use ∈ fieldsOf body) (hkey : use.typeUsed = some key) :
    (listedUses body).countP (fun dep => dep.key = key) = 1 := by
  obtain ⟨dep, hdep, rfl⟩ := CDecl.dep_of_typeUsed hkey
  apply countP_firstItems
  refine List.mem_map_of_mem (List.mem_filterMap.2 ⟨use, huse, ?_⟩)
  rw [hdep]
  rfl

/-- The flag of a listed dependence is that of the first use. -/
theorem listsUses_listedUses_iff {body : List CDecl} :
    ListsUses body (listedUses body) ↔ ValueFirst body := by
  constructor
  · intro h use huse key hkey hnamed hvalue first hfirst
    obtain ⟨first', dep, hfirst', hdep, rfl, hmem⟩ := exists_listed huse hkey
    obtain rfl : first = first' := Option.some.inj (hfirst.symm.trans hfirst')
    have hflag : dep.aggreg = true := (h.flag dep hmem hnamed).2 ⟨use, huse, hkey, hvalue⟩
    rw [CDecl.aggreg_of_dep hdep, Bool.not_eq_true'] at hflag
    exact hflag
  · intro h
    refine ⟨fun use huse key hkey _ => countP_listedUses huse hkey, fun dep hmem hnamed => ?_⟩
    obtain ⟨first, hfirst, hdep⟩ := mem_listedUses_iff.1 hmem
    rw [CDecl.aggreg_of_dep hdep, Bool.not_eq_true']
    constructor
    · intro hvalue
      exact ⟨first, List.mem_of_find?_eq_some hfirst, CDecl.typeUsed_of_dep hdep, hvalue⟩
    · rintro ⟨use, huse, hkey, hvalue⟩
      exact h use huse dep.key hkey hnamed hvalue first hfirst

section Chunk

variable {chunk : CDecl} {ts : List TypeId}

/-- The recursion over the body of a chunk fails at a field that is not managed, and leaves else the
dependences of the body with every type of the chunk. -/
theorem recurseTypeDecl_listOf_iff {deps : Deps} {t : TypeId} (hts : chunk.declared = .ok ts) (ht : t ∈ ts)
    (hempty : ∀ t ∈ ts, deps.listOf t = []) (key : Nat) (list : List Dep) :
    (∃ deps', recurseTypeDecl ts (ts.foldl (fun deps t => deps.locate key t) deps) chunk.body = .ok deps' ∧
      deps'.listOf t = list) ↔
      (∀ use ∈ fieldsOf chunk.body, ∃ dep, use.dep = .ok dep) ∧ list = listedUses chunk.body := by
  have hne : ts ≠ [] := List.ne_nil_of_mem ht
  have hnodup := CDecl.nodup_declared hts
  have hstart : SameLists ts (ts.foldl (fun deps t => deps.locate key t) deps) [] := .located hempty
  rw [recurseTypeDecl_eq]
  constructor
  · rintro ⟨deps', hrun, rfl⟩
    obtain ⟨hall, hlists⟩ := SameLists.run hne hnodup hstart hrun
    exact ⟨hall, hlists.listOf_eq ht⟩
  · rintro ⟨hall, rfl⟩
    obtain ⟨deps', hrun⟩ := foldlM_insertDep_ok hall (ts.foldl (fun deps t => deps.locate key t) deps)
    exact ⟨deps', hrun, (SameLists.run hne hnodup hstart hrun).2.listOf_eq ht⟩

/-- **The dependences of a body.** A chunk that declares types which have no dependences yet gets each
named type its fields use listed once, flagged as used by value just when one of them does, if and only
if every field is managed and no named type is used through a pointer first and by value later. -/
theorem listsUses_iff_valueFirst {deps : Deps} {t : TypeId} (hts : chunk.declared = .ok ts) (ht : t ∈ ts)
    (hempty : ∀ t ∈ ts, deps.listOf t = []) (key : Nat) :
    (∃ deps', recurseTypeDecl ts (ts.foldl (fun deps t => deps.locate key t) deps) chunk.body = .ok deps' ∧
      ListsUses chunk.body (deps'.listOf t)) ↔
      (∀ use ∈ fieldsOf chunk.body, ∃ dep, use.dep = .ok dep) ∧ ValueFirst chunk.body := by
  rw [← listsUses_listedUses_iff]
  constructor
  · rintro ⟨deps', hrun, hlists⟩
    obtain ⟨hall, heq⟩ := (recurseTypeDecl_listOf_iff hts ht hempty key _).1 ⟨deps', hrun, rfl⟩
    rw [heq] at hlists
    exact ⟨hall, hlists⟩
  · rintro ⟨hall, hlists⟩
    obtain ⟨deps', hrun, heq⟩ := (recurseTypeDecl_listOf_iff hts ht hempty key _).2 ⟨hall, rfl⟩
    rw [← heq] at hlists
    exact ⟨deps', hrun, hlists⟩

end Chunk

/-- `struct S { struct A field; struct A *field; };` -/
def valueThenPointer : CDecl := structDecl "S" [structField "A" false, structField "A" true]

theorem listsUses_valueThenPointer :
    ∃ deps', recurseTypeDecl [⟨.struct, "S"⟩] (Deps.empty.locate 0 ⟨.struct, "S"⟩) valueThenPointer.body =
      .ok deps' ∧ ListsUses valueThenPointer.body (deps'.listOf ⟨.struct, "S"⟩) := by
  have hdeps : ∀ use ∈ fieldsOf valueThenPointer.body, ∃ dep, use.dep = .ok dep := by
    intro use huse
    rcases List.mem_pair.1 huse with rfl | rfl
    · exact ⟨_, rfl⟩
    · exact ⟨_, rfl⟩
  have hfirst : ValueFirst valueThenPointer.body := by
    intro use huse key hkey _ hvalue first hfirst
    rcases List.mem_pair.1 huse with rfl | rfl
    · cases hkey
      cases hfirst
      rfl
    · cases hvalue
  have hdeclared : valueThenPointer.declared = .ok [⟨.struct, "S"⟩] := rfl
  have hempty : ∀ t ∈ [(⟨.struct, "S"⟩ : TypeId)], Deps.empty.listOf t = [] :=
    fun t _ => Deps.listOf_of_none (Deps.get?_empty t)
  exact (listsUses_iff_valueFirst hdeclared List.mem_cons_self hempty 0).2 ⟨hdeps, hfirst⟩

/-- `struct S { struct A *field; struct A field; };` -/
def pointerThenValue : CDecl := structDecl "S" [structField "A" true, structField "A" false]

/-- The type is used by value, and its flag says that it is not. -/
theorem pointerThenValue_unflagged :
    ∃ deps', recurseTypeDecl [⟨.struct, "S"⟩] (Deps.empty.locate 0 ⟨.struct, "S"⟩) pointerThenValue.body =
        .ok deps' ∧
      deps'.listOf ⟨.struct, "S"⟩ = [⟨"A", .specified .struct, false⟩] ∧
      ¬ ListsUses pointerThenValue.body (deps'.listOf ⟨.struct, "S"⟩) := by
  refine ⟨_, rfl, rfl, ?_⟩
  intro h
  have hflag := (h.flag ⟨"A", .specified .struct, false⟩ (List.mem_singleton.2 rfl) (by decide)).2
    ⟨structField "A" false, List.mem_cons_of_mem _ List.mem_cons_self, rfl, rfl⟩
  cases hflag

end Rathaxes.Resolve
