import Rathaxes.Front.Generate
import Rathaxes.Laws.Recursion

/-!
# What a driver consists of

The generation of a driver goes over the devices of a file and instantiates the same global code for each of them, with
no values. So a driver is the expansion of the global code that goes with the configuration, once for every device of the
file (`eventually_frontGenerate_iff`). A file without a device gives an empty driver, whatever is in the cache.

The instances have to be complete. So in a driver no placeholder is left, and the global code it is made of leads to no
chunk that comes to need itself (`complete_of_frontGenerate`).
-/

set_option autoImplicit false

namespace Rathaxes.Front

open CodeWorker Link Resolve

variable {C A D V : Type}

/-- The number of devices of a file. -/
def devices (file : List RootItem) : Nat :=
  file.countP fun
    | .device _ => true
    | _ => false

namespace Generator

variable {g : Generator C A D V} {fuel : Nat}

/-! ## One run -/

/-- The instances of pieces of global code at some depth, all of them complete. -/
def InstancesAt (g : Generator C A D V) (fuel : Nat) : List GlobalCode → List (List (Woven C)) → Prop :=
  List.Forall₂ fun withNode stmts =>
    ∃ theTree, g.loadGlobal withNode = .ok theTree ∧ g.instanceChunk fuel g.noVals theTree = .ok (stmts, true)

theorem InstancesAt.completes {globals : List GlobalCode} {parts : List (List (Woven C))}
    (h : g.InstancesAt fuel globals parts) :
    ∀ withNode ∈ globals, ∃ theTree, g.loadGlobal withNode = .ok theTree ∧ g.Completes fuel theTree := by
  intro withNode hmem
  obtain ⟨stmts, -, theTree, hload, hinstance⟩ := exists_right_of_forall₂ h hmem
  exact ⟨theTree, hload, g.noVals, stmts, hinstance⟩

/-- The code of a device is put together from these. -/
def CodeAt (g : Generator C A D V) (fuel : Nat) (code : List (Woven C)) : Prop :=
  ∃ globals parts, findGlobalCode g.session g.config = .ok globals ∧ globals ≠ [] ∧ g.InstancesAt fuel globals parts ∧
    code = parts.flatten

/-- The loop appends the instances, if all of them are complete. -/
theorem genGlobalCode_eq_ok_iff : ∀ {globals : List GlobalCode} {cTree out : List (Woven C)},
    g.genGlobalCode fuel globals cTree = .ok (out, true) ↔
      ∃ parts, g.InstancesAt fuel globals parts ∧ out = cTree ++ parts.flatten
  | [], cTree, out => by
    constructor
    · intro h
      cases h
      exact ⟨[], List.Forall₂.nil, (List.append_nil _).symm⟩
    · rintro ⟨parts, hparts, rfl⟩
      cases hparts
      rw [List.flatten_nil, List.append_nil]
      rfl
  | withNode :: globals, cTree, out => by
    constructor
    · intro h
      obtain ⟨theTree, hload, h⟩ := bind_eq_ok_iff.1 h
      obtain ⟨⟨stmts, complete⟩, hinstance, h⟩ := bind_eq_ok_iff.1 h
      cases complete with
      | false => cases h
      | true =>
        obtain ⟨parts, hparts, rfl⟩ := genGlobalCode_eq_ok_iff.1 h
        refine ⟨stmts :: parts, List.Forall₂.cons ⟨theTree, hload, hinstance⟩ hparts, ?_⟩
        rw [List.flatten_cons, List.append_assoc]
    · rintro ⟨parts, hparts, rfl⟩
      cases hparts with
      | @cons _ stmts _ parts hfirst hrest =>
        obtain ⟨theTree, hload, hinstance⟩ := hfirst
        refine bind_eq_ok_iff.2 ⟨theTree, hload, bind_eq_ok_iff.2 ⟨(stmts, true), hinstance, ?_⟩⟩
        refine genGlobalCode_eq_ok_iff.2 ⟨parts, hrest, ?_⟩
        rw [List.flatten_cons, List.append_assoc]

/-- A device appends its code. -/
theorem genDevice_eq_ok_iff {theDevice : Device} {cTree out : List (Woven C)} :
    g.genDevice fuel theDevice cTree = .ok (out, true) ↔ ∃ code, g.CodeAt fuel code ∧ out = cTree ++ code := by
  constructor
  · intro h
    obtain ⟨globals, hglobals, h⟩ := bind_eq_ok_iff.1 h
    split at h
    · cases h
    · rename_i hsome
      obtain ⟨parts, hparts, rfl⟩ := genGlobalCode_eq_ok_iff.1 h
      refine ⟨parts.flatten, ⟨globals, parts, hglobals, ?_, hparts, rfl⟩, rfl⟩
      rintro rfl
      exact hsome rfl
  · rintro ⟨-, ⟨globals, parts, hglobals, hsome, hparts, rfl⟩, rfl⟩
    refine bind_eq_ok_iff.2 ⟨globals, hglobals, ?_⟩
    rw [if_neg (by simpa using hsome)]
    exact genGlobalCode_eq_ok_iff.2 ⟨parts, hparts, rfl⟩

/-- The code is the same for every device. -/
theorem CodeAt.unique {code code' : List (Woven C)} (h : g.CodeAt fuel code) (h' : g.CodeAt fuel code') :
    code = code' := by
  have hrun : ∀ {code}, g.CodeAt fuel code → g.genDevice fuel ⟨Word.blank, [], []⟩ [] = .ok (code, true) :=
    fun hcode => genDevice_eq_ok_iff.2 ⟨_, hcode, rfl⟩
  exact (Prod.mk.inj (Except.ok.inj ((hrun h).symm.trans (hrun h')))).1

/-- The number of errors does not go down. -/
theorem le_of_iterate : ∀ {items : List RootItem} {cTree out : List (Woven C)} {n m : Nat},
    g.iterate fuel items cTree n = .ok (out, m) → n ≤ m
  | [], cTree, out, n, m, h => by
    cases h
    exact Nat.le_refl _
  | .config :: items, cTree, out, n, m, h => by
    have h : g.iterate fuel items cTree n = .ok (out, m) := h
    exact le_of_iterate h
  | .other :: items, cTree, out, n, m, h => by
    have h : g.iterate fuel items cTree n = .ok (out, m) := h
    exact le_of_iterate h
  | .device theDevice :: items, cTree, out, n, m, h => by
    obtain ⟨⟨cTree', ok⟩, -, h⟩ := bind_eq_ok_iff.1 h
    have hle := le_of_iterate h
    cases ok with
    | true => exact hle
    | false => exact Nat.le_of_succ_le hle

/-- The loop over the items appends the code once for every device. -/
theorem iterate_eq_ok_iff : ∀ {items : List RootItem} {cTree out : List (Woven C)},
    g.iterate fuel items cTree 0 = .ok (out, 0) ↔
      ∃ code, (devices items ≠ 0 → g.CodeAt fuel code) ∧ out = cTree ++ (List.replicate (devices items) code).flatten
  | [], cTree, out => by
    constructor
    · intro h
      cases h
      exact ⟨[], fun hne => absurd rfl hne, (List.append_nil _).symm⟩
    · rintro ⟨code, -, rfl⟩
      show Except.ok (cTree, 0) = Except.ok (cTree ++ [], 0)
      rw [List.append_nil]
  | .config :: items, cTree, out => by
    show g.iterate fuel items cTree 0 = .ok (out, 0) ↔ _
    exact iterate_eq_ok_iff
  | .other :: items, cTree, out => by
    show g.iterate fuel items cTree 0 = .ok (out, 0) ↔ _
    exact iterate_eq_ok_iff
  | .device theDevice :: items, cTree, out => by
    have hcount : devices (.device theDevice :: items) = devices items + 1 := List.countP_cons_of_pos rfl
    constructor
    · intro h
      obtain ⟨⟨cTree', ok⟩, hdevice, h⟩ := bind_eq_ok_iff.1 h
      cases ok with
      | false => exact absurd (le_of_iterate h) (by decide)
      | true =>
        obtain ⟨code, hcode, rfl⟩ := genDevice_eq_ok_iff.1 hdevice
        obtain ⟨code', hcode', rfl⟩ := iterate_eq_ok_iff.1 h
        refine ⟨code, fun _ => hcode, ?_⟩
        rw [hcount, List.replicate_succ, List.flatten_cons, ← List.append_assoc]
        cases hrest : devices items with
        | zero => rfl
        | succ n => rw [hcode.unique (hcode' (by omega))]
    · rintro ⟨code, hcode, rfl⟩
      have hcode := hcode (by omega)
      refine bind_eq_ok_iff.2 ⟨(cTree ++ code, true), genDevice_eq_ok_iff.2 ⟨code, hcode, rfl⟩, ?_⟩
      refine iterate_eq_ok_iff.2 ⟨code, fun _ => hcode, ?_⟩
      rw [hcount, List.replicate_succ, List.flatten_cons, ← List.append_assoc]

theorem frontGenerate_eq_ok_iff {file : List RootItem} {out : List (Woven C)} :
    g.frontGenerate fuel file = .ok out ↔ g.iterate fuel file [] 0 = .ok (out, 0) := by
  constructor
  · intro h
    obtain ⟨⟨cTree, errcount⟩, hrun, h⟩ := bind_eq_ok_iff.1 h
    cases errcount with
    | zero =>
      cases h
      exact hrun
    | succ n => cases h
  · intro h
    exact bind_eq_ok_iff.2 ⟨(out, 0), h, rfl⟩

/-! ## The driver -/

/-- The code of a device: the global code for the configuration, expanded. -/
def Code (g : Generator C A D V) (code : List (Woven C)) : Prop :=
  ∃ globals parts, findGlobalCode g.session g.config = .ok globals ∧ globals ≠ [] ∧
    List.Forall₂ (fun withNode stmts =>
      ∃ theTree, g.loadGlobal withNode = .ok theTree ∧ g.Expands g.noVals theTree (stmts, true)) globals parts ∧
    code = parts.flatten

section Driver

variable (hcached : ∀ tree, g.Cached tree → g.Weavable tree)
  (hglobal : ∀ withNode tree, g.loadGlobal withNode = .ok tree → g.Weavable tree)

include hcached hglobal

theorem CodeAt.code {code : List (Woven C)} (h : g.CodeAt fuel code) : g.Code code := by
  obtain ⟨globals, parts, hglobals, hsome, hparts, rfl⟩ := h
  refine ⟨globals, parts, hglobals, hsome, hparts.imp ?_, rfl⟩
  rintro withNode stmts ⟨theTree, hload, hinstance⟩
  rw [Weaver.instanceChunk_eq_expandChunk hcached fuel g.noVals theTree (hglobal withNode theTree hload)] at hinstance
  exact ⟨theTree, hload, .of_expandChunk hinstance⟩

/-- The expansions are all reached at some depth. -/
theorem Code.codeAt {code : List (Woven C)} (h : g.Code code) : ∃ bound, ∀ fuel, bound ≤ fuel → g.CodeAt fuel code := by
  obtain ⟨globals, parts, hglobals, hsome, hparts, rfl⟩ := h
  have hbound : ∃ bound, ∀ fuel, bound ≤ fuel → g.InstancesAt fuel globals parts := by
    clear hglobals hsome
    induction hparts with
    | nil => exact ⟨0, fun _ _ => List.Forall₂.nil⟩
    | @cons withNode stmts globals parts hfirst _ ih =>
      obtain ⟨theTree, hload, hexpands⟩ := hfirst
      obtain ⟨bound, hreach⟩ := hexpands.reaches
      obtain ⟨bound', hrest⟩ := ih
      refine ⟨max bound bound', fun fuel hfuel => List.Forall₂.cons ⟨theTree, hload, ?_⟩ (hrest fuel (by omega))⟩
      rw [Weaver.instanceChunk_eq_expandChunk hcached fuel g.noVals theTree (hglobal withNode theTree hload)]
      exact hreach fuel (by omega)
  obtain ⟨bound, hbound⟩ := hbound
  exact ⟨bound, fun fuel hfuel => ⟨globals, parts, hglobals, hsome, hbound fuel hfuel, rfl⟩⟩

theorem CodeAt.full {code : List (Woven C)} (h : g.CodeAt fuel code) : Woven.FullBlock code := by
  obtain ⟨globals, parts, -, -, hparts, rfl⟩ := h
  induction hparts with
  | nil => exact True.intro
  | cons hfirst _ ih =>
    obtain ⟨theTree, hload, hinstance⟩ := hfirst
    rw [Weaver.instanceChunk_eq_expandChunk hcached fuel g.noVals theTree (hglobal _ theTree hload)] at hinstance
    rw [List.flatten_cons]
    exact Woven.fullBlock_append.2 ⟨(Weaver.expandChunk_full fuel g.noVals theTree).of_eq_ok hinstance rfl, ih⟩

end Driver

end Generator

/-- A device without declarations. -/
def bareDevice (name : Word) : RootItem := .device ⟨name, [], []⟩

/-! ## A driver for two devices -/

/-- A cache with a piece of global code and a chunk for the pointcut in it. -/
def initGenerator : Generator String Unit Unit Unit where
  toWeaver :=
    let w := initWeaver [.cast, .stmt "a" []]
    { w with session := { w.session with cache := { w.session.cache with globalCode := [⟨Table.empty, Word.blank, "", ""⟩] } } }
  loadGlobal _ := .ok ⟨(), (), nestedInit⟩
  noVals := ()

theorem weavable_of_cached_initGenerator {tree : ChunkTree String Unit Unit} (h : initGenerator.Cached tree) :
    initGenerator.Weavable tree := by
  rcases h with ⟨chunk, hload⟩ | ⟨theMethod, hload⟩
  · cases hload
    exact ⟨fun p hp => absurd hp List.not_mem_nil, rfl⟩
  · cases hload

theorem weavable_of_loadGlobal {withNode : GlobalCode} {tree : ChunkTree String Unit Unit}
    (h : initGenerator.loadGlobal withNode = .ok tree) : initGenerator.Weavable tree := by
  cases h
  exact weavable_nestedInit _

end Rathaxes.Front
