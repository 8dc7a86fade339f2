import Rathaxes.Back.Introspect
import Rathaxes.Laws.Weaving

/-!
# Casts and weaving

Introspection removes the casts of a block before any pointcut is resolved, and counts all of them in
the modifier. The correction a pointcut is given later is therefore the number of casts in the whole
block, while it has moved by those in front of it only. The two agree exactly for the pointcuts no
cast stands behind; any other is missed, and the last one missed is left in the result.

The resolution of chunks, which goes over nested blocks, starts from what introspection leaves of each block
(`loadedBlock_of_introspectChunk`).
-/

set_option autoImplicit false

namespace Rathaxes.Back

open CodeWorker Rathaxes.Resolve

variable {C R : Type}

/-! ## What introspection leaves -/

/-- The number of casts among parsed statements. -/
def casts : List (Source C (LonePlaceHolder R)) → Nat
  | [] => 0
  | .placeHolder (.cast _ _) :: rest => casts rest + 1
  | .placeHolder (.pointcut _) :: rest => casts rest
  | .code _ :: rest => casts rest

/-- The entries left of statements parsed from position `n` on: all but the casts, under their
keys. -/
def withoutCasts : Nat → List (Source C (LonePlaceHolder R)) → List (String × Stmt C)
  | _, [] => []
  | n, .placeHolder (.cast _ _) :: rest => withoutCasts (n + 1) rest
  | n, .placeHolder (.pointcut _) :: rest => (toString n, .hole) :: withoutCasts (n + 1) rest
  | n, .code c :: rest => (toString n, .code c) :: withoutCasts (n + 1) rest

/-- The positions of the pointcuts. -/
def pointcutPositions : Nat → List (Source C (LonePlaceHolder R)) → List Nat
  | _, [] => []
  | n, .placeHolder (.cast _ _) :: rest => pointcutPositions (n + 1) rest
  | n, .placeHolder (.pointcut _) :: rest => n :: pointcutPositions (n + 1) rest
  | n, .code _ :: rest => pointcutPositions (n + 1) rest

/-- Entries parsed from a position on have keys of later positions. -/
theorem key_of_mem_positioned {ι : Type} {e : String × ι} :
    ∀ {xs : List ι} {n : Nat}, e ∈ Block.positioned n xs → ∃ i, n ≤ i ∧ e.1 = toString i := by
  intro xs
  induction xs with
  | nil =>
    intro n h
    cases h
  | cons x xs ih =>
    intro n h
    rcases List.mem_cons.1 h with rfl | h
    · exact ⟨n, Nat.le_refl n, rfl⟩
    · obtain ⟨i, hi, hkey⟩ := ih h
      exact ⟨i, by omega, hkey⟩

/-- The keys of these entries are those of positions in front of `n`. -/
def KeyedBelow {ι : Type} (n : Nat) (done : List (String × ι)) : Prop :=
  ∀ e ∈ done, ∃ i < n, e.1 = toString i

section KeyedBelow

variable {ι : Type} {n : Nat} {done : List (String × ι)}

theorem KeyedBelow.succ (h : KeyedBelow n done) : KeyedBelow (n + 1) done := by
  intro e he
  obtain ⟨i, hi, hkey⟩ := h e he
  exact ⟨i, by omega, hkey⟩

theorem KeyedBelow.concat (h : KeyedBelow n done) (x : ι) :
    KeyedBelow (n + 1) (done ++ [(toString n, x)]) := by
  intro e he
  rcases List.mem_append.1 he with he | he
  · exact h.succ e he
  · rw [List.mem_singleton.1 he]
    exact ⟨n, by omega, rfl⟩

/-- The key of the first entry left is that of no other entry. -/
theorem KeyedBelow.removeKey_positioned (h : KeyedBelow n done) (x : ι) (xs : List ι) :
    removeKey (done ++ Block.positioned n (x :: xs)) (toString n) =
      done ++ Block.positioned (n + 1) xs := by
  apply removeKey_mid
  · intro e he hkey
    obtain ⟨i, hi, hi'⟩ := h e he
    have := Table.positionKey_injective (hi'.symm.trans hkey)
    omega
  · intro e he hkey
    obtain ⟨i, hi, hi'⟩ := key_of_mem_positioned he
    have := Table.positionKey_injective (hi'.symm.trans hkey)
    omega

end KeyedBelow

/-- Every cast goes, and is counted; the pointcuts stay in order. -/
theorem introspectPlaceHolders_ok {P : Type} {infer : Table VariableType → R → Except String P} :
    ∀ {rest : List (Source C (LonePlaceHolder R))} {n : Nat} {theVariables : Table VariableType}
      {b : Block (Stmt C)} {done : List (String × Stmt C)} {result : Introspected C P},
      introspectPlaceHolders infer (Source.compile n rest) theVariables b = .ok result →
      b.entries = done ++ Block.positioned n (rest.map Source.stmt) → KeyedBelow n done →
        result.block.entries = done ++ withoutCasts n rest ∧
          result.block.shift = b.shift - casts rest ∧
          result.compile.map Prod.fst = pointcutPositions n rest := by
  intro rest
  induction rest with
  | nil =>
    intro n theVariables b done result h hb hdone
    cases h
    exact ⟨hb, by simp [casts], rfl⟩
  | cons s rest ih =>
    intro n theVariables b done result h hb hdone
    -- a statement that stays becomes the last one of those done
    have split : ∀ (st : Stmt C) (r : List (String × Stmt C)),
        done ++ (toString n, st) :: r = done ++ [(toString n, st)] ++ r := by
      intro st r
      rw [List.append_assoc, List.singleton_append]
    rw [List.map_cons] at hb
    cases s with
    | code c =>
      rw [Block.positioned, Source.stmt, split] at hb
      obtain ⟨hentries, hshift, hcompile⟩ := ih h hb (hdone.concat _)
      exact ⟨by rw [withoutCasts, split]; exact hentries, hshift, hcompile⟩
    | placeHolder p =>
      cases p with
      | pointcut body =>
        rw [Source.compile, introspectPlaceHolders] at h
        obtain ⟨typed, -, h⟩ := bind_eq_ok_iff.1 h
        obtain ⟨left, hleft, h⟩ := bind_eq_ok_iff.1 h
        cases h
        rw [Block.positioned, Source.stmt, split] at hb
        obtain ⟨hentries, hshift, hcompile⟩ := ih hleft hb (hdone.concat _)
        refine ⟨by rw [withoutCasts, split]; exact hentries, hshift, ?_⟩
        rw [List.map_cons, hcompile]
        rfl
      | cast variableName rtype =>
        rw [Source.compile, introspectPlaceHolders] at h
        have hremoved : removeKey b.entries (toString n) =
            done ++ Block.positioned (n + 1) (rest.map Source.stmt) := by
          rw [hb]
          exact hdone.removeKey_positioned _ _
        obtain ⟨hentries, hshift, hcompile⟩ := ih h hremoved hdone.succ
        refine ⟨hentries, ?_, hcompile⟩
        rw [hshift, casts]
        show b.shift - 1 - (casts rest : Int) = b.shift - ((casts rest + 1 : Nat) : Int)
        push_cast
        omega

/-! ## Runs -/

/-- No cast stands behind a pointcut. -/
def NoCastBehind (source : List (Source C (LonePlaceHolder R))) : Prop :=
  ∀ before body after, source = before ++ .placeHolder (.pointcut body) :: after → casts after = 0

theorem noCastBehind_nil : NoCastBehind ([] : List (Source C (LonePlaceHolder R))) := by
  intro before body after h
  cases before <;> cases h

theorem noCastBehind_cons {s : Source C (LonePlaceHolder R)}
    {rest : List (Source C (LonePlaceHolder R))} :
    NoCastBehind (s :: rest) ↔
      (∀ body, s = .placeHolder (.pointcut body) → casts rest = 0) ∧ NoCastBehind rest := by
  constructor
  · intro h
    refine ⟨?_, ?_⟩
    · rintro body rfl
      exact h [] body rest rfl
    · rintro before body after rfl
      exact h (s :: before) body after rfl
  · rintro ⟨hhead, htail⟩ before body after heq
    rcases List.cons_eq_append_iff.1 heq with ⟨rfl, hcons⟩ | ⟨before', rfl, hrest⟩
    · cases hcons
      exact hhead body rfl
    · exact htail before' body after hrest

/-- What the placeholder parsed at a position is replaced by: a cast by nothing. -/
def castFree (code : Nat → List C) (n : Nat) : LonePlaceHolder R → List C
  | .cast _ _ => []
  | .pointcut _ => code n

/-- The block is what has been woven so far followed by what introspection has left of the parsed
statements still to be reached. The modifier lacks the casts among these. -/
structure Lagging (b : Block (Stmt C)) (done : List (String × Stmt C)) (n : Nat)
    (rest : List (Source C (LonePlaceHolder R))) : Prop where
  entries_eq : b.entries = done ++ withoutCasts n rest
  length_eq : (done.length : Int) = n + b.shift + casts rest

namespace Lagging

variable {b : Block (Stmt C)} {done : List (String × Stmt C)} {n : Nat}
  {rest : List (Source C (LonePlaceHolder R))}

theorem pass_code {c : C} (h : Lagging b done n (.code c :: rest)) :
    Lagging b (done ++ [(toString n, .code c)]) (n + 1) rest := by
  refine ⟨?_, ?_⟩
  · rw [h.entries_eq, withoutCasts, List.append_assoc, List.singleton_append]
  · have := h.length_eq
    rw [casts] at this
    rw [List.length_append, List.length_singleton]
    push_cast
    omega

theorem pass_cast {variableName : String} {rtype : RType}
    (h : Lagging b done n (.placeHolder (.cast variableName rtype) :: rest)) :
    Lagging b done (n + 1) rest := by
  refine ⟨h.entries_eq, ?_⟩
  have := h.length_eq
  rw [casts] at this
  push_cast at this ⊢
  omega

end Lagging

variable {A T V : Type}

/-- The pointcut left by introspection at a position has compatible chunks, whose statements are the
code of that position. -/
structure Woven (plan : Plan C A) (g : Generation C A T V) (resolverValues : V)
    (code : Nat → List C) (e : Nat × Pointcut C A) : Prop where
  describes : plan.Describes g resolverValues e.2
  chunks_ne : plan.chunks e.2 ≠ []
  code_eq : (plan.chunks e.2).flatMap (plan.code e.2) = code e.1

variable {plan : Plan C A} {g : Generation C A T V} {resolverValues : V} {code : Nat → List C}
  {p : Pointcut C A} {b : Block (Stmt C)} {n : Nat} {done : List (String × Stmt C)}
  {rest : List (Source C (LonePlaceHolder R))} {body : R}

theorem Woven.replacement_eq (h : Woven plan g resolverValues code (n, p)) :
    plan.replacement p = code n := by
  rw [Plan.replacement, if_neg, h.code_eq]
  rw [List.isEmpty_iff]
  exact h.chunks_ne

/-- A pointcut no cast stands behind is replaced. -/
theorem injectPointcut_lagging (h : Woven plan g resolverValues code (n, p))
    (hlag : Lagging b done n (.placeHolder (.pointcut body) :: rest)) (hcasts : casts rest = 0) :
    ∃ b' ins, g.injectPointcut resolverValues b n p = .ok (b', true) ∧
      ins.map Prod.snd = (code n).map .code ∧ Lagging b' (done ++ ins) (n + 1) rest := by
  have hlength := hlag.length_eq
  have hentries := hlag.entries_eq
  rw [casts, hcasts] at hlength
  rw [withoutCasts] at hentries
  have hlen : (done.length : Int) = n + b.shift := by omega
  obtain ⟨ins, hins, hrun⟩ := Generation.injectPointcut_chunks h.describes h.chunks_ne hentries hlen
  rw [h.replacement_eq] at hins
  refine ⟨_, ins, hrun, hins, rfl, ?_⟩
  rw [List.length_append, hcasts]
  show ((done.length + ins.length : Nat) : Int) =
    (n + 1 : Nat) + (b.shift - 1 + (ins.length : Int)) + (0 : Nat)
  push_cast
  omega

/-- A pointcut some cast stands behind is missed: something in front of it is replaced instead. -/
theorem injectPointcut_missed {injected : Block (Stmt C) × Bool}
    (h : Woven plan g resolverValues code (n, p))
    (hlag : Lagging b done n (.placeHolder (.pointcut body) :: rest)) (hcasts : casts rest ≠ 0)
    (hinject : g.injectPointcut resolverValues b n p = .ok injected) :
    ∃ done', Lagging injected.1 (done' ++ [(toString n, .hole)]) (n + 1) rest := by
  have hlength := hlag.length_eq
  have hentries := hlag.entries_eq
  rw [casts] at hlength
  rw [withoutCasts] at hentries
  obtain ⟨l, x, r, hb, hlen⟩ := Generation.removed_of_injectPointcut h.describes h.chunks_ne hinject
  rcases List.append_eq_append_iff.1 (hb.symm.trans hentries) with
    ⟨mid, hdone, hrest⟩ | ⟨mid, hl, -⟩
  · cases mid with
    | nil =>
      rw [hdone, List.append_nil] at hlength
      omega
    | cons e mid =>
      rw [List.cons_append, List.cons.injEq] at hrest
      obtain ⟨ins, -, hrun⟩ := Generation.injectPointcut_chunks h.describes h.chunks_ne hb hlen
      rw [hrun] at hinject
      cases hinject
      refine ⟨l ++ ins ++ mid, ?_, ?_⟩
      · show l ++ ins ++ r = _
        rw [hrest.2]
        simp only [List.append_assoc, List.singleton_append]
      · show _ = (n + 1 : Nat) + (b.shift - 1 + (ins.length : Int)) + (casts rest : Int)
        rw [hdone] at hlength
        simp only [List.length_append, List.length_cons, List.length_nil] at hlength ⊢
        push_cast at hlength ⊢
        omega
  · rw [hl, List.length_append] at hlen
    push_cast at hlen
    omega

/-- A run over pointcuts no cast stands behind. -/
theorem runScript_lagging :
    ∀ {rest : List (Source C (LonePlaceHolder R))} {compile : List (Nat × Pointcut C A)}
      {b : Block (Stmt C)} {done : List (String × Stmt C)} {n : Nat} (errcount : Nat),
      compile.map Prod.fst = pointcutPositions n rest →
      (∀ e ∈ compile, Woven plan g resolverValues code e) → Lagging b done n rest →
      NoCastBehind rest →
        ∃ b', g.runScript resolverValues compile b errcount = .ok (b', errcount == 0) ∧
          b'.stmts = done.map Prod.snd ++ (Source.weave (castFree code) n rest).map .code := by
  intro rest
  induction rest with
  | nil =>
    intro compile b done n errcount hcompile _ hlag _
    cases List.map_eq_nil_iff.1 hcompile
    refine ⟨b, rfl, ?_⟩
    rw [Block.stmts, hlag.entries_eq, List.map_append]
    rfl
  | cons s rest ih =>
    intro compile b done n errcount hcompile hwoven hlag hbehind
    obtain ⟨hhead, htail⟩ := noCastBehind_cons.1 hbehind
    cases s with
    | code c =>
      obtain ⟨b', hrun, hstmts⟩ := ih errcount hcompile hwoven hlag.pass_code htail
      refine ⟨b', hrun, ?_⟩
      rw [hstmts, Source.weave, List.map_append, List.map_append, List.append_assoc]
      rfl
    | placeHolder q =>
      cases q with
      | cast variableName rtype => exact ih errcount hcompile hwoven hlag.pass_cast htail
      | pointcut body =>
        obtain ⟨⟨m, p⟩, compile, rfl, rfl, hcompile⟩ := List.map_eq_cons_iff.1 hcompile
        obtain ⟨b₁, ins, hinject, hins, hlag₁⟩ :=
          injectPointcut_lagging (hwoven _ List.mem_cons_self) hlag (hhead body rfl)
        obtain ⟨b', hrun, hstmts⟩ := ih errcount hcompile
          (fun e he => hwoven e (List.mem_cons_of_mem _ he)) hlag₁ htail
        refine ⟨b', ?_, ?_⟩
        · rw [Generation.runScript, hinject]
          exact hrun
        · rw [hstmts, Source.weave, Source.replaced, castFree, List.map_append, hins,
            List.map_append, List.append_assoc]

/-- A pointcut some cast stands behind: an error, or a pointcut is left in the block. -/
theorem hole_mem_of_cast_behind :
    ∀ {rest : List (Source C (LonePlaceHolder R))} {compile : List (Nat × Pointcut C A)}
      {b : Block (Stmt C)} {done : List (String × Stmt C)} {n errcount : Nat}
      {result : Block (Stmt C) × Bool},
      compile.map Prod.fst = pointcutPositions n rest →
      (∀ e ∈ compile, Woven plan g resolverValues code e) → Lagging b done n rest →
      ¬ NoCastBehind rest → g.runScript resolverValues compile b errcount = .ok result →
        Stmt.hole ∈ result.1.stmts := by
  intro rest
  induction rest with
  | nil =>
    intro compile b done n errcount result _ _ _ hbehind _
    exact absurd noCastBehind_nil hbehind
  | cons s rest ih =>
    intro compile b done n errcount result hcompile hwoven hlag hbehind hrun
    rw [noCastBehind_cons] at hbehind
    cases s with
    | code c =>
      exact ih hcompile hwoven hlag.pass_code (fun h => hbehind ⟨fun _ hb => (nomatch hb), h⟩) hrun
    | placeHolder q =>
      cases q with
      | cast variableName rtype =>
        exact ih hcompile hwoven hlag.pass_cast (fun h => hbehind ⟨fun _ hb => (nomatch hb), h⟩) hrun
      | pointcut body =>
        obtain ⟨⟨m, p⟩, compile, rfl, rfl, hcompile⟩ := List.map_eq_cons_iff.1 hcompile
        have hwoven' := fun e he => hwoven e (List.mem_cons_of_mem _ he)
        rw [Generation.runScript] at hrun
        by_cases hcasts : casts rest = 0
        · obtain ⟨b₁, ins, hinject, -, hlag₁⟩ :=
            injectPointcut_lagging (hwoven _ List.mem_cons_self) hlag hcasts
          rw [hinject] at hrun
          exact ih hcompile hwoven' hlag₁ (fun h => hbehind ⟨fun _ _ => hcasts, h⟩) hrun
        · obtain ⟨injected, hinject, hrun⟩ := bind_eq_ok_iff.1 hrun
          obtain ⟨done', hlag'⟩ :=
            injectPointcut_missed (hwoven _ List.mem_cons_self) hlag hcasts hinject
          by_cases hrest : NoCastBehind rest
          · -- this was the last one missed, and what follows leaves it alone
            obtain ⟨b', hexact, hstmts⟩ := runScript_lagging _ hcompile hwoven' hlag' hrest
            rw [hexact] at hrun
            cases hrun
            rw [hstmts]
            simp
          · exact ih hcompile hwoven' hlag' hrest hrun

/-! ## The two passes together -/

/-- Resolving what introspection has left gives the parsed block without its casts, each pointcut
replaced by the code of its position. -/
def CastFree (g : Generation C A T V) (resolverValues : V) (code : Nat → List C)
    (source : List (Source C (LonePlaceHolder R))) (left : Introspected C (Pointcut C A)) : Prop :=
  ∃ b, g.runScript resolverValues left.compile left.block 0 = .ok (b, true) ∧
    b.stmts = (Source.weave (castFree code) 0 source).map .code

/-- **Casts.** They leave the weaving undisturbed exactly when none stands behind a pointcut. -/
theorem castFree_iff {infer : Table VariableType → R → Except String (Pointcut C A)}
    {theVariables : Table VariableType} {source : List (Source C (LonePlaceHolder R))}
    {left : Introspected C (Pointcut C A)} (hleft : introspectChunk infer theVariables source = .ok left)
    (hwoven : ∀ e ∈ left.compile, Woven plan g resolverValues code e) :
    CastFree g resolverValues code source left ↔ NoCastBehind source := by
  have hparsed : (Block.parsed (source.map Source.stmt)).entries =
      [] ++ Block.positioned 0 (source.map Source.stmt) := rfl
  obtain ⟨hentries, hshift, hcompile⟩ :=
    introspectPlaceHolders_ok hleft hparsed (fun e he => (nomatch he))
  have hlag : Lagging left.block [] 0 source := by
    refine ⟨hentries, ?_⟩
    rw [hshift]
    show (0 : Int) = 0 + (0 - (casts source : Int)) + casts source
    omega
  constructor
  · rintro ⟨b, hrun, hstmts⟩
    by_contra hbehind
    have hhole := hole_mem_of_cast_behind hcompile hwoven hlag hbehind hrun
    rw [hstmts, List.mem_map] at hhole
    obtain ⟨c, -, hc⟩ := hhole
    cases hc
  · intro hbehind
    obtain ⟨b, hrun, hstmts⟩ := runScript_lagging 0 hcompile hwoven hlag hbehind
    exact ⟨b, hrun, hstmts⟩

/-! ## The blocks of a tree of statements -/

/-- The statements of one block of a chunk as introspection goes over them, with what the casts say. -/
def asParsed (castOf : Nat → String × RType) :
    Nat → List (Code C R) → List (Source (Resolve.Entry C) (LonePlaceHolder R))
  | _, [] => []
  | n, .stmt _ _ :: stmts => .code (.kept n) :: asParsed castOf (n + 1) stmts
  | n, .placeHolder p :: stmts => .placeHolder (.pointcut p) :: asParsed castOf (n + 1) stmts
  | n, .cast :: stmts => .placeHolder (.cast (castOf n).1 (castOf n).2) :: asParsed castOf (n + 1) stmts

theorem withoutCasts_asParsed (castOf : Nat → String × RType) : ∀ (n : Nat) (stmts : List (Code C R)),
    withoutCasts n (asParsed castOf n stmts) = loadedEntries n stmts ∧
      casts (asParsed castOf n stmts) = Resolve.casts stmts ∧
      pointcutPositions n (asParsed castOf n stmts) = (ownHoles n stmts).map Prod.fst
  | _, [] => ⟨rfl, rfl, rfl⟩
  | n, .stmt c blocks :: stmts => by
    obtain ⟨hentries, hcasts, hholes⟩ := withoutCasts_asParsed castOf (n + 1) stmts
    exact ⟨congrArg _ hentries, hcasts, hholes⟩
  | n, .placeHolder p :: stmts => by
    obtain ⟨hentries, hcasts, hholes⟩ := withoutCasts_asParsed castOf (n + 1) stmts
    exact ⟨congrArg _ hentries, hcasts, congrArg _ hholes⟩
  | n, .cast :: stmts => by
    obtain ⟨hentries, hcasts, hholes⟩ := withoutCasts_asParsed castOf (n + 1) stmts
    exact ⟨hentries, congrArg _ hcasts, hholes⟩

/-- **What the resolution loads is what introspection has left**: the entries of the block, how far they have moved,
and the positions of its placeholders. -/
theorem loadedBlock_of_introspectChunk {P : Type} {infer : Table VariableType → R → Except String P}
    {theVariables : Table VariableType} {castOf : Nat → String × RType} {stmts : List (Code C R)}
    {left : Introspected (Resolve.Entry C) P}
    (h : introspectChunk infer theVariables (asParsed castOf 0 stmts) = .ok left) :
    left.block.entries = (loadedBlock stmts).entries ∧ left.block.shift = (loadedBlock stmts).shift ∧
      left.compile.map Prod.fst = (ownHoles 0 stmts).map Prod.fst := by
  have hparsed : (Block.parsed ((asParsed castOf 0 stmts).map Source.stmt)).entries =
      [] ++ Block.positioned 0 ((asParsed castOf 0 stmts).map Source.stmt) := rfl
  obtain ⟨hentries, hshift, hcompile⟩ := introspectPlaceHolders_ok h hparsed (List.forall_mem_nil _)
  obtain ⟨hloaded, hcasts, hholes⟩ := withoutCasts_asParsed castOf 0 stmts
  refine ⟨?_, ?_, hcompile.trans hholes⟩
  · rw [hentries, hloaded]
    rfl
  · rw [hshift, hcasts, shift_loadedBlock]
    exact Int.zero_sub _

/-! ## Samples -/

/-- A generation in which the pointcut `LKM::init()` has one chunk, of two statements. -/
def initGeneration : Generation String Unit Unit Unit :=
  sampleGeneration (oneChunk ⟨"init", .refl true⟩) ["a", "b"]

/-- A cast of the variable `v`. -/
def sampleCast : Source String (LonePlaceHolder Unit) :=
  .placeHolder (.cast "v" ⟨rtxNodeIdentifier ⟨"Buffer", .refl true⟩, []⟩)

/-- Every pointcut is `LKM::init()`. -/
def initPointcut (_ : Table VariableType) (_ : Unit) : Except String (Pointcut String Unit) :=
  .ok (Resolve.lkmPointcut ⟨"init", .refl true⟩ none)

theorem woven_init (n : Nat) :
    Woven (samplePlan (oneChunk ⟨"init", rfl⟩) ["a", "b"]) initGeneration () (fun _ => ["a", "b"])
      (n, Resolve.lkmPointcut ⟨"init", rfl⟩ none) :=
  ⟨samplePlan_describes rfl, List.cons_ne_nil _ _, rfl⟩

theorem castFree_cast_in_front :
    ∃ left, introspectChunk initPointcut Table.empty
        [sampleCast, .code "x", .placeHolder (.pointcut ())] = .ok left ∧
      CastFree initGeneration () (fun _ => ["a", "b"])
        [sampleCast, .code "x", .placeHolder (.pointcut ())] left := by
  have hleft : introspectChunk initPointcut Table.empty
      [sampleCast, .code "x", .placeHolder (.pointcut ())] = .ok _ := rfl
  have hwoven : ∀ e ∈ [(2, Resolve.lkmPointcut ⟨"init", rfl⟩ none)],
      Woven (samplePlan (oneChunk ⟨"init", rfl⟩) ["a", "b"]) initGeneration () (fun _ => ["a", "b"])
        e := by
    intro e he
    cases List.mem_singleton.1 he
    exact woven_init 2
  refine ⟨_, hleft, (castFree_iff hleft hwoven).2 ?_⟩
  · intro before body after heq
    match before, heq with
    | [], heq => cases heq
    | [_], heq => cases heq
    | [_, _], heq =>
      cases heq
      rfl
    | _ :: _ :: _ :: before, heq => cases before <;> cases heq

/-- A statement, a pointcut and a cast: the statement is replaced and the pointcut stays. -/
theorem cast_behind_moves_chunk :
    ∃ left, introspectChunk initPointcut Table.empty
        [.code "x", .placeHolder (.pointcut ()), sampleCast] = .ok left ∧
      (∃ b, initGeneration.runScript () left.compile left.block 0 = .ok (b, true) ∧
        b.stmts = [.code "a", .code "b", .hole]) ∧
      ¬ CastFree initGeneration () (fun _ => ["a", "b"])
        [.code "x", .placeHolder (.pointcut ()), sampleCast] left := by
  refine ⟨_, rfl, ⟨_, rfl, rfl⟩, ?_⟩
  rintro ⟨b, hrun, hstmts⟩
  cases hrun
  exact absurd hstmts (by decide)

end Rathaxes.Back
