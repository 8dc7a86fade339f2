import Rathaxes.Resolve.Pointcut

/-!
# The law of weaving

Resolving the placeholders of a block one after the other should give the block in which each of
them is replaced by what it stands for. The induction runs over the statements still to be reached.
Its invariant (`Aligned`) says that the block is what has been woven so far followed by the
untouched rest, and that the modifier tells how far that rest has moved. Every step that goes through
the modifier keeps it. A default body does not go through the modifier: it lands on its placeholder
only when nothing has moved, and otherwise a placeholder survives in the result.
-/

set_option autoImplicit false

namespace Rathaxes.Resolve

open CodeWorker Rathaxes.Link

variable {C A T V : Type}

/-! ## What a pointcut stands for -/

/-- A chunk is loaded, its parameters fit and its script yields these statements. -/
def Generation.Instantiates (g : Generation C A T V) (resolverValues : V) (parameters : A)
    (chunk : CachedChunk) (stmts : List C) : Prop :=
  ∃ tree resVals, g.loadItem chunk = .ok tree ∧
    g.buildParameterResVals resolverValues parameters tree = .ok (resVals, true) ∧
    g.instanceChunk resVals tree = .ok (stmts, true)

/-- The chunks of each pointcut and the statements of each chunk. -/
structure Plan (C A : Type) where
  chunks : Pointcut C A → List CachedChunk
  code : Pointcut C A → CachedChunk → List C

namespace Plan

/-- The statements of the chunks in the order of the cache, or the default body, or nothing. -/
def replacement (plan : Plan C A) (p : Pointcut C A) : List C :=
  if (plan.chunks p).isEmpty then p.default.toList else (plan.chunks p).flatMap (plan.code p)

/-- The pointcut falls back on its default body. -/
def UsesDefault (plan : Plan C A) (p : Pointcut C A) : Prop :=
  plan.chunks p = [] ∧ p.default.isSome = true

/-- The generation agrees with the plan on a pointcut: its compatible chunks are those of the plan
and each of them instantiates to the statements of the plan. -/
structure Describes (plan : Plan C A) (g : Generation C A T V) (resolverValues : V)
    (p : Pointcut C A) : Prop where
  selected : selectCompatibleChunks
    (findChunks g.session p.rtype.rtxRTypeFullQualifiedName) g.config = .ok (plan.chunks p)
  instantiated : ∀ chunk ∈ plan.chunks p,
    g.Instantiates resolverValues p.parameters chunk (plan.code p chunk)

end Plan

namespace Generation

variable {g : Generation C A T V} {resolverValues : V}

/-! ## One pointcut -/

/-- Whatever becomes of the chunks, the loop only inserts where it started. -/
theorem injectChunks_ok {parameters : A} {phName : String} {r : List (String × Stmt C)} :
    ∀ {chunks : List CachedChunk} {l : List (String × Stmt C)} {modifier : Option Int}
      {phIdx errcount : Nat} {result : Block (Stmt C) × Bool},
      g.injectChunks resolverValues parameters phName chunks
          (Cursor.between l r modifier phIdx) errcount = .ok result →
        ∃ ins : List (String × Stmt C),
          result.1 = ⟨l ++ ins ++ r, modifier.map (· + (ins.length : Int))⟩ := by
  intro chunks
  induction chunks with
  | nil =>
    intro l modifier phIdx errcount result h
    cases h
    refine ⟨[], ?_⟩
    cases modifier <;> simp [Cursor.between]
  | cons chunk chunks ih =>
    intro l modifier phIdx errcount result h
    rw [injectChunks] at h
    obtain ⟨tree, -, h⟩ := bind_eq_ok_iff.1 h
    obtain ⟨⟨resVals, fits⟩, -, h⟩ := bind_eq_ok_iff.1 h
    cases fits with
    | false =>
      cases h
      refine ⟨[], ?_⟩
      cases modifier <;> simp [Cursor.between]
    | true =>
      obtain ⟨⟨stmts, instantiated⟩, -, h⟩ := bind_eq_ok_iff.1 h
      cases instantiated with
      | false => exact ih h
      | true =>
        obtain ⟨cursor, hinsert, h⟩ := bind_eq_ok_iff.1 h
        rw [insertCode_between] at hinsert
        cases hinsert
        obtain ⟨ins, hins⟩ := ih h
        refine ⟨insertedEntries phName phIdx (stmts.map .code) ++ ins, ?_⟩
        rw [hins]
        cases modifier <;> simp [Int.add_assoc]

/-- Chunks that instantiate are inserted one after the other. -/
theorem injectChunks_instantiated {parameters : A} (phName : String) (r : List (String × Stmt C))
    {code : CachedChunk → List C} :
    ∀ {chunks : List CachedChunk} (l : List (String × Stmt C)) (modifier : Option Int)
      (phIdx errcount : Nat),
      (∀ chunk ∈ chunks, g.Instantiates resolverValues parameters chunk (code chunk)) →
        ∃ ins : List (String × Stmt C), ins.map Prod.snd = (chunks.flatMap code).map .code ∧
          g.injectChunks resolverValues parameters phName chunks
              (Cursor.between l r modifier phIdx) errcount =
            .ok (⟨l ++ ins ++ r, modifier.map (· + (ins.length : Int))⟩, errcount == 0) := by
  intro chunks
  induction chunks with
  | nil =>
    intro l modifier phIdx errcount _
    refine ⟨[], rfl, ?_⟩
    cases modifier <;> simp [injectChunks, Cursor.between]
  | cons chunk chunks ih =>
    intro l modifier phIdx errcount h
    obtain ⟨tree, resVals, hload, hparams, hinstance⟩ := h chunk List.mem_cons_self
    have htail := fun c hc => h c (List.mem_cons_of_mem _ hc)
    obtain ⟨ins, hmap, hrun⟩ :=
      ih (l ++ insertedEntries phName phIdx ((code chunk).map Stmt.code))
        (modifier.map (· + (((code chunk).map Stmt.code).length : Int)))
        (phIdx + ((code chunk).map Stmt.code).length) errcount htail
    refine ⟨insertedEntries phName phIdx ((code chunk).map Stmt.code) ++ ins, ?_, ?_⟩
    · rw [List.map_append, map_snd_insertedEntries, hmap, List.flatMap_cons, List.map_append]
    · have hfirst : g.injectChunks resolverValues parameters phName (chunk :: chunks)
            (Cursor.between l r modifier phIdx) errcount =
          (do
            let cursor ← insertCode (Cursor.between l r modifier phIdx) phName
              ((code chunk).map Stmt.code)
            g.injectChunks resolverValues parameters phName chunks cursor errcount) := by
        rw [injectChunks, hload]
        show (g.buildParameterResVals resolverValues parameters tree >>= _) = _
        rw [hparams]
        show (g.instanceChunk resVals tree >>= _) = _
        rw [hinstance]
        rfl
      rw [hfirst, insertCode_between]
      refine hrun.trans ?_
      cases modifier <;> simp [Int.add_assoc]

variable {plan : Plan C A} {p : Pointcut C A} {b : Block (Stmt C)} {n : Nat}

/-- A pointcut with chunks: what stands at its corrected position is replaced by their statements,
and what is behind moves along. -/
theorem injectPointcut_chunks (h : plan.Describes g resolverValues p) (hchunks : plan.chunks p ≠ [])
    {l r : List (String × Stmt C)} {x : String × Stmt C} (hentries : b.entries = l ++ x :: r)
    (hlen : (l.length : Int) = n + b.shift) :
    ∃ ins : List (String × Stmt C), ins.map Prod.snd = (plan.replacement p).map .code ∧
      g.injectPointcut resolverValues b n p =
        .ok (⟨l ++ ins ++ r, some (b.shift - 1 + (ins.length : Int))⟩, true) := by
  have hempty : (plan.chunks p).isEmpty = false := by
    rw [List.isEmpty_eq_false_iff]
    exact hchunks
  have hremove : insertModifier b n = .ok (⟨l ++ r, some (b.shift - 1)⟩, (l.length : Int)) :=
    insertModifier_eq_ok_iff.2 ⟨hlen, l, x, r, hentries, rfl, rfl⟩
  obtain ⟨ins, hmap, hrun⟩ := injectChunks_instantiated (toString n) r l
    (some (b.shift - 1)) 0 0 h.instantiated
  refine ⟨ins, ?_, ?_⟩
  · rw [hmap, Plan.replacement, hempty]
    rfl
  · rw [injectPointcut, h.selected]
    show (if (plan.chunks p).isEmpty = true then _ else _) = _
    rw [hempty, hremove]
    exact hrun

/-- A pointcut with chunks is resolved only where the block has an entry. -/
theorem removed_of_injectPointcut (h : plan.Describes g resolverValues p)
    (hchunks : plan.chunks p ≠ []) {injected : Block (Stmt C) × Bool}
    (hinject : g.injectPointcut resolverValues b n p = .ok injected) :
    ∃ l x r, b.entries = l ++ x :: r ∧ (l.length : Int) = n + b.shift := by
  rw [injectPointcut, h.selected] at hinject
  obtain ⟨_, ⟨⟩, hinject⟩ := bind_eq_ok_iff.1 hinject
  rw [if_neg (by rw [List.isEmpty_iff]; exact hchunks)] at hinject
  obtain ⟨removed, hremove, -⟩ := bind_eq_ok_iff.1 hinject
  obtain ⟨hidx, l, x, r, hb, hlen, -⟩ := insertModifier_eq_ok_iff.1 hremove
  exact ⟨l, x, r, hb, hlen.trans hidx⟩

/-- A pointcut with neither chunks nor a default body goes. -/
theorem injectPointcut_nothing (h : plan.Describes g resolverValues p) (hchunks : plan.chunks p = [])
    (hdefault : p.default = none)
    {l r : List (String × Stmt C)} {x : String × Stmt C} (hentries : b.entries = l ++ x :: r)
    (hlen : (l.length : Int) = n + b.shift) :
    g.injectPointcut resolverValues b n p = .ok (⟨l ++ r, some (b.shift - 1)⟩, true) := by
  have hremove : insertModifier b n = .ok (⟨l ++ r, some (b.shift - 1)⟩, (l.length : Int)) :=
    insertModifier_eq_ok_iff.2 ⟨hlen, l, x, r, hentries, rfl, rfl⟩
  rw [injectPointcut, h.selected]
  show (if (plan.chunks p).isEmpty = true then _ else _) = _
  rw [hchunks, injectDefault, hdefault]
  show (insertModifier b n >>= _) = _
  rw [hremove]
  rfl

/-- A default body is written at the position recorded at parse time. -/
theorem injectPointcut_default (h : plan.Describes g resolverValues p) (hchunks : plan.chunks p = [])
    {body : C} (hdefault : p.default = some body) :
    g.injectPointcut resolverValues b n p =
      if g.lessEqual b.entries.length n then .error (outsideBlock p n)
      else do
        let entries ← replaceAt b.entries n (.code body)
        return ({ b with entries := entries }, true) := by
  rw [injectPointcut, h.selected]
  show (if (plan.chunks p).isEmpty = true then _ else _) = _
  rw [hchunks, injectDefault, hdefault]
  rfl

end Generation

/-! ## The invariant -/

/-- The block is what has been woven so far followed by the parsed statements still to be reached.
The first of these was parsed at position `n`; the modifier tells how far they have moved. -/
structure Aligned {P : Type} (b : Block (Stmt C)) (done : List (String × Stmt C)) (n : Nat)
    (rest : List (Source C P)) : Prop where
  entries_eq : b.entries = done ++ Block.positioned n (rest.map Source.stmt)
  length_eq : (done.length : Int) = n + b.shift

namespace Aligned

variable {P : Type} {b : Block (Stmt C)} {done : List (String × Stmt C)} {n : Nat}
  {rest : List (Source C P)}

theorem parsed (source : List (Source C P)) :
    Aligned (Block.parsed (source.map Source.stmt)) [] 0 source := ⟨rfl, rfl⟩

/-- The statement at the front is passed over. -/
theorem pass {s : Source C P} (h : Aligned b done n (s :: rest)) :
    Aligned b (done ++ [(toString n, s.stmt)]) (n + 1) rest := by
  refine ⟨?_, ?_⟩
  · rw [h.entries_eq, List.map_cons, Block.positioned, List.append_assoc, List.singleton_append]
  · rw [List.length_append, List.length_singleton, Int.natCast_add, h.length_eq]
    push_cast
    omega

theorem length_entries (h : Aligned b done n rest) :
    (b.entries.length : Int) = n + b.shift + rest.length := by
  rw [h.entries_eq, List.length_append, Block.length_positioned, List.length_map, Int.natCast_add,
    h.length_eq]

/-- Where nothing has been moved, the block has as many entries as it was parsed with. -/
theorem length_of_shift {s : Source C P} (h : Aligned b done n (s :: rest)) (hshift : b.shift = 0) :
    b.entries.length = n + 1 + rest.length := by
  have := h.length_entries
  rw [List.length_cons] at this
  omega

/-- Replacing the statement at the front moves the rest by what the replacement is longer. -/
theorem shift_eq {s : Source C P} {b' : Block (Stmt C)} {ins : List (String × Stmt C)}
    {replacement : List C} (h : Aligned b done n (s :: rest)) (h' : Aligned b' (done ++ ins) (n + 1) rest)
    (hins : ins.map Prod.snd = replacement.map .code) :
    b.shift + (replacement.length : Int) - 1 = b'.shift := by
  have hlen := congrArg List.length hins
  have hdone := h.length_eq
  have hdone' := h'.length_eq
  rw [List.length_map, List.length_map] at hlen
  rw [List.length_append] at hdone'
  push_cast at hdone'
  omega

end Aligned

/-- Every placeholder that falls back on its default body stands where it was parsed by the time
it is resolved: the statements in front of it, parsed from position `n` on and moved by `shift`, are
woven into as many. The comparison of the size of the block with its position then has to come out
false. -/
def Plan.InPlace (plan : Plan C A) (g : Generation C A T V) (n : Nat) (shift : Int)
    (rest : List (Source C (Pointcut C A))) : Prop :=
  ∀ before p after, rest = before ++ .placeHolder p :: after → plan.UsesDefault p →
    shift + (Source.weave (fun _ => plan.replacement) n before).length = before.length ∧
      g.lessEqual (n + rest.length) (n + before.length) = false

theorem Plan.inPlace_nil (plan : Plan C A) (g : Generation C A T V) (n : Nat) (shift : Int) :
    plan.InPlace g n shift [] := by
  intro before p after h
  cases before <;> cases h

theorem Plan.inPlace_cons {plan : Plan C A} {g : Generation C A T V} {n : Nat} {shift : Int}
    {s : Source C (Pointcut C A)} {rest : List (Source C (Pointcut C A))} :
    plan.InPlace g n shift (s :: rest) ↔
      (∀ p, s = .placeHolder p → plan.UsesDefault p →
        shift = 0 ∧ g.lessEqual (n + 1 + rest.length) n = false) ∧
      plan.InPlace g (n + 1) (shift + (s.replaced (fun _ => plan.replacement) n).length - 1) rest := by
  have hsize : n + (s :: rest).length = n + 1 + rest.length := by
    rw [List.length_cons]
    omega
  constructor
  · intro h
    refine ⟨?_, ?_⟩
    · rintro p rfl hdefault
      have := h [] p rest rfl hdefault
      rw [hsize] at this
      simpa [Source.weave] using this
    · rintro before p after rfl hdefault
      obtain ⟨hshift, hless⟩ := h (s :: before) p after rfl hdefault
      rw [hsize, List.length_cons] at hless
      rw [Source.weave, List.length_append, List.length_cons] at hshift
      refine ⟨by push_cast at hshift ⊢; omega, ?_⟩
      rwa [Nat.add_right_comm n 1 before.length, Nat.add_assoc n before.length 1]
  · rintro ⟨hhead, htail⟩ before p after heq hdefault
    rcases List.cons_eq_append_iff.1 heq with ⟨rfl, hcons⟩ | ⟨before', rfl, hrest⟩
    · cases hcons
      obtain ⟨hshift, hless⟩ := hhead p rfl hdefault
      refine ⟨by simp [Source.weave, hshift], ?_⟩
      rw [hsize]
      exact hless
    · obtain ⟨hshift, hless⟩ := htail before' p after hrest hdefault
      refine ⟨?_, ?_⟩
      · rw [Source.weave, List.length_append, List.length_cons]
        push_cast at hshift ⊢
        omega
      · rw [hsize, List.length_cons]
        rwa [Nat.add_right_comm n 1 before'.length, Nat.add_assoc n before'.length 1] at hless

namespace Generation

variable {g : Generation C A T V} {resolverValues : V} {plan : Plan C A}

/-! ## Runs in which every default body stands in place -/

/-- A default body in its place. -/
theorem injectPointcut_default_exact {p : Pointcut C A} {b : Block (Stmt C)} {n : Nat}
    {done : List (String × Stmt C)} {rest : List (Source C (Pointcut C A))} {body : C}
    (h : plan.Describes g resolverValues p) (ha : Aligned b done n (.placeHolder p :: rest))
    (hchunks : plan.chunks p = []) (hdefault : p.default = some body) (hshift : b.shift = 0)
    (hless : g.lessEqual (n + 1 + rest.length) n = false) :
    ∃ b', g.injectPointcut resolverValues b n p = .ok (b', true) ∧
      Aligned b' (done ++ [(toString n, .code body)]) (n + 1) rest := by
  have hentries := ha.entries_eq
  rw [List.map_cons, Block.positioned] at hentries
  have hlen : (done.length : Int) = n := by
    have := ha.length_eq
    omega
  obtain ⟨entries, hwrite, hwritten⟩ : ∃ entries,
      replaceAt b.entries n (.code body) = .ok entries ∧
        entries = done ++ (toString n, .code body) ::
          Block.positioned (n + 1) (rest.map Source.stmt) :=
    ⟨_, replaceAt_eq_ok_iff.2 ⟨done, toString n, _, _, hentries, hlen, rfl⟩, rfl⟩
  refine ⟨⟨entries, b.modifier⟩, ?_, ?_, ?_⟩
  · rw [injectPointcut_default h hchunks hdefault, ha.length_of_shift hshift, hless, hwrite]
    rfl
  · rw [List.append_assoc, List.singleton_append]
    exact hwritten
  · rw [List.length_append, List.length_singleton]
    show ((done.length + 1 : Nat) : Int) = (n + 1 : Nat) + b.shift
    omega

/-- One placeholder, in place: it is replaced, and the invariant carries over. -/
theorem injectPointcut_exact {p : Pointcut C A} {b : Block (Stmt C)} {n : Nat}
    {done : List (String × Stmt C)} {rest : List (Source C (Pointcut C A))}
    (h : plan.Describes g resolverValues p) (ha : Aligned b done n (.placeHolder p :: rest))
    (hexact : plan.UsesDefault p → b.shift = 0 ∧ g.lessEqual (n + 1 + rest.length) n = false) :
    ∃ b' ins, g.injectPointcut resolverValues b n p = .ok (b', true) ∧
      ins.map Prod.snd = (plan.replacement p).map .code ∧ Aligned b' (done ++ ins) (n + 1) rest := by
  have hentries := ha.entries_eq
  rw [List.map_cons, Block.positioned] at hentries
  by_cases hchunks : plan.chunks p = []
  · have hreplacement : plan.replacement p = p.default.toList := by
      rw [Plan.replacement, hchunks]
      rfl
    cases hdefault : p.default with
    | none =>
      refine ⟨_, [], injectPointcut_nothing h hchunks hdefault hentries ha.length_eq, ?_, ?_, ?_⟩
      · rw [hreplacement, hdefault]
        rfl
      · rw [List.append_nil]
      · have := ha.length_eq
        simp only [List.append_nil, Block.shift, Option.getD_some] at this ⊢
        push_cast
        omega
    | some body =>
      obtain ⟨hshift, hless⟩ := hexact ⟨hchunks, by rw [hdefault]; rfl⟩
      obtain ⟨b', hrun, haligned⟩ := injectPointcut_default_exact h ha hchunks hdefault hshift hless
      refine ⟨b', _, hrun, ?_, haligned⟩
      rw [hreplacement, hdefault]
      rfl
  · obtain ⟨ins, hins, hrun⟩ := injectPointcut_chunks h hchunks hentries ha.length_eq
    refine ⟨_, ins, hrun, hins, rfl, ?_⟩
    have := ha.length_eq
    rw [List.length_append]
    simp only [Block.shift, Option.getD_some] at this ⊢
    push_cast
    omega

/-- A whole run. -/
theorem runScript_exact :
    ∀ {rest : List (Source C (Pointcut C A))} {b : Block (Stmt C)} {done : List (String × Stmt C)}
      {n : Nat} (errcount : Nat), (∀ p, .placeHolder p ∈ rest → plan.Describes g resolverValues p) →
      Aligned b done n rest → plan.InPlace g n b.shift rest →
        ∃ b', g.runScript resolverValues (Source.compile n rest) b errcount =
            .ok (b', errcount == 0) ∧
          b'.stmts = done.map Prod.snd ++
            (Source.weave (fun _ => plan.replacement) n rest).map .code := by
  intro rest
  induction rest with
  | nil =>
    intro b done n errcount _ ha _
    refine ⟨b, rfl, ?_⟩
    rw [Block.stmts, ha.entries_eq, List.map_append]
    rfl
  | cons s rest ih =>
    intro b done n errcount hd ha hplace
    have hd' := fun p hp => hd p (List.mem_cons_of_mem _ hp)
    obtain ⟨hhead, htail⟩ := Plan.inPlace_cons.1 hplace
    cases s with
    | code c =>
      have hshift : b.shift + ([c].length : Int) - 1 = b.shift := by
        rw [List.length_singleton]
        omega
      rw [Source.replaced, hshift] at htail
      obtain ⟨b', hrun, hstmts⟩ := ih errcount hd' ha.pass htail
      refine ⟨b', hrun, ?_⟩
      rw [hstmts, Source.weave, List.map_append, List.map_append, List.append_assoc]
      rfl
    | placeHolder p =>
      obtain ⟨b₁, ins, hinject, hins, ha₁⟩ :=
        injectPointcut_exact (hd p List.mem_cons_self) ha (hhead p rfl)
      rw [Source.replaced, ha.shift_eq ha₁ hins] at htail
      obtain ⟨b', hrun, hstmts⟩ := ih errcount hd' ha₁ htail
      refine ⟨b', ?_, ?_⟩
      · rw [Source.compile, runScript, hinject]
        exact hrun
      · rw [hstmts, Source.weave, Source.replaced, List.map_append, hins, List.map_append,
          List.append_assoc]

/-! ## Runs with a default body out of place -/

/-- An entry in front of both the recorded and the corrected position of a placeholder stays as it is
when the placeholder is resolved, and in front of the positions of the next one. -/
theorem injectPointcut_before {p : Pointcut C A} {b : Block (Stmt C)} {n i : Nat}
    {result : Block (Stmt C) × Bool} (h : g.injectPointcut resolverValues b n p = .ok result)
    (hi : i < n) (hshift : (i : Int) < n + b.shift) :
    result.1.entries[i]? = b.entries[i]? ∧ (i : Int) < (n + 1 : Nat) + result.1.shift := by
  have before : ∀ l r r' : List (String × Stmt C), i < l.length → (l ++ r)[i]? = (l ++ r')[i]? := by
    intro l r r' hlt
    rw [List.getElem?_append_left hlt, List.getElem?_append_left hlt]
  rw [injectPointcut] at h
  obtain ⟨chunks, -, h⟩ := bind_eq_ok_iff.1 h
  split at h
  · rw [injectDefault] at h
    split at h
    · split at h
      · cases h
      · obtain ⟨entries, hwrite, h⟩ := bind_eq_ok_iff.1 h
        obtain ⟨l, k, x, r, hb, hlen, rfl⟩ := replaceAt_eq_ok_iff.1 hwrite
        cases h
        rw [hb]
        refine ⟨before l _ _ (by omega), ?_⟩
        show (i : Int) < (n + 1 : Nat) + b.shift
        omega
    · obtain ⟨removed, hremove, h⟩ := bind_eq_ok_iff.1 h
      obtain ⟨hidx, l, x, r, hb, hlen, hres⟩ := insertModifier_eq_ok_iff.1 hremove
      cases h
      rw [hres, hb]
      refine ⟨before l _ _ (by omega), ?_⟩
      show (i : Int) < (n + 1 : Nat) + (b.shift - 1)
      omega
  · obtain ⟨removed, hremove, h⟩ := bind_eq_ok_iff.1 h
    obtain ⟨hidx, l, x, r, hb, hlen, hres⟩ := insertModifier_eq_ok_iff.1 hremove
    rw [hres, ← hlen] at h
    obtain ⟨ins, hins⟩ := injectChunks_ok h
    rw [hins, hb, List.append_assoc]
    refine ⟨before l _ _ (by omega), ?_⟩
    show (i : Int) < (n + 1 : Nat) + (b.shift - 1 + (ins.length : Int))
    omega

/-- Such an entry is still there at the end of the run. -/
theorem runScript_before {i : Nat} :
    ∀ {rest : List (Source C (Pointcut C A))} {b : Block (Stmt C)} {n errcount : Nat}
      {result : Block (Stmt C) × Bool},
      g.runScript resolverValues (Source.compile n rest) b errcount = .ok result →
        i < n → (i : Int) < n + b.shift → result.1.entries[i]? = b.entries[i]? := by
  intro rest
  induction rest with
  | nil =>
    intro b n errcount result h _ _
    cases h
    rfl
  | cons s rest ih =>
    intro b n errcount result h hi hshift
    cases s with
    | code c => exact ih h (by omega) (by push_cast; omega)
    | placeHolder p =>
      rw [Source.compile, runScript] at h
      obtain ⟨injected, hinject, h⟩ := bind_eq_ok_iff.1 h
      obtain ⟨hentry, hnext⟩ := injectPointcut_before hinject hi hshift
      rw [← hentry]
      exact ih h (by omega) hnext

/-- A default body that is written while the rest of the block has moved misses its placeholder. If
the rest has moved to the front the placeholder stands in front of the positions of all later ones; if
it has moved to the back the body lands on what has been woven already. -/
theorem injectPointcut_misplaced {p : Pointcut C A} {b : Block (Stmt C)} {n : Nat}
    {done : List (String × Stmt C)} {rest : List (Source C (Pointcut C A))}
    {injected : Block (Stmt C) × Bool} (h : plan.Describes g resolverValues p)
    (ha : Aligned b done n (.placeHolder p :: rest)) (hdefault : plan.UsesDefault p)
    (hnot : ¬ (b.shift = 0 ∧ g.lessEqual (n + 1 + rest.length) n = false))
    (hinject : g.injectPointcut resolverValues b n p = .ok injected) :
    (b.shift < 0 ∧ injected.1.shift = b.shift ∧
        injected.1.entries[done.length]? = some (toString n, .hole)) ∨
      ∃ done', Aligned injected.1 (done' ++ [(toString n, .hole)]) (n + 1) rest := by
  obtain ⟨body, hbody⟩ := Option.isSome_iff_exists.1 hdefault.2
  have hentries := ha.entries_eq
  have hlength := ha.length_eq
  rw [injectPointcut_default h hdefault.1 hbody] at hinject
  split at hinject
  · cases hinject
  · rename_i hless
    obtain ⟨entries, hwrite, hinject⟩ := bind_eq_ok_iff.1 hinject
    obtain ⟨l, k, x, r, hb, hlen, rfl⟩ := replaceAt_eq_ok_iff.1 hwrite
    cases hinject
    rw [List.map_cons, Block.positioned] at hentries
    rcases Int.lt_trichotomy b.shift 0 with hneg | hzero | hpos
    · exact Or.inl ⟨hneg, rfl, getElem?_of_behind (hb.symm.trans hentries) (by omega)⟩
    · rw [ha.length_of_shift hzero, Bool.not_eq_true] at hless
      exact absurd ⟨hzero, hless⟩ hnot
    · obtain ⟨mid, hdone, hrest⟩ := split_of_front (hb.symm.trans hentries) (by omega)
      refine Or.inr ⟨l ++ (k, .code body) :: mid, ?_, ?_⟩
      · show l ++ (k, Stmt.code body) :: r = _
        rw [hrest]
        simp [Source.stmt]
      · show _ = ((n + 1 : Nat) : Int) + b.shift
        rw [hdone] at hlength
        simp only [List.length_append, List.length_cons, List.length_nil] at hlength ⊢
        push_cast at hlength ⊢
        omega

/-- A default body out of place: an error, or a placeholder is left in the block. -/
theorem hole_mem_of_not_inPlace :
    ∀ {rest : List (Source C (Pointcut C A))} {b : Block (Stmt C)} {done : List (String × Stmt C)}
      {n errcount : Nat} {result : Block (Stmt C) × Bool},
      (∀ p, .placeHolder p ∈ rest → plan.Describes g resolverValues p) → Aligned b done n rest →
      ¬ plan.InPlace g n b.shift rest →
      g.runScript resolverValues (Source.compile n rest) b errcount = .ok result →
        Stmt.hole ∈ result.1.stmts := by
  intro rest
  induction rest with
  | nil =>
    intro b done n errcount result _ _ hnot _
    exact absurd (plan.inPlace_nil g n b.shift) hnot
  | cons s rest ih =>
    intro b done n errcount result hd ha hnot hrun
    have hd' := fun p hp => hd p (List.mem_cons_of_mem _ hp)
    rw [Plan.inPlace_cons] at hnot
    cases s with
    | code c =>
      refine ih hd' ha.pass ?_ hrun
      intro hplace
      refine hnot ⟨fun p hp => (nomatch hp), ?_⟩
      have hshift : b.shift + ([c].length : Int) - 1 = b.shift := by
        rw [List.length_singleton]
        omega
      rw [Source.replaced, hshift]
      exact hplace
    | placeHolder p =>
      rw [Source.compile, runScript] at hrun
      by_cases hexact : plan.UsesDefault p →
          b.shift = 0 ∧ g.lessEqual (n + 1 + rest.length) n = false
      · -- this one is in place, so a later one is not
        obtain ⟨b₁, ins, hinject, hins, ha₁⟩ :=
          injectPointcut_exact (hd p List.mem_cons_self) ha hexact
        rw [hinject] at hrun
        refine ih hd' ha₁ ?_ hrun
        intro hplace
        refine hnot ⟨fun q hq => by cases hq; exact hexact, ?_⟩
        rw [Source.replaced, ha.shift_eq ha₁ hins]
        exact hplace
      · rw [Classical.not_imp] at hexact
        obtain ⟨injected, hinject, hrun⟩ := bind_eq_ok_iff.1 hrun
        rcases injectPointcut_misplaced (hd p List.mem_cons_self) ha hexact.1 hexact.2 hinject with
          ⟨hneg, hshift, hhole⟩ | ⟨done', ha'⟩
        · -- the rest has moved to the front: nothing later reaches back to this placeholder
          have hlen := ha.length_eq
          rw [← runScript_before hrun (by omega) (by push_cast; omega)] at hhole
          exact List.mem_map_of_mem (List.mem_of_getElem? hhole)
        · by_cases hplace : plan.InPlace g (n + 1) injected.1.shift rest
          · obtain ⟨b', hexactRun, hstmts⟩ := runScript_exact _ hd' ha' hplace
            rw [hexactRun] at hrun
            cases hrun
            rw [hstmts]
            simp
          · exact ih hd' ha' hplace hrun

end Generation

/-! ## The law -/

namespace Plan

/-- The resolved block is the parsed one with each pointcut replaced by what it stands for. -/
def Weaves (plan : Plan C A) (g : Generation C A T V) (resolverValues : V)
    (source : List (Source C (Pointcut C A))) : Prop :=
  ∃ b, g.resolveBlock resolverValues source = .ok (b, true) ∧
    b.stmts = (Source.weave (fun _ => plan.replacement) 0 source).map .code

/-- Whatever stands in front of a pointcut that falls back on its default body is woven into as many
statements as were parsed there, and the size of the block does not compare as at most its
position. -/
def DefaultsInPlace (plan : Plan C A) (g : Generation C A T V)
    (source : List (Source C (Pointcut C A))) : Prop :=
  ∀ before p after, source = before ++ .placeHolder p :: after → plan.UsesDefault p →
    (Source.weave (fun _ => plan.replacement) 0 before).length = before.length ∧
      g.lessEqual source.length before.length = false

theorem inPlace_zero_iff {plan : Plan C A} {g : Generation C A T V}
    {source : List (Source C (Pointcut C A))} :
    plan.InPlace g 0 0 source ↔ plan.DefaultsInPlace g source := by
  unfold InPlace DefaultsInPlace
  simp only [Int.zero_add, Nat.zero_add, Int.natCast_inj]

/-- **Weaving.** Pointcuts resolved in order are woven in exactly when every default body stands in
place. -/
theorem weaves_iff {plan : Plan C A} {g : Generation C A T V} {resolverValues : V}
    {source : List (Source C (Pointcut C A))}
    (h : ∀ p, .placeHolder p ∈ source → plan.Describes g resolverValues p) :
    plan.Weaves g resolverValues source ↔ plan.DefaultsInPlace g source := by
  rw [← inPlace_zero_iff]
  constructor
  · rintro ⟨b, hrun, hstmts⟩
    by_contra hnot
    have hhole := Generation.hole_mem_of_not_inPlace h (Aligned.parsed source) hnot hrun
    rw [hstmts, List.mem_map] at hhole
    obtain ⟨c, -, hc⟩ := hhole
    cases hc
  · intro hplace
    obtain ⟨b, hrun, hstmts⟩ := Generation.runScript_exact 0 h (Aligned.parsed source) hplace
    exact ⟨b, hrun, hstmts⟩

end Plan

/-! ## Samples -/

/-- The pointcut `LKM::name()`. -/
def lkmPointcut (name : Word) (default : Option String) : Pointcut String Unit :=
  ⟨⟨rtxNodeIdentifier name ⟨"LKM", .refl true⟩, []⟩, (), default, "sample.blt:1"⟩

/-- A session with a chunk for one pointcut `LKM::name()`. -/
def oneChunk (name : Word) : Session :=
  (Session.fresh false).updateBoth fun cache =>
    cache.registerChunk ⟨.chunk, ⟨rtxNodeIdentifier name ⟨"LKM", .refl true⟩, []⟩, Files.named "chunk"⟩ ""

/-- A generation whose chunks all instantiate to the same statements. -/
def sampleGeneration (session : Session) (stmts : List String) : Generation String Unit Unit Unit where
  session := session
  config := Table.empty
  loadItem _ := .ok ()
  buildParameterResVals _ _ _ := .ok ((), true)
  instanceChunk _ _ := .ok (stmts, true)
  lessEqual := textLessEqual

/-- The plan of such a generation. -/
def samplePlan (session : Session) (stmts : List String) : Plan String Unit where
  chunks p := findChunks session p.rtype.rtxRTypeFullQualifiedName
  code _ _ := stmts

theorem samplePlan_describes {session : Session} {stmts : List String} {p : Pointcut String Unit}
    (h : selectCompatibleChunks (findChunks session p.rtype.rtxRTypeFullQualifiedName) Table.empty =
      .ok (findChunks session p.rtype.rtxRTypeFullQualifiedName)) :
    (samplePlan session stmts).Describes (sampleGeneration session stmts) () p :=
  ⟨h, fun _ _ => ⟨(), (), rfl, rfl, rfl⟩⟩

/-- A pointcut with a chunk of one statement, then one that falls back on its default body. -/
def chunkThenDefault : List (Source String (Pointcut String Unit)) :=
  [.placeHolder (lkmPointcut ⟨"init", .refl true⟩ none), .placeHolder (lkmPointcut ⟨"exit", .refl true⟩ (some "d")),
    .code "x"]

theorem weaves_chunkThenDefault :
    (samplePlan (oneChunk ⟨"init", rfl⟩) ["a"]).Weaves
      (sampleGeneration (oneChunk ⟨"init", rfl⟩) ["a"]) () chunkThenDefault := by
  refine (Plan.weaves_iff fun p hp => samplePlan_describes ?_).2 ?_
  · simp only [chunkThenDefault, List.mem_cons, Source.placeHolder.injEq, List.not_mem_nil,
      or_false, reduceCtorEq] at hp
    rcases hp with rfl | rfl
    · rfl
    · rfl
  · intro before p after heq hdefault
    rcases before with _ | ⟨first, _ | ⟨second, _ | ⟨third, before⟩⟩⟩
    · cases heq
      exact absurd hdefault.1 (by decide)
    · cases heq
      exact ⟨rfl, by decide⟩
    · cases heq
    · cases before <;> cases heq

/-- Two pointcuts without a chunk, the second with a default body: the body replaces the statement
behind it, and the pointcut stays. -/
theorem default_overwrites_next_stmt :
    (∃ b, (sampleGeneration (Session.fresh false) []).resolveBlock ()
          [.placeHolder (lkmPointcut ⟨"init", rfl⟩ none),
            .placeHolder (lkmPointcut ⟨"exit", rfl⟩ (some "d")), .code "x"] = .ok (b, true) ∧
        b.stmts = [.hole, .code "d"]) ∧
      ¬ (samplePlan (Session.fresh false) []).Weaves (sampleGeneration (Session.fresh false) []) ()
        [.placeHolder (lkmPointcut ⟨"init", rfl⟩ none),
          .placeHolder (lkmPointcut ⟨"exit", rfl⟩ (some "d")), .code "x"] := by
  refine ⟨⟨_, rfl, rfl⟩, ?_⟩
  rintro ⟨b, hrun, hstmts⟩
  cases hrun
  exact absurd hstmts (by decide)

end Rathaxes.Resolve
