import Mathlib.Algebra.Order.BigOperators.Group.List
import Mathlib.Algebra.Order.Ring.Nat
import Mathlib.Data.List.Find
import Rathaxes.Laws.TemplateSpec

/-!
# What an accepted template of a type implements

The check of a template of a type goes through the chunks first and gives each the pointcut of the member it
implements, then through the members and asks for a chunk of each. A chunk the first pass has settled is a member no
other member of its kind matches (`Settled`), and what an overload matches is matched by all it stands for
(`implements_trans`), so a chunk of the type is not taken for another one.

A chunk of the type is asked for among the chunks of every kind, so the declaration of the type or a method can stand
in for it, and then gets its pointcut. Nothing counts how often a member is implemented. As long as nothing gets the
pointcut of another (`Steady`), the chunks and the members correspond one to one exactly if none stands in and none is
implemented twice (`accepted_corresponds`).
-/

set_option autoImplicit false

namespace Rathaxes.Back

open CodeWorker Mid

/-! ## Types that have been checked -/

/-- What the check of an interface makes sure of: the members of a kind differ in their full names and the attributes
in their names, global names and parameters have no scope, and the parameters of the pointcuts are qualified. -/
structure TypeChecked (itfType : TypeTree) : Prop where
  distinct : (itfType.members.map fun m => (m.1, m.2.rtxRTypeFullQualifiedName)).Nodup
  named : itfType.attributes.Nodup
  unscoped : ∀ m ∈ itfType.members, m.2.name.global = true → m.2.name.scope = Word.blank
  wellScoped : ∀ m ∈ itfType.members, Scoped m.2
  qualified : ∀ rtype ∈ itfType.pointcuts, ∀ param ∈ rtype.params, isPlain param = false

/-- The trees in the cache, which have been checked. -/
structure TypeRegistry where
  trees : TypeTrees
  checked : ∀ scope types, trees scope = some types → ∀ itfType ∈ types, TypeChecked itfType

/-- The member a chunk implements once it has its pointcut. -/
def TplChunk.member (entry : TplChunk) : ChunkType × RType := (entry.chunkType, entry.pointcut)

section Members

variable {itfType : TypeTree} {kind : ChunkType} {p q : RType}

theorem mem_prospects_iff :
    p ∈ prospects itfType q kind ↔ (kind, p) ∈ itfType.members ∧ implements p q = true := by
  simp only [prospects, List.mem_map, List.mem_filter, decide_eq_true_eq, Prod.exists, exists_eq_right]
  constructor
  · rintro ⟨kind', hmem, rfl, hmatch⟩
    exact ⟨hmem, hmatch⟩
  · rintro ⟨hmem, hmatch⟩
    exact ⟨kind, hmem, rfl, hmatch⟩

theorem TypeChecked.eq_of_fullName (hchecked : TypeChecked itfType) (hp : (kind, p) ∈ itfType.members)
    (hq : (kind, q) ∈ itfType.members) (h : p.rtxRTypeFullQualifiedName = q.rtxRTypeFullQualifiedName) : p = q := by
  have heq := List.inj_on_of_nodup_map hchecked.distinct hp hq (by rw [h])
  exact (Prod.mk.inj heq).2

theorem TypeChecked.nodup_prospects (hchecked : TypeChecked itfType) :
    ((prospects itfType q kind).map RType.rtxRTypeFullQualifiedName).Nodup := by
  rw [List.nodup_map_iff_inj_on]
  · intro a ha b hb h
    exact hchecked.eq_of_fullName (mem_prospects_iff.1 ha).1 (mem_prospects_iff.1 hb).1 h
  · refine List.Nodup.map_on ?_ ((hchecked.distinct.of_map _).filter _)
    rintro ⟨kind₁, a⟩ ha ⟨kind₂, b⟩ hb rfl
    simp only [List.mem_filter, decide_eq_true_eq] at ha hb
    rw [ha.2.1, hb.2.1]

/-- A pointcut is found in a type when one member of the kind matches it. -/
theorem itfTypeDefinesChunk_of_true (hchecked : TypeChecked itfType)
    (h : itfTypeDefinesChunk itfType q kind = (true, p)) :
    ((kind, p) ∈ itfType.members ∧ implements p q = true) ∧
      ∀ p', (kind, p') ∈ itfType.members → implements p' q = true → p' = p := by
  unfold itfTypeDefinesChunk at h
  dsimp only at h
  split at h
  · rename_i pointcut honly
    obtain rfl : pointcut = p := (Prod.mk.inj h).2
    obtain ⟨k, hk⟩ := Table.only?_eq_some_iff.1 honly
    have hnodup : ((prospects itfType q kind).map RType.rtxRTypeFullQualifiedName).Nodup := hchecked.nodup_prospects
    have hget : ∀ k' v, (k' = k ∧ v = pointcut) ↔
        v ∈ prospects itfType q kind ∧ v.rtxRTypeFullQualifiedName = k' := by
      intro k' v
      rw [← hk, Table.get?_foldl_set_empty (by rw [List.map_map]; exact hnodup)]
      simp [and_comm]
    have hfound := ((hget k pointcut).1 ⟨rfl, rfl⟩).1
    refine ⟨mem_prospects_iff.1 hfound, fun p' hp' hmatch => ?_⟩
    exact ((hget _ p').2 ⟨mem_prospects_iff.2 ⟨hp', hmatch⟩, rfl⟩).2
  · cases h

end Members

/-! ## The first pass -/

/-- A chunk the first pass has settled: it has the pointcut of the one member of its kind that it implements. -/
structure Settled (itfType : TypeTree) (written entry : TplChunk) : Prop where
  sameKind : entry.chunkType = written.chunkType
  samePointcuts : entry.pointcuts = written.pointcuts
  isMember : entry.member ∈ itfType.members
  stands : implements entry.pointcut written.pointcut = true
  only : ∀ p, (entry.chunkType, p) ∈ itfType.members → implements p written.pointcut = true → p = entry.pointcut

theorem defineEntry_settled {itfType : TypeTree} {entry : TplChunk} (hchecked : TypeChecked itfType)
    (h : (defineEntry itfType entry).1 = 0) : Settled itfType entry (defineEntry itfType entry).2 := by
  have hfound : (itfTypeDefinesChunk itfType entry.pointcut entry.chunkType).1 = true := (tally_eq_zero_iff.1 h).2
  obtain ⟨⟨hmem, hmatch⟩, honly⟩ := itfTypeDefinesChunk_of_true hchecked (Prod.ext hfound rfl)
  exact ⟨rfl, rfl, hmem, hmatch, honly⟩

/-! ## The second pass -/

/-- A chunk of a template, as it is written, is one for a member of the type. -/
def Fills (m : ChunkType × RType) (written : TplChunk) : Prop :=
  m.1 = written.chunkType ∧ implements m.2 written.pointcut = true

instance (m : ChunkType × RType) (written : TplChunk) : Decidable (Fills m written) :=
  inferInstanceAs (Decidable (_ ∧ _))

/-- A chunk of the type can be taken for the member a chunk of the template is for. -/
def Catches (itfType : TypeTree) (c : RType) (written : TplChunk) : Bool :=
  ∃ m ∈ itfType.members, Fills m written ∧ implements c m.2 = true

/-- Nothing in the template gets the pointcut of another: where the declaration of the type or a method is the first that
a chunk of the type can be taken for, it has the pointcut of that chunk. -/
def Steady (itfType : TypeTree) (tpl : TypeTemplate) : Prop :=
  ∀ c ∈ itfType.members, c.1 = .chunk → ∀ written ∈ tpl.chunks.find? (Catches itfType c.2),
    ∀ m ∈ itfType.members, Fills m written → m.1 ≠ .chunk → m.2 = c.2

instance (itfType : TypeTree) (tpl : TypeTemplate) : Decidable (Steady itfType tpl) :=
  inferInstanceAs (Decidable (∀ _ ∈ _, _))

/-- Chunks that the second pass leaves as they are. -/
structure Consistent (itfType : TypeTree) (chunks : List TplChunk) : Prop where
  chunk : ∀ c, (ChunkType.chunk, c) ∈ itfType.members → ∀ entry,
    chunks.find? (fun entry => implements c entry.pointcut) = some entry → entry.pointcut = c
  fullName : ∀ m ∈ itfType.members, ∀ entry ∈ chunks, entry.chunkType = m.1 →
    entry.pointcut.rtxRTypeFullQualifiedName = m.2.rtxRTypeFullQualifiedName → entry.member = m

section Settled

variable {itfType : TypeTree} {written entry : TplChunk}

theorem Settled.fills (h : Settled itfType written entry) : Fills entry.member written := ⟨h.sameKind, h.stands⟩

/-- A settled chunk is for one member only. -/
theorem Settled.eq_of_fills (h : Settled itfType written entry) {m : ChunkType × RType} (hm : m ∈ itfType.members)
    (hfills : Fills m written) : m = entry.member := by
  obtain ⟨kind, p⟩ := m
  obtain rfl : kind = entry.chunkType := hfills.1.trans h.sameKind.symm
  exact congrArg (Prod.mk _) (h.only p hm hfills.2)

theorem Settled.catches (h : Settled itfType written entry) (c : RType) :
    Catches itfType c written = implements c entry.pointcut := by
  rw [Bool.eq_iff_iff, Catches, decide_eq_true_iff]
  constructor
  · rintro ⟨m, hm, hfills, hmatch⟩
    rwa [h.eq_of_fills hm hfills] at hmatch
  · intro hmatch
    exact ⟨entry.member, h.isMember, h.fills, hmatch⟩

end Settled

/-- The chunks of the template as the first pass leaves them. -/
def definedChunks (itfType : TypeTree) (tpl : TypeTemplate) : List TplChunk :=
  tpl.chunks.map fun written => (defineEntry itfType written).2

/-- Settled chunks are consistent, where the chunks of the type are qualified and none gets the pointcut of another. -/
theorem consistent_of_settled {itfType : TypeTree} {tpl : TypeTemplate} (hchecked : TypeChecked itfType)
    (hsteady : Steady itfType tpl) (hqualified : ∀ c, (ChunkType.chunk, c) ∈ itfType.members → isQualified c = true)
    (hsettled : ∀ written ∈ tpl.chunks, Settled itfType written (defineEntry itfType written).2) :
    Consistent itfType (definedChunks itfType tpl) := by
  refine ⟨?_, ?_⟩
  · intro c hc entry hentry
    rw [definedChunks, List.find?_map, Option.map_eq_some_iff] at hentry
    obtain ⟨written, hwritten, rfl⟩ := hentry
    have hw := hsettled written (List.mem_of_find?_eq_some hwritten)
    by_cases hkind : (defineEntry itfType written).2.chunkType = .chunk
    · have hmember : (ChunkType.chunk, (defineEntry itfType written).2.pointcut) ∈ itfType.members := hkind ▸ hw.isMember
      have hmatch := List.find?_some (p := (fun entry : TplChunk => implements c entry.pointcut) ∘ _) hwritten
      have hall := implements_trans (hqualified _ hmember) (hchecked.wellScoped _ hmember) hmatch hw.stands
      exact (hw.only c (by rwa [hkind]) hall).symm
    · have hfirst : tpl.chunks.find? (Catches itfType c) = some written := by
        rw [← hwritten]
        exact List.find?_congr fun x hx => (hsettled x hx).catches c
      exact hsteady _ hc rfl written hfirst _ hw.isMember hw.fills hkind
  · rintro ⟨kind, p⟩ hm entry hentry rfl hname
    obtain ⟨written, hwritten, rfl⟩ := List.mem_map.1 hentry
    exact congrArg (Prod.mk _) (hchecked.eq_of_fullName (hsettled written hwritten).isMember hm hname)

/-- What the second pass asks for. -/
def Present (mapping : List Word) (chunks : List TplChunk) : TypeItem → Prop
  | .pointcut rtype => ∃ given ∈ pointcutsOf chunks, pointcutAgrees rtype given = .ok true
  | .chunk pointcut => pointcut ∈ chunks.map TplChunk.pointcut
  | .method pointcut => (.method, pointcut) ∈ chunks.map TplChunk.member
  | .typedecl pointcut => (.decl, pointcut) ∈ chunks.map TplChunk.member
  | .attribute name _ => name ∈ mapping

section Turns

variable {itfType : TypeTree} {mapping : List Word} {chunks : List TplChunk}

/-- A method or a declaration is asked for by its full name. -/
theorem tplTypeHas_consistent {kind : ChunkType} {pointcut : RType} (hconsistent : Consistent itfType chunks)
    (hmem : (kind, pointcut) ∈ itfType.members) :
    (tplTypeHas kind pointcut chunks).2 = chunks ∧
      ((tplTypeHas kind pointcut chunks).1 = true → (kind, pointcut) ∈ chunks.map TplChunk.member) := by
  have hsame : ∀ entry ∈ chunks, (entry.chunkType = kind ∧ entry.pointcut.name.name = pointcut.name.name ∧
      entry.pointcut.rtxRTypeFullQualifiedName = pointcut.rtxRTypeFullQualifiedName) →
      entry.member = (kind, pointcut) := by
    intro entry hentry htest
    exact hconsistent.fullName _ hmem entry hentry htest.1 htest.2.2
  unfold tplTypeHas
  rw [hookFirst_eq fun entry hentry => by
    have htest := List.find?_some hentry
    exact (Prod.mk.inj (hsame entry (List.mem_of_find?_eq_some hentry) (of_decide_eq_true htest))).2]
  refine ⟨rfl, fun hany => ?_⟩
  obtain ⟨entry, hentry, htest⟩ := List.any_eq_true.1 hany
  exact List.mem_map.2 ⟨entry, hentry, hsame entry hentry (of_decide_eq_true htest)⟩

/-- **A turn of the second pass** leaves consistent chunks as they are, and counts an error where the member is not
there. -/
theorem implementItem_consistent {item : TypeItem} {n : Nat} {s : Nat × List TplChunk} (hconsistent : Consistent itfType chunks)
    (hitem : ∀ m, memberOf item = some m → m ∈ itfType.members)
    (h : implementItem mapping (n, chunks) item = .ok s) :
    s.2 = chunks ∧ (s.1 = 0 → n = 0 ∧ Present mapping chunks item) := by
  cases item with
  | pointcut rtype =>
    obtain ⟨found, hfound, h⟩ := bind_eq_ok_iff.1 h
    cases h
    refine ⟨rfl, fun hzero => ?_⟩
    obtain ⟨hn, rfl⟩ := tally_eq_zero_iff.1 hzero
    exact ⟨hn, templateHasPointcut_eq_true hfound⟩
  | chunk pointcut =>
    have hsame := hconsistent.chunk pointcut (hitem _ rfl)
    obtain ⟨r, hr, h⟩ := bind_eq_ok_iff.1 h
    obtain ⟨-, rfl⟩ := templateHasChunk_eq_ok_iff.1 hr
    rw [hookFirst_eq hsame] at h
    cases h
    refine ⟨rfl, fun hzero => ?_⟩
    obtain ⟨hn, hany⟩ := tally_eq_zero_iff.1 hzero
    obtain ⟨entry, hentry⟩ := Option.isSome_iff_exists.1 (List.find?_isSome.2 (List.any_eq_true.1 hany))
    exact ⟨hn, List.mem_map.2 ⟨entry, List.mem_of_find?_eq_some hentry, hsame entry hentry⟩⟩
  | method pointcut =>
    obtain ⟨hleft, hfound⟩ := tplTypeHas_consistent hconsistent (hitem _ rfl)
    cases h
    exact ⟨hleft, fun hzero => (tally_eq_zero_iff.1 hzero).imp_right hfound⟩
  | typedecl pointcut =>
    obtain ⟨hleft, hfound⟩ := tplTypeHas_consistent hconsistent (hitem _ rfl)
    cases h
    exact ⟨hleft, fun hzero => (tally_eq_zero_iff.1 hzero).imp_right hfound⟩
  | «attribute» name rtype =>
    cases h
    exact ⟨rfl, fun hzero => (tally_eq_zero_iff.1 hzero).imp_right fun hfound => of_decide_eq_true (p := name ∈ mapping) hfound⟩

/-- The second pass as a whole. -/
theorem foldlM_implementItem_consistent (hconsistent : Consistent itfType chunks) : ∀ {items : List TypeItem} {n : Nat}
    {s : Nat × List TplChunk}, (∀ item ∈ items, ∀ m, memberOf item = some m → m ∈ itfType.members) →
    items.foldlM (implementItem mapping) (n, chunks) = .ok s →
    s.2 = chunks ∧ (s.1 = 0 → n = 0 ∧ ∀ item ∈ items, Present mapping chunks item)
  | [], n, s, _, h => by
    cases h
    exact ⟨rfl, fun hzero => ⟨hzero, fun item hitem => nomatch hitem⟩⟩
  | item :: items, n, s, hitems, h => by
    obtain ⟨hitem, hitems⟩ := List.forall_mem_cons.1 hitems
    rw [List.foldlM_cons] at h
    obtain ⟨⟨n₁, chunks₁⟩, hfirst, hrest⟩ := bind_eq_ok_iff.1 h
    obtain ⟨hleft₁, hturn⟩ := implementItem_consistent hconsistent hitem hfirst
    rw [show chunks₁ = chunks from hleft₁] at hrest
    obtain ⟨hleft, hrun⟩ := foldlM_implementItem_consistent hconsistent hitems hrest
    refine ⟨hleft, fun hzero => ?_⟩
    obtain ⟨hn₁, hpresent⟩ := hrun hzero
    obtain ⟨hn, hhead⟩ := hturn hn₁
    exact ⟨hn, List.forall_mem_cons.2 ⟨hhead, hpresent⟩⟩

end Turns

/-! ## The correspondence -/

/-- The template and the type do not show what is not checked: where the declaration of the type or a method has the
pointcut of a chunk, there is a chunk for it as well; no member is implemented twice; a type written as global is one; and
where pointcuts can be taken for one of the type, one of them has no further parameters. -/
structure Regular (itfType : TypeTree) (tpl : TypeTemplate) : Prop where
  apart : ∀ c ∈ itfType.members, c.1 = .chunk →
    (∃ written ∈ tpl.chunks, ∃ m ∈ itfType.members, Fills m written ∧ m.1 ≠ .chunk ∧ m.2 = c.2) →
    ∃ written ∈ tpl.chunks, Fills c written
  once : tpl.chunks.Pairwise fun a b => ∀ m ∈ itfType.members, ¬ (Fills m a ∧ Fills m b)
  marked : ∀ written ∈ tpl.chunks, ∀ m ∈ itfType.members, Fills m written → Marked m.2 written.pointcut
  arity : ∀ declared ∈ itfType.pointcuts, (∃ given ∈ pointcutsOf tpl.chunks, TakenFor declared given) →
    ∃ given ∈ pointcutsOf tpl.chunks, TakenFor declared given ∧ given.params.length ≤ declared.params.length

/-- The template and the type correspond: there is one declaration of the type, the chunks have the pointcuts of the
members, each member once, under names the template may have shortened, the attributes are those that are mapped,
and the pointcuts of the type stand in the code. -/
structure Corresponds (itfType : TypeTree) (tpl tpl' : TypeTemplate) : Prop where
  decl : (tpl.chunks.countP fun entry => entry.chunkType = .decl) = 1
  members : (tpl'.chunks.map TplChunk.member).Perm itfType.members
  written : List.Forall₂
    (fun written entry => entry.chunkType = written.chunkType ∧ NamesPointcut entry.pointcut written.pointcut)
    tpl.chunks tpl'.chunks
  attributes : tpl.mapping.Perm itfType.attributes
  pointcuts : ∀ declared ∈ itfType.pointcuts, ∃ given ∈ pointcutsOf tpl.chunks, StandsFor declared given

/-- Errors stay counted. -/
theorem implementItem_count {mapping : List Word} {s s' : Nat × List TplChunk} {item : TypeItem}
    (h : implementItem mapping s item = .ok s') (hzero : s'.1 = 0) : s.1 = 0 := by
  cases item with
  | pointcut rtype =>
    obtain ⟨found, -, h⟩ := bind_eq_ok_iff.1 h
    cases h
    exact (tally_eq_zero_iff.1 hzero).1
  | chunk pointcut =>
    obtain ⟨r, -, h⟩ := bind_eq_ok_iff.1 h
    cases h
    exact (tally_eq_zero_iff.1 hzero).1
  | method pointcut =>
    cases h
    exact (tally_eq_zero_iff.1 hzero).1
  | typedecl pointcut =>
    cases h
    exact (tally_eq_zero_iff.1 hzero).1
  | «attribute» name rtype =>
    cases h
    exact (tally_eq_zero_iff.1 hzero).1

section Accepted

variable {itfType : TypeTree} {tpl : TypeTemplate}

theorem mem_members_of_item {item : TypeItem} (hitem : item ∈ itfType.body) {m : ChunkType × RType}
    (hm : memberOf item = some m) : m ∈ itfType.members := List.mem_filterMap.2 ⟨item, hitem, hm⟩

/-- When the second pass goes through, the chunks of the type are qualified. -/
theorem qualified_of_foldlM {mapping : List Word} {s s' : Nat × List TplChunk}
    (h : itfType.body.foldlM (implementItem mapping) s = .ok s') (c : RType)
    (hc : (ChunkType.chunk, c) ∈ itfType.members) : isQualified c = true := by
  obtain ⟨item, hitem, hm⟩ := List.mem_filterMap.1 hc
  obtain ⟨s₁, s₂, hturn⟩ := turn_of_foldlM h item hitem
  cases item with
  | chunk pointcut =>
    obtain rfl : pointcut = c := (Prod.mk.inj (Option.some.inj hm)).2
    obtain ⟨r, hr, -⟩ := bind_eq_ok_iff.1 hturn
    exact (templateHasChunk_eq_ok_iff.1 hr).1
  | pointcut rtype => cases hm
  | method pointcut => cases hm
  | typedecl pointcut => cases hm
  | «attribute» name rtype => cases hm

/-- The first pass counts no error when there is one declaration and each chunk is settled. -/
theorem firstPass_clean
    (h : tally ((tpl.chunks.map (defineEntry itfType)).map Prod.fst).sum
      ((tpl.chunks.countP fun entry => entry.chunkType = .decl) = 1) = 0) :
    (∀ written ∈ tpl.chunks, (defineEntry itfType written).1 = 0) ∧
      (tpl.chunks.countP fun entry => entry.chunkType = .decl) = 1 := by
  obtain ⟨hsum, hdecl⟩ := tally_eq_zero_iff.1 h
  refine ⟨fun written hwritten => ?_, of_decide_eq_true hdecl⟩
  exact List.sum_eq_zero_iff.1 hsum _ (List.mem_map_of_mem (List.mem_map_of_mem hwritten))

/-- A pass that ends without an error started without one. -/
theorem count_of_foldlM {mapping : List Word} {items : List TypeItem} {chunks left : List TplChunk} {n : Nat}
    (h : items.foldlM (implementItem mapping) (n, chunks) = .ok (0, left)) : n = 0 := by
  by_contra hn
  have hcount := foldlM_invariant (P := fun s : Nat × List TplChunk => s.1 ≠ 0)
    (fun s item s' _ hs hturn hzero => hs (implementItem_count hturn hzero)) hn h
  exact hcount rfl

theorem pointcutsOf_definedChunks : pointcutsOf (definedChunks itfType tpl) = pointcutsOf tpl.chunks := by
  rw [definedChunks, pointcutsOf, List.flatMap_map]
  rfl

/-- What the passes leave when they count no error: the settled chunks, and what is asked for of the type is there. -/
structure PassedType (itfType : TypeTree) (tpl : TypeTemplate) : Prop where
  checked : TypeChecked itfType
  decl : (tpl.chunks.countP fun entry => entry.chunkType = .decl) = 1
  settled : ∀ written ∈ tpl.chunks, Settled itfType written (defineEntry itfType written).2
  present : ∀ item ∈ itfType.body, Present tpl.mapping (definedChunks itfType tpl) item
  mapped : ∀ mapId ∈ tpl.mapping, itfTypeDefinesAttribute itfType mapId = true

theorem passed_of_implementsType {tpl' : TypeTemplate} (hchecked : TypeChecked itfType) (hsteady : Steady itfType tpl)
    (h : implementsType itfType tpl = .ok (true, tpl')) :
    PassedType itfType tpl ∧ tpl'.chunks = definedChunks itfType tpl := by
  obtain ⟨⟨n, left⟩, hpasses, h⟩ := bind_eq_ok_iff.1 h
  obtain ⟨hcount, rfl⟩ := Prod.mk.inj (Except.ok.inj h)
  obtain ⟨rfl, hmapped⟩ := foldl_tally_eq_zero_iff.1 (of_decide_eq_true hcount)
  obtain ⟨hclean, hdecl⟩ := firstPass_clean (count_of_foldlM hpasses)
  have hsettled : ∀ written ∈ tpl.chunks, Settled itfType written (defineEntry itfType written).2 :=
    fun written hwritten => defineEntry_settled hchecked (hclean written hwritten)
  rw [List.map_map (g := Prod.snd)] at hpasses
  have hconsistent := consistent_of_settled hchecked hsteady (qualified_of_foldlM hpasses) hsettled
  obtain ⟨hleft, hpresent⟩ :=
    foldlM_implementItem_consistent hconsistent (fun item hitem m hm => mem_members_of_item hitem hm) hpasses
  exact ⟨⟨hchecked, hdecl, hsettled, (hpresent rfl).2, hmapped⟩, hleft⟩

namespace PassedType

variable (h : PassedType itfType tpl)

include h

/-- No member is implemented twice exactly if the settled chunks have different members. -/
theorem once_iff : (tpl.chunks.Pairwise fun a b => ∀ m ∈ itfType.members, ¬ (Fills m a ∧ Fills m b)) ↔
    ((definedChunks itfType tpl).map TplChunk.member).Nodup := by
  rw [definedChunks, List.map_map, List.Nodup, List.pairwise_map]
  constructor
  · intro honce
    refine honce.imp_of_mem fun {a b} ha hb honce heq => ?_
    have heq : (defineEntry itfType a).2.member = (defineEntry itfType b).2.member := heq
    have hfills := (h.settled a ha).fills
    rw [heq] at hfills
    exact honce _ (h.settled b hb).isMember ⟨hfills, (h.settled b hb).fills⟩
  · intro hnodup
    refine hnodup.imp_of_mem fun {a b} ha hb hne m hm hboth => hne ?_
    exact ((h.settled a ha).eq_of_fills hm hboth.1).symm.trans ((h.settled b hb).eq_of_fills hm hboth.2)

theorem mem_members {m : ChunkType × RType} (hm : m ∈ (definedChunks itfType tpl).map TplChunk.member) :
    m ∈ itfType.members := by
  obtain ⟨entry, hentry, rfl⟩ := List.mem_map.1 hm
  obtain ⟨written, hwritten, rfl⟩ := List.mem_map.1 hentry
  exact (h.settled written hwritten).isMember

theorem mem_defined_iff {m : ChunkType × RType} (hm : m ∈ itfType.members) :
    m ∈ (definedChunks itfType tpl).map TplChunk.member ↔ ∃ written ∈ tpl.chunks, Fills m written := by
  rw [definedChunks, List.map_map, List.mem_map]
  refine exists_congr fun written => and_congr_right fun hwritten => ?_
  constructor
  · rintro rfl
    exact (h.settled written hwritten).fills
  · intro hfills
    exact ((h.settled written hwritten).eq_of_fills hm hfills).symm

/-- A method and the declaration are there, and a chunk unless something stands in for it. -/
theorem member_there {m : ChunkType × RType} (hm : m ∈ itfType.members) :
    (∃ written ∈ tpl.chunks, Fills m written) ∨ m.1 = .chunk ∧
      ∃ written ∈ tpl.chunks, ∃ m' ∈ itfType.members, Fills m' written ∧ m'.1 ≠ .chunk ∧ m'.2 = m.2 := by
  obtain ⟨item, hitem, hm'⟩ := List.mem_filterMap.1 hm
  have hitem := h.present item hitem
  cases item with
  | pointcut rtype => cases hm'
  | chunk pointcut =>
    cases hm'
    obtain ⟨entry, hentry, hpointcut⟩ := List.mem_map.1 hitem
    obtain ⟨written, hwritten, rfl⟩ := List.mem_map.1 hentry
    have hw := h.settled written hwritten
    by_cases hkind : (defineEntry itfType written).2.chunkType = .chunk
    · refine .inl ⟨written, hwritten, ?_⟩
      rw [← hkind, ← hpointcut]
      exact hw.fills
    · exact .inr ⟨rfl, written, hwritten, _, hw.isMember, hw.fills, hkind, hpointcut⟩
  | method pointcut =>
    cases hm'
    exact .inl ((h.mem_defined_iff hm).1 hitem)
  | typedecl pointcut =>
    cases hm'
    exact .inl ((h.mem_defined_iff hm).1 hitem)
  | «attribute» name rtype => cases hm'

/-- **The settled chunks are for the members of the type, each once**, exactly if none stands in for another and no member
is implemented twice. -/
theorem members_iff : ((definedChunks itfType tpl).map TplChunk.member).Perm itfType.members ↔
    (∀ c ∈ itfType.members, c.1 = .chunk →
        (∃ written ∈ tpl.chunks, ∃ m ∈ itfType.members, Fills m written ∧ m.1 ≠ .chunk ∧ m.2 = c.2) →
        ∃ written ∈ tpl.chunks, Fills c written) ∧
      tpl.chunks.Pairwise fun a b => ∀ m ∈ itfType.members, ¬ (Fills m a ∧ Fills m b) := by
  have hdistinct : itfType.members.Nodup := h.checked.distinct.of_map _
  rw [h.once_iff]
  constructor
  · intro hperm
    exact ⟨fun c hc _ _ => (h.mem_defined_iff hc).1 (hperm.mem_iff.2 hc), hperm.nodup_iff.2 hdistinct⟩
  · rintro ⟨hapart, hnodup⟩
    rw [List.perm_ext_iff_of_nodup hnodup hdistinct]
    refine fun m => ⟨h.mem_members, fun hm => (h.mem_defined_iff hm).2 ?_⟩
    rcases h.member_there hm with hthere | ⟨hkind, hstands⟩
    · exact hthere
    · exact hapart m hm hkind hstands

/-- The attributes that are mapped are those of the type. -/
theorem attributes_perm : tpl.mapping.Perm itfType.attributes := by
  rw [List.perm_ext_iff_of_nodup tpl.mapped h.checked.named]
  intro name
  refine ⟨fun hname => of_decide_eq_true (h.mapped name hname), fun hname => ?_⟩
  obtain ⟨item, hitem, hattribute⟩ := List.mem_filterMap.1 hname
  have hitem := h.present item hitem
  cases item with
  | pointcut rtype => cases hattribute
  | chunk pointcut => cases hattribute
  | method pointcut => cases hattribute
  | typedecl pointcut => cases hattribute
  | «attribute» name' rtype =>
    cases hattribute
    exact hitem

/-- Something in the code is taken for each pointcut of the type. -/
theorem pointcut_there {declared : RType} (hdeclared : declared ∈ itfType.pointcuts) :
    ∃ given ∈ pointcutsOf tpl.chunks, TakenFor declared given := by
  obtain ⟨item, hitem, hpointcut⟩ := List.mem_filterMap.1 hdeclared
  have hitem := h.present item hitem
  cases item with
  | pointcut rtype =>
    cases hpointcut
    obtain ⟨given, hgiven, hagrees⟩ := hitem
    rw [pointcutsOf_definedChunks] at hgiven
    exact ⟨given, hgiven,
      (pointcutAgrees_iff (h.checked.qualified _ hdeclared) (written_of_mem_pointcutsOf hgiven)).1 hagrees⟩
  | chunk pointcut => cases hpointcut
  | method pointcut => cases hpointcut
  | typedecl pointcut => cases hpointcut
  | «attribute» name rtype => cases hpointcut

/-- The chunks as they are written name the members exactly if they have their marks. -/
theorem written_iff (hread : ∀ written ∈ tpl.chunks, Written written.pointcut) :
    List.Forall₂
        (fun written entry => entry.chunkType = written.chunkType ∧ NamesPointcut entry.pointcut written.pointcut)
        tpl.chunks (definedChunks itfType tpl) ↔
      ∀ written ∈ tpl.chunks, ∀ m ∈ itfType.members, Fills m written → Marked m.2 written.pointcut := by
  rw [definedChunks, List.forall₂_map_right_iff, List.forall₂_same]
  refine forall₂_congr fun written hwritten => ?_
  have hw := h.settled written hwritten
  have hnames : NamesPointcut (defineEntry itfType written).2.pointcut written.pointcut ↔
      implements (defineEntry itfType written).2.pointcut written.pointcut = true ∧
        Marked (defineEntry itfType written).2.pointcut written.pointcut :=
    namesPointcut_iff (h.checked.unscoped _ hw.isMember) (hread written hwritten).scope
  rw [hnames]
  constructor
  · rintro ⟨-, -, hmarked⟩ m hm hfills
    rw [hw.eq_of_fills hm hfills]
    exact hmarked
  · intro hmarked
    exact ⟨hw.sameKind, hw.stands, hmarked _ hw.isMember hw.fills⟩

/-- **The template corresponds to the type** exactly if what is not checked does not show in it. -/
theorem corresponds_iff (hread : ∀ written ∈ tpl.chunks, Written written.pointcut) {tpl' : TypeTemplate}
    (hleft : tpl'.chunks = definedChunks itfType tpl) : Corresponds itfType tpl tpl' ↔ Regular itfType tpl := by
  constructor
  · rintro ⟨-, hmembers, hwritten, -, hpointcuts⟩
    rw [hleft] at hmembers hwritten
    obtain ⟨hapart, honce⟩ := h.members_iff.1 hmembers
    exact ⟨hapart, honce, (h.written_iff hread).1 hwritten,
      fun declared hdeclared _ => by simpa only [standsFor_iff] using hpointcuts declared hdeclared⟩
  · rintro ⟨hapart, honce, hmarked, harity⟩
    refine ⟨h.decl, ?_, ?_, h.attributes_perm, fun declared hdeclared => ?_⟩
    · rw [hleft]
      exact h.members_iff.2 ⟨hapart, honce⟩
    · rw [hleft]
      exact (h.written_iff hread).2 hmarked
    · simpa only [standsFor_iff] using harity declared hdeclared (h.pointcut_there hdeclared)

end PassedType

end Accepted

section Templates

variable (w : Interfaces) (R : TypeRegistry) (fuel : Nat) (tplRtype : RType) (tpl tpl' : TypeTemplate)
  (interfaceList : List Word)

/-- **A template that is accepted** is one for a type of an interface. When nothing in it gets the pointcut of another, it
corresponds to the type exactly if what is not checked does not show in it. -/
theorem accepted_corresponds (hread : ∀ written ∈ tpl.chunks, Written written.pointcut)
    (haccepted : templateSpecType w R.trees fuel tplRtype tpl interfaceList = some (.ok (true, tpl'))) :
    ∃ rtype itfType, interfaceNameHasType w fuel tplRtype tplRtype.name.scope interfaceList = some (true, rtype) ∧
      typeNode R.trees rtype.name.scope rtype.name.name = some itfType ∧
        (Steady itfType tpl → (Corresponds itfType tpl tpl' ↔ Regular itfType tpl)) := by
  obtain ⟨⟨found, rtype⟩, hfound, h⟩ := Option.bind_eq_some_iff.1 haccepted
  cases found with
  | false => simp at h
  | true =>
    simp only [Bool.true_eq_false, if_false] at h
    cases htype : typeNode R.trees rtype.name.scope rtype.name.name with
    | none => simp [htype] at h
    | some itfType =>
      rw [htype] at h
      have h : implementsType itfType tpl = .ok (true, tpl') := Option.some.inj h
      refine ⟨rtype, itfType, hfound, htype, fun hsteady => ?_⟩
      obtain ⟨types, htypes, hfind⟩ := Option.bind_eq_some_iff.1 htype
      have hchecked := R.checked _ types htypes itfType (List.mem_of_find?_eq_some hfind)
      obtain ⟨hpassed, hleft⟩ := passed_of_implementsType hchecked hsteady h
      exact hpassed.corresponds_iff hread hleft

end Templates

/-! ## Two types of an interface -/

/-- `LKM::name()`. -/
def lkmPointcut (name : Word) : RType := ⟨rtxNodeIdentifier name ⟨"LKM", .refl true⟩, []⟩

/-- `::send(::number)`. -/
def sendMethod : RType := ⟨⟨Word.blank, ⟨"send", .refl true⟩, true⟩, [⟨Word.blank, ⟨"number", .refl true⟩, true⟩]⟩

/-- A type with a declaration, a chunk, a method and an attribute. -/
def bufferTree : TypeTree :=
  ⟨lkmPointcut ⟨"Buffer", .refl true⟩,
    [.typedecl (lkmPointcut ⟨"data", .refl true⟩), .chunk (lkmPointcut ⟨"init", .refl true⟩), .method sendMethod,
      .attribute ⟨"size", .refl true⟩ (lkmPointcut ⟨"Size", .refl true⟩)]⟩

/-- A type whose declaration and chunk hook the same pointcut. -/
def loggerTree : TypeTree :=
  ⟨lkmPointcut ⟨"Logger", .refl true⟩,
    [.typedecl (lkmPointcut ⟨"data", .refl true⟩), .chunk (lkmPointcut ⟨"data", .refl true⟩)]⟩

/-- The interface `LKM` declares both. -/
def lkmTypes : TypeRegistry where
  trees name := if name = ⟨"LKM", .refl true⟩ then some [bufferTree, loggerTree] else none
  checked := by
    intro scope types htypes itfType hmem
    split at htypes
    · cases htypes
      have hmem : itfType = bufferTree ∨ itfType = loggerTree := by simpa using hmem
      rcases hmem with rfl | rfl
      · exact ⟨by decide, by decide, by decide, by decide, by decide⟩
      · exact ⟨by decide, by decide, by decide, by decide, by decide⟩
    · cases htypes

/-- The session with this interface. -/
def lkmSession : Interfaces :=
  ⟨[], Table.empty.set "LKM"
    ⟨⟨"LKM", .refl true⟩, [⟨"Buffer", .refl true⟩, ⟨"Logger", .refl true⟩], Table.empty, Table.empty, []⟩,
    fun _ _ => true⟩

/-- A chunk without pointcuts in its code. -/
def entryOf (kind : ChunkType) (pointcut : RType) : TplChunk :=
  ⟨kind, pointcut, [], List.forall_mem_nil Written, "struct", [⟨"it", ""⟩]⟩

/-- The template of the buffer, with each pointcut given a scope or not. -/
def bufferTemplate (named : Word → RType) (send : RType) : TypeTemplate :=
  ⟨[entryOf .decl (named ⟨"data", .refl true⟩), entryOf .chunk (named ⟨"init", .refl true⟩), entryOf .method send],
    [⟨"size", .refl true⟩], by decide⟩

/-- The template of the logger: a declaration and no chunk. -/
def loggerTemplate (data : RType) : TypeTemplate := ⟨[entryOf .decl data], [], by decide⟩

/-- A prototype without a scope. -/
def plainPointcut (name : Word) : RType := ⟨rtxNodeIdentifier name, []⟩

theorem accepted_corresponds_buffer :
    Corresponds bufferTree
      (bufferTemplate plainPointcut ⟨rtxNodeIdentifier ⟨"send", rfl⟩, [rtxNodeIdentifier ⟨"number", rfl⟩]⟩)
      (bufferTemplate lkmPointcut sendMethod) := by
  obtain ⟨rtype, itfType, hfound, htype, h⟩ := accepted_corresponds lkmSession lkmTypes 2 (plainPointcut ⟨"Buffer", rfl⟩)
    (bufferTemplate plainPointcut ⟨rtxNodeIdentifier ⟨"send", rfl⟩, [rtxNodeIdentifier ⟨"number", rfl⟩]⟩)
    (bufferTemplate lkmPointcut sendMethod) [⟨"LKM", rfl⟩] (by decide) (by rfl)
  have hrtype : rtype = lkmPointcut ⟨"Buffer", rfl⟩ := by
    have hbuffer : interfaceNameHasType lkmSession 2 (plainPointcut ⟨"Buffer", rfl⟩) Word.blank [⟨"LKM", rfl⟩] =
        some (true, lkmPointcut ⟨"Buffer", rfl⟩) := by rfl
    exact (Prod.mk.inj (Option.some.inj (hfound.symm.trans hbuffer))).2
  subst hrtype
  obtain rfl : bufferTree = itfType := Option.some.inj htype
  exact (h (by decide)).2 ⟨by decide, by decide, by decide, by decide⟩

/-- The template of the logger is accepted, and the chunk is not implemented. -/
theorem missing_chunk_accepted :
    templateSpecType lkmSession lkmTypes.trees 2 (plainPointcut ⟨"Logger", rfl⟩)
        (loggerTemplate (plainPointcut ⟨"data", rfl⟩)) [⟨"LKM", rfl⟩] =
          some (.ok (true, loggerTemplate (lkmPointcut ⟨"data", rfl⟩))) ∧
      typeNode lkmTypes.trees ⟨"LKM", rfl⟩ ⟨"Logger", rfl⟩ = some loggerTree ∧
      ¬ Corresponds loggerTree (loggerTemplate (plainPointcut ⟨"data", rfl⟩))
        (loggerTemplate (lkmPointcut ⟨"data", rfl⟩)) := by
  refine ⟨by rfl, by rfl, fun h => ?_⟩
  have hlength := h.members.length_eq
  exact absurd hlength (by decide)

end Rathaxes.Back
