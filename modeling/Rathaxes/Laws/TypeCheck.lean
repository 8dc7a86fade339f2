import Rathaxes.Back.TypeCheck

/-!
# What the type check answers

A block returns its counter, and an untouched counter is the empty text: so a block in which nothing
fails compares equal to `false` and one in which something fails does not. A with-block reads its
body's answer the other way round, and so does the file. On a file whose only item is a with-block
the two inversions cancel; with several blocks, or with blocks in blocks, they do not.

`ReadAsError` says which items the level above takes for an error. It is the with-blocks, and not
the failures, that decide it.
-/

set_option autoImplicit false

namespace Rathaxes.Back

section Verdicts

variable (checks : Checks)

/-! ## Failures -/

/-- The verdicts on the placeholders of a with-block. -/
def placeHolderVerdicts (interfaces : List Word) :
    String → List PlaceHolder → List (Except String Bool)
  | _, [] => []
  | itfName, ph :: phs =>
    checks.placeholder ph (nextItfName itfName ph) interfaces ::
      placeHolderVerdicts interfaces (nextItfName itfName ph) phs

/-- A placeholder of the with-block's C block fails its check. -/
def PlaceHolderFails (w : WithNode) (cBlock : CBlock) : Prop :=
  .ok false ∈ placeHolderVerdicts checks w.interfaces "" cBlock.compile

mutual

/-- A template fails its check somewhere in the item, or a placeholder does. -/
def Fails (interfaces : List Word) : Item → Prop
  | .withBlock w cBlock _ body => PlaceHolderFails checks w cBlock ∨ FailsAny w.interfaces body
  | .tpl t => checks.template t interfaces = .ok false
  | .chunk _ => False
  | .itf _ => False
  | .itfExtension _ => False
  | .device => False
  | .config => False
  | .other _ => False

/-- One of the items fails. -/
def FailsAny (interfaces : List Word) : List Item → Prop
  | [] => False
  | item :: items => Fails interfaces item ∨ FailsAny interfaces items

end

mutual

/-- Every node in the item is of a type the walkers manage, and no check raises an error. -/
def Managed (interfaces : List Word) : Item → Prop
  | .withBlock w cBlock _ body => ManagedAll w.interfaces body ∧
      ∀ v ∈ placeHolderVerdicts checks w.interfaces "" cBlock.compile, ∃ b, v = .ok b
  | .tpl t => ∃ b, checks.template t interfaces = .ok b
  | .chunk _ => False
  | .itf _ => True
  | .itfExtension _ => False
  | .device => True
  | .config => True
  | .other _ => False

/-- All of the items are managed. -/
def ManagedAll (interfaces : List Word) : List Item → Prop
  | [] => True
  | item :: items => Managed interfaces item ∧ ManagedAll interfaces items

end

mutual

/-- The level above takes the item for an error: a template that fails, or a with-block that has a
failing placeholder or whose body holds no item taken for an error. -/
def ReadAsError (interfaces : List Word) : Item → Prop
  | .withBlock w cBlock _ body => PlaceHolderFails checks w cBlock ∨ NoneReadAsError w.interfaces body
  | .tpl t => checks.template t interfaces = .ok false
  | .chunk _ => False
  | .itf _ => False
  | .itfExtension _ => False
  | .device => False
  | .config => False
  | .other _ => False

/-- None of the items is taken for an error. -/
def NoneReadAsError (interfaces : List Word) : List Item → Prop
  | [] => True
  | item :: items => ¬ ReadAsError interfaces item ∧ NoneReadAsError interfaces items

end

/-! ## The walkers -/

/-- The placeholder loop adds the number of failing placeholders to its counter. -/
theorem typeCheckPlaceHolders_eq_ok_iff (interfaces : List Word) (phs : List PlaceHolder)
    (itfName : String) (errcount n : Nat) :
    typeCheckPlaceHolders checks interfaces itfName errcount phs = .ok n ↔
      (∀ v ∈ placeHolderVerdicts checks interfaces itfName phs, ∃ b, v = .ok b) ∧
        n = errcount +
          (placeHolderVerdicts checks interfaces itfName phs).countP (fun v => v = .ok false) := by
  induction phs generalizing itfName errcount with
  | nil => simp [typeCheckPlaceHolders, placeHolderVerdicts, eq_comm]
  | cons ph phs ih =>
    rw [typeCheckPlaceHolders, placeHolderVerdicts]
    cases hverdict : checks.placeholder ph (nextItfName itfName ph) interfaces with
    | error e => simp
    | ok b =>
      simp only [ih, List.mem_cons, forall_eq_or_imp, Except.ok.injEq, exists_eq', true_and,
        List.countP_cons, decide_eq_true_eq]
      cases b with
      | false => simp only [↓reduceIte, Nat.add_assoc, Nat.add_comm 1]
      | true => simp

/-- A with-block's placeholder loop ends without error exactly when it starts at zero and no
placeholder fails. -/
theorem placeHolders_clean_iff {w : WithNode} {cBlock : CBlock} {errcount n : Nat}
    (h : typeCheckPlaceHolders checks w.interfaces "" errcount cBlock.compile = .ok n) :
    n = 0 ↔ errcount = 0 ∧ ¬ PlaceHolderFails checks w cBlock := by
  obtain ⟨-, rfl⟩ := (typeCheckPlaceHolders_eq_ok_iff checks _ _ _ _ _).1 h
  rw [Nat.add_eq_zero_iff, List.countP_eq_zero, PlaceHolderFails]
  simp only [decide_eq_true_eq]
  refine and_congr_right fun _ => ⟨fun hall hmem => hall _ hmem rfl, fun hnot v hv heq => ?_⟩
  exact hnot (heq ▸ hv)

/-- What a walker's answer says about an item: it answers exactly when the item is managed, and the
answer compares equal to `false` exactly when the item is to be read as an error. -/
structure Answers (answer : Except String Value) (managed readAsError : Prop) : Prop where
  ok_iff : (∃ v, answer = .ok v) ↔ managed
  false_iff : ∀ v, answer = .ok v → (v.equalsFalse = true ↔ readAsError)

theorem answers_ok {v : Value} {readAsError : Prop}
    (h : v.equalsFalse = true ↔ readAsError) : Answers (.ok v) True readAsError where
  ok_iff := ⟨fun _ => trivial, fun _ => ⟨v, rfl⟩⟩
  false_iff v' hv' := by cases hv'; exact h

theorem answers_error {e : String} {readAsError : Prop} : Answers (.error e) False readAsError where
  ok_iff := ⟨fun ⟨_, h⟩ => (by cases h), False.elim⟩
  false_iff _ h := by cases h

theorem Answers.congr {answer : Except String Value} {managed managed' readAsError : Prop}
    (h : Answers answer managed readAsError) (hiff : managed ↔ managed') :
    Answers answer managed' readAsError := ⟨h.ok_iff.trans hiff, h.false_iff⟩

mutual

/-- **What a walker answers for one item.** -/
theorem typeCheckFor_answers (interfaces : List Word) : ∀ item : Item,
    Answers (typeCheckFor checks interfaces item) (Managed checks interfaces item)
      (ReadAsError checks interfaces item)
  | .withBlock w cBlock files body => by
    have hbody := typeCheckBlock_answers w.interfaces body .empty
    rw [typeCheckFor]
    cases hb : typeCheckBlock checks w.interfaces .empty body with
    | error e =>
      refine answers_error.congr ⟨False.elim, fun hm => ?_⟩
      obtain ⟨v, hv⟩ := hbody.ok_iff.2 hm.1
      cases hb.symm.trans hv
    | ok verdict =>
      have hmanaged := hbody.ok_iff.1 ⟨verdict, hb⟩
      have hfalse := hbody.false_iff verdict hb
      dsimp only
      cases hphs : typeCheckPlaceHolders checks w.interfaces ""
          (if verdict.equalsFalse then 1 else 0) cBlock.compile with
      | error e =>
        refine answers_error.congr ⟨False.elim, fun hm => ?_⟩
        have hok := (typeCheckPlaceHolders_eq_ok_iff checks w.interfaces cBlock.compile ""
          (if verdict.equalsFalse then 1 else 0) _).2 ⟨hm.2, rfl⟩
        cases hphs.symm.trans hok
      | ok errcount =>
        have hcomplete := ((typeCheckPlaceHolders_eq_ok_iff checks _ _ _ _ _).1 hphs).1
        have hclean := placeHolders_clean_iff checks hphs
        refine (answers_ok ?_).congr ⟨fun _ => ⟨hmanaged, hcomplete⟩, fun _ => trivial⟩
        rw [Value.equalsFalse_ofBool, Bool.not_eq_true', decide_eq_false_iff_not, hclean,
          ReadAsError]
        -- the body's answer is read as an error when it compares equal to false
        by_cases hv : verdict.equalsFalse = true
        · have hnone := (hfalse.1 hv).2
          simp [hv, hnone]
        · have hsome : ¬ NoneReadAsError checks w.interfaces body := fun h => hv (hfalse.2 ⟨rfl, h⟩)
          simp [hv, hsome]
  | .tpl t => by
    rw [typeCheckFor]
    cases ht : checks.template t interfaces with
    | error e => exact answers_error.congr (by simp [Managed, ht])
    | ok b => exact (answers_ok (by simp [ReadAsError, ht])).congr (by simp [Managed, ht])
  | .chunk _ => answers_error
  | .itf _ => answers_ok ⟨fun h => (by cases h), False.elim⟩
  | .itfExtension _ => answers_error
  | .device => answers_ok ⟨fun h => (by cases h), False.elim⟩
  | .config => answers_ok ⟨fun h => (by cases h), False.elim⟩
  | .other _ => answers_error

/-- What a block answers, from any value of its counter: the counter stays as it was exactly when
none of the items is read as an error. -/
theorem typeCheckBlock_answers (interfaces : List Word) : ∀ (items : List Item) (count : Value),
    Answers (typeCheckBlock checks interfaces count items) (ManagedAll checks interfaces items)
      (count.equalsFalse = true ∧ NoneReadAsError checks interfaces items)
  | [], count => answers_ok (by simp [NoneReadAsError])
  | item :: items, count => by
    have hitem := typeCheckFor_answers interfaces item
    rw [typeCheckBlock]
    cases hi : typeCheckFor checks interfaces item with
    | error e =>
      refine answers_error.congr ⟨False.elim, fun hm => ?_⟩
      obtain ⟨v, hv⟩ := hitem.ok_iff.2 hm.1
      cases hi.symm.trans hv
    | ok verdict =>
      have hmanaged := hitem.ok_iff.1 ⟨verdict, hi⟩
      have hfalse := hitem.false_iff verdict hi
      have hrest := typeCheckBlock_answers interfaces items
        (if verdict.equalsFalse then count.increment else count)
      refine ⟨hrest.ok_iff.trans ⟨fun h => ⟨hmanaged, h⟩, fun h => h.2⟩, fun v hv => ?_⟩
      rw [hrest.false_iff v hv, NoneReadAsError, ← hfalse]
      by_cases hverdict : verdict.equalsFalse = true
      · simp [hverdict]
      · simp [hverdict]

end

/-! ## The file -/

/-- `rtxTpl_TypeCheck(source) == false`. -/
def ReportsFailure (source : List Item) : Prop :=
  ∃ v, typeCheck checks source = .ok v ∧ v.equalsFalse = true

theorem reportsFailure_iff (source : List Item) :
    ReportsFailure checks source ↔
      ManagedAll checks [] source ∧ NoneReadAsError checks [] source := by
  have hanswers := typeCheckBlock_answers checks [] source .empty
  constructor
  · rintro ⟨v, hv, hfalse⟩
    exact ⟨hanswers.ok_iff.1 ⟨v, hv⟩, ((hanswers.false_iff v hv).1 hfalse).2⟩
  · rintro ⟨hmanaged, hnone⟩
    obtain ⟨v, hv⟩ := hanswers.ok_iff.2 hmanaged
    exact ⟨v, hv, (hanswers.false_iff v hv).2 ⟨rfl, hnone⟩⟩

/-- **When the type check reports exactly the failing files.** Where something fails, every node must
be managed and no item of the file may be read as an error; where nothing fails and every node is
managed, some item of the file must be read as one. -/
theorem reportsFailure_iff_failsAny_iff (source : List Item) :
    (ReportsFailure checks source ↔ FailsAny checks [] source) ↔
      (FailsAny checks [] source →
          ManagedAll checks [] source ∧ NoneReadAsError checks [] source) ∧
        (¬ FailsAny checks [] source → ManagedAll checks [] source →
          ¬ NoneReadAsError checks [] source) := by
  rw [reportsFailure_iff]
  constructor
  · intro h
    exact ⟨h.2, fun hpass hmanaged hnone => hpass (h.1 ⟨hmanaged, hnone⟩)⟩
  · intro h
    refine ⟨fun hreport => ?_, h.1⟩
    by_contra hpass
    exact h.2 hpass hreport.1 hreport.2

/-! ## Files of plain with-blocks -/

/-- A with-block that holds templates only. -/
structure PlainBlock where
  node : WithNode
  cBlock : CBlock
  files : Files
  templates : List Template

/-- The block as an item of a file. -/
def PlainBlock.item (b : PlainBlock) : Item :=
  .withBlock b.node b.cBlock b.files (b.templates.map .tpl)

/-- A template of the block fails its check. -/
def PlainBlock.TemplateFails (b : PlainBlock) : Prop :=
  ∃ t ∈ b.templates, checks.template t b.node.interfaces = .ok false

theorem noneReadAsError_templates (interfaces : List Word) (ts : List Template) :
    NoneReadAsError checks interfaces (ts.map .tpl) ↔
      ¬ ∃ t ∈ ts, checks.template t interfaces = .ok false := by
  induction ts with
  | nil => simp [NoneReadAsError]
  | cons t ts ih => simp [NoneReadAsError, ReadAsError, ih]

theorem noneReadAsError_plain (blocks : List PlainBlock) :
    NoneReadAsError checks [] (blocks.map PlainBlock.item) ↔
      ∀ b ∈ blocks, ¬ PlaceHolderFails checks b.node b.cBlock ∧ b.TemplateFails checks := by
  induction blocks with
  | nil => simp [NoneReadAsError]
  | cons b blocks ih =>
    simp only [List.map_cons, NoneReadAsError, PlainBlock.item, ReadAsError,
      noneReadAsError_templates, ih, List.mem_cons, forall_eq_or_imp, not_or, not_not,
      PlainBlock.TemplateFails]

/-- A file of plain with-blocks is reported as failing exactly when every one of its blocks has a
failing template and no failing placeholder: one block that passes hides all failures, and the
empty file is reported. -/
theorem reportsFailure_plain {blocks : List PlainBlock}
    (hmanaged : ManagedAll checks [] (blocks.map PlainBlock.item)) :
    ReportsFailure checks (blocks.map PlainBlock.item) ↔
      ∀ b ∈ blocks, ¬ PlaceHolderFails checks b.node b.cBlock ∧ b.TemplateFails checks := by
  rw [reportsFailure_iff, noneReadAsError_plain]
  exact and_iff_right hmanaged

end Verdicts

/-- A check that accepts sequence templates and every placeholder. -/
def acceptSequences : Checks where
  template t _ := .ok (t.tplType = .sequence)
  placeholder _ _ _ := .ok true

/-- `with LKM { template tplType f() { } }`. -/
def blockOf (tplType : TplType) : Item :=
  .withBlock (rtxNodeWithOne ⟨"LKM", .refl true⟩ []) ⟨[], []⟩ Files.absent
    [.tpl ⟨tplType, ⟨rtxNodeIdentifier ⟨"f", .refl true⟩, []⟩, false, [], Files.absent⟩]

/-- Two with-blocks, the template of the second fails: the file is accepted. -/
theorem failure_hidden_by_passing_block :
    FailsAny acceptSequences [] [blockOf .sequence, blockOf .type] ∧
      typeCheck acceptSequences [blockOf .sequence, blockOf .type] = .ok (.number 1) ∧
      ¬ ReportsFailure acceptSequences [blockOf .sequence, blockOf .type] := by
  have hanswer : typeCheck acceptSequences [blockOf .sequence, blockOf .type] = .ok (.number 1) := rfl
  refine ⟨Or.inr (Or.inl (Or.inr (Or.inl rfl))), hanswer, ?_⟩
  rintro ⟨v, hv, hfalse⟩
  cases hanswer.symm.trans hv
  cases hfalse

end Rathaxes.Back
