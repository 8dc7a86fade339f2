import Rathaxes.Resolve.Transcribe

/-!
# What a transcribed expression denotes

Every transcription puts an operator around the expression: the test that should take one off reads an attribute
that is not there (`refScalarTranscribe_eq`). Nothing is lost by that where the operators have a meaning. A pointer
can always be followed and the address of what it points to taken again; a scalar can be made a pointer when it
has a place. A literal and an address have none, and an `&` in front of them means nothing
(`transcribes_iff`).
-/

set_option autoImplicit false

namespace Rathaxes.Resolve

open CLang

/-- **A transcription** leaves the expression, or wraps it. -/
theorem refScalarTranscribe_eq (expr : Expr) (inType outType : ExprQualifier) :
    refScalarTranscribe expr inType.text outType.text =
      .ok (if inType.isPointer = outType.isPointer then expr
        else if inType.isPointer then .unary .deref expr else .unary .addr expr) := by
  have hop : ∀ operator, op expr ≠ operatorText operator := by
    intro operator
    cases operator <;> simp [op, operatorText]
  cases inType <;> cases outType <;>
    simp [refScalarTranscribe, normalizeQualifier, ExprQualifier.text, ExprQualifier.isPointer, hop]

/-! ## Chains of transcriptions -/

/-- An expression for what is at a place, or nowhere: a pointer to it, or the scalar there. -/
def Expresses (m : Memory) (place : Option Nat) (qualifier : ExprQualifier) (e : Expr) : Prop :=
  if qualifier.isPointer then e.eval m = place
  else e.lval m = place ∧ e.eval m = place.bind m.read

theorem Expresses.eval {m : Memory} {place : Option Nat} {qualifier : ExprQualifier} {e : Expr}
    (h : Expresses m place qualifier e) :
    e.eval m = if qualifier.isPointer then place else place.bind m.read := by
  unfold Expresses at h
  cases hq : qualifier.isPointer with
  | true => simpa [hq] using h
  | false =>
    simp only [hq, Bool.false_eq_true, if_false] at h ⊢
    exact h.2

/-- A transcription changes how a place is expressed, and not which one. -/
theorem Expresses.transcribe {m : Memory} {place : Option Nat} {inType : ExprQualifier} {e : Expr}
    (h : Expresses m place inType e) (outType : ExprQualifier) :
    ∃ e', refScalarTranscribe e inType.text outType.text = .ok e' ∧ Expresses m place outType e' := by
  refine ⟨_, refScalarTranscribe_eq e inType outType, ?_⟩
  unfold Expresses at h ⊢
  cases hin : inType.isPointer <;> cases hout : outType.isPointer <;> simp only [hin] at h ⊢
  case false.false => simpa using h
  case false.true => simpa [Expr.eval_addr] using h.1
  case true.false =>
    have hplace : e.eval m = place := by simpa using h
    simp [Expr.eval_deref, Expr.lval_deref, hplace]
  case true.true => simpa using h

theorem Expresses.transcribeAll {m : Memory} {place : Option Nat} : ∀ (rest : List ExprQualifier)
    {inType outType : ExprQualifier} {e : Expr}, Expresses m place inType e →
    (inType :: rest).getLast? = some outType →
    ∃ e', transcribeAll e inType rest = .ok e' ∧ Expresses m place outType e'
  | [], inType, outType, e, h, hlast => by
    cases hlast
    exact ⟨e, rfl, h⟩
  | next :: rest, inType, outType, e, h, hlast => by
    obtain ⟨e₁, hstep, h₁⟩ := h.transcribe next
    obtain ⟨e', hrest, h'⟩ := Expresses.transcribeAll rest h₁ hlast
    refine ⟨e', ?_, h'⟩
    rw [Resolve.transcribeAll, hstep]
    exact hrest

/-! ## What is asked of a transcription -/

/-- The transcriptions of an expression denote what they should, and a chain of them that comes back to the
qualifier it started with has the value of the expression. -/
structure Transcribes (inType : ExprQualifier) (e : Expr) : Prop where
  same : ∀ outType : ExprQualifier, inType.isPointer = outType.isPointer →
    refScalarTranscribe e inType.text outType.text = .ok e
  address : inType.isPointer = false → ∀ outType : ExprQualifier, outType.isPointer = true →
    ∃ e', refScalarTranscribe e inType.text outType.text = .ok e' ∧
      ∀ (m : Memory) (v : Nat), e.eval m = some v → ∃ a, e'.eval m = some a ∧ m.read a = some v
  pointee : inType.isPointer = true → ∀ outType : ExprQualifier, outType.isPointer = false →
    ∃ e', refScalarTranscribe e inType.text outType.text = .ok e' ∧
      ∀ m : Memory, e'.eval m = (e.eval m).bind m.read
  chain : ∀ (rest : List ExprQualifier) (outType : ExprQualifier),
    (inType :: rest).getLast? = some outType → outType.isPointer = inType.isPointer →
      ∃ e', transcribeAll e inType rest = .ok e' ∧ ∀ m : Memory, e'.eval m = e.eval m

/-- A scalar taken to a pointer and back is the pointee of its address. -/
theorem transcribeAll_back {inType : ExprQualifier} (hin : inType.isPointer = false) (e : Expr) :
    transcribeAll e inType [.pointer, .scalar] = .ok (.unary .deref (.unary .addr e)) := by
  have hscalar : inType = .scalar := by
    cases inType with
    | scalar => rfl
    | ref => cases hin
    | pointer => cases hin
  subst hscalar
  simp only [transcribeAll, refScalarTranscribe_eq]
  rfl

/-- An expression expresses a place: its value for a pointer, what it is read from for a scalar. -/
theorem exists_expresses {inType : ExprQualifier} {e : Expr} {m : Memory}
    (h : inType.isPointer = false → e.eval m = (e.lval m).bind m.read) : ∃ place, Expresses m place inType e := by
  unfold Expresses
  cases hin : inType.isPointer with
  | true => exact ⟨e.eval m, by simp⟩
  | false => exact ⟨e.lval m, by simpa using h hin⟩

/-- A chain that comes back has the value of an expression that expresses a place in every memory. -/
theorem chain_of_expresses {inType outType : ExprQualifier} {e : Expr} {rest : List ExprQualifier}
    (hstart : ∀ m : Memory, ∃ place, Expresses m place inType e) (hlast : (inType :: rest).getLast? = some outType)
    (hback : outType.isPointer = inType.isPointer) :
    ∃ e', transcribeAll e inType rest = .ok e' ∧ ∀ m : Memory, e'.eval m = e.eval m := by
  have hvalue : ∀ m : Memory, ∃ e', transcribeAll e inType rest = .ok e' ∧ e'.eval m = e.eval m := by
    intro m
    obtain ⟨place, hplace⟩ := hstart m
    obtain ⟨e', he', hend⟩ := hplace.transcribeAll rest hlast
    exact ⟨e', he', by rw [hend.eval, hplace.eval, hback]⟩
  obtain ⟨e', he', -⟩ := hvalue ⟨fun _ => none, fun _ => none⟩
  refine ⟨e', he', fun m => ?_⟩
  obtain ⟨e'', he'', hm⟩ := hvalue m
  rw [he'] at he''
  cases he''
  exact hm

/-- **Transcriptions are right** for every pointer, and for the scalars that have a place. (They are also right
about an expression that denotes nothing.) -/
theorem transcribes_iff (inType : ExprQualifier) (e : Expr) :
    Transcribes inType e ↔ inType.isPointer = true ∨ e.IsLvalue ∨ ¬ e.Valid := by
  rw [← Expr.eval_eq_read_lval_iff]
  constructor
  · intro h
    cases hin : inType.isPointer with
    | true => exact .inl rfl
    | false =>
      refine .inr fun m => ?_
      obtain ⟨e', he', hvalue⟩ := h.chain [.pointer, .scalar] .scalar rfl (by rw [hin]; rfl)
      rw [transcribeAll_back hin] at he'
      cases he'
      rw [← hvalue m, Expr.eval_deref, Expr.eval_addr]
  · intro h
    have hread : inType.isPointer = false → ∀ m : Memory, e.eval m = (e.lval m).bind m.read :=
      fun hin => h.resolve_left (by simp [hin])
    constructor
    case same =>
      intro outType hsame
      rw [refScalarTranscribe_eq, if_pos hsame]
    case address =>
      intro hin outType hout
      refine ⟨.unary .addr e, by simp [refScalarTranscribe_eq, hin, hout], fun m v hv => ?_⟩
      rw [hread hin m] at hv
      rw [Expr.eval_addr]
      exact Option.bind_eq_some_iff.1 hv
    case pointee =>
      intro hin outType hout
      exact ⟨.unary .deref e, by simp [refScalarTranscribe_eq, hin, hout], fun m => Expr.eval_deref⟩
    case chain =>
      intro rest outType hlast hback
      exact chain_of_expresses (fun m => exists_expresses fun hin => hread hin m) hlast hback

/-- A literal made a reference and a scalar again is `*&5`, which denotes nothing. -/
theorem literal_loses_its_value :
    transcribeAll (.literal 5) .scalar [.ref, .scalar] = .ok (.unary .deref (.unary .addr (.literal 5))) ∧
      ∀ m : Memory, (Expr.literal 5).eval m = some 5 ∧
        (Expr.unary .deref (.unary .addr (.literal 5))).eval m = none :=
  ⟨rfl, fun _ => ⟨rfl, rfl⟩⟩

end Rathaxes.Resolve
