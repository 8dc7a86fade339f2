import Rathaxes.CLang.Pointer

/-!
# Between references and scalars

`rtxResolve_RefScalarTranscribe` of `passes/common/rtxResolve.inc.cws` makes a C expression for a pointer out of one
for a scalar, and the other way round. `inject<"__rtx_var__">` of the same file calls it with the qualifier of a
variable's type and the type of the placeholder.

The node of a unary expression has its operator in the attribute `operator`; the function puts it there itself when
it wraps an expression. The test whether the operator can be taken off reads the attribute `op`, which the nodes of
expressions do not have.
-/

set_option autoImplicit false

namespace Rathaxes.Resolve

open CLang

/-- The text of an operator. -/
def operatorText : UnaryOp → String
  | .addr => "&"
  | .deref => "*"

/-- The attribute `expr_type`. -/
def exprType : Expr → String
  | .ident _ => "__terminal__"
  | .literal _ => "__terminal__"
  | .unary _ _ => "__unary__"

/-- The attribute `op`, which is absent and reads as the empty text. -/
def op (_ : Expr) : String := ""

/-- The attribute `right`. -/
def right : Expr → Expr
  | .unary _ right => right
  | terminal => terminal

/-- The error for other qualifiers. -/
def neitherScalarNorRef (inType outType : String) : String :=
  "[Error] In_type or Out_type are neither scalar nor ref: in='" ++ inType ++ "', and out='" ++ outType ++ "'."

/-- A reference is a pointer. -/
def normalizeQualifier (type : String) : String := if type = "ref" then "pointer" else type

/-- `rtxResolve_RefScalarTranscribe`: what it makes of the expression. -/
def refScalarTranscribe (expr : Expr) (inType outType : String) : Except String Expr :=
  let inType := normalizeQualifier inType
  let outType := normalizeQualifier outType
  if outType = "copy" then .ok expr
  else if (inType ≠ "scalar" ∧ inType ≠ "pointer") ∨ (outType ≠ "scalar" ∧ outType ≠ "pointer") then
    .error (neitherScalarNorRef inType outType)
  else if inType = outType then .ok expr
  else
    let operator : UnaryOp := if inType = "scalar" then .addr else .deref
    if exprType expr ≠ "__unary__" ∨ op expr ≠ operatorText operator then .ok (.unary operator expr)
    else .ok (right expr)

/-- The qualifiers an expression is transcribed between. -/
inductive ExprQualifier where
  | scalar
  | ref
  | pointer
deriving DecidableEq

namespace ExprQualifier

/-- Its text. -/
def text : ExprQualifier → String
  | scalar => "scalar"
  | ref => "ref"
  | pointer => "pointer"

/-- References and pointers. -/
def isPointer : ExprQualifier → Bool
  | scalar => false
  | ref => true
  | pointer => true

end ExprQualifier

/-- One transcription after the other. -/
def transcribeAll (expr : Expr) (inType : ExprQualifier) : List ExprQualifier → Except String Expr
  | [] => .ok expr
  | outType :: rest => do
    let expr ← refScalarTranscribe expr inType.text outType.text
    transcribeAll expr outType rest

end Rathaxes.Resolve
