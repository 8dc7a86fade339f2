import Rathaxes.CodeWorker.Reader
import Rathaxes.Node.RType

/-!
# Prototypes

`rtx_scoped_identifier`, `rtx_param`, `rtx_parameter_list` and `rtx_template_prototype` of `parse/rtxCommon.cwp`. No
blanks are skipped within an identifier, and they are before every other token. Comments count as blanks and are left
out.

A rule that does not match, or raises an error behind a `#continue`, has no result.
-/

set_option autoImplicit false

namespace Rathaxes.Parse

open CodeWorker

theorem isWordChar_of_isIdentStart {c : Char} (h : isIdentStart c = true) : isWordChar c = true := by
  unfold isIdentStart at h
  unfold isWordChar Char.isAlphanum
  rcases Bool.or_eq_true_iff.1 h with halpha | hline
  · simp [halpha]
  · simp [hline]

theorem all_isWordChar_of_readIdentifier {s a rest : List Char} (h : readIdentifier s = some (a, rest)) :
    (String.ofList a).toList.all isWordChar = true := by
  unfold readIdentifier at h
  split at h
  · cases h
  · split at h
    · rename_i hstart
      cases h
      rw [String.toList_ofList, List.all_cons, isWordChar_of_isIdentStart hstart, Bool.true_and]
      exact List.all_takeWhile
    · cases h

/-- Blanks before a token. -/
def skipBlanks (s : List Char) : List Char := s.dropWhile Char.isWhitespace

/-- The word `#readIdentifier` reads. -/
def readWord (s : List Char) : Option (Word × List Char) :=
  match h : readIdentifier s with
  | some (a, rest) => some (⟨String.ofList a, all_isWordChar_of_readIdentifier h⟩, rest)
  | none => none

/-- What may stand in front of a name: a scope with its colons, or colons alone, which make the name global. -/
def readMark (s : List Char) : (Word × Bool) × List Char :=
  match readWord s with
  | some (sScope, ':' :: ':' :: rest) => ((sScope, false), rest)
  | _ =>
    match s with
    | ':' :: ':' :: rest => ((Word.blank, true), rest)
    | _ => ((Word.blank, false), s)

/-- `rtx_scoped_identifier`. -/
def rtxScopedIdentifier (forceScope : Bool) (s : List Char) : Option (Ident × List Char) :=
  let ((sScope, globallyDefined), s) := readMark (skipBlanks s)
  if forceScope = false ∨ globallyDefined = true ∨ sScope ≠ Word.blank then do
    let (sIdentifier, rest) ← readWord s
    return (⟨sScope, sIdentifier, globallyDefined⟩, rest)
  else none

/-- `rtx_param`: a type, and the name of the parameter if there is one. -/
def rtxParam (s : List Char) : Option ((Ident × Word) × List Char) := do
  let (param, s) ← rtxScopedIdentifier false s
  match readWord (skipBlanks s) with
  | some (identifier, rest) => return ((param, identifier), rest)
  | none => return ((param, Word.blank), s)

/-- The parameters after the first one, each behind a comma. Every turn reads a character or more. -/
def readParams : Nat → List Char → Option (List (Ident × Word) × List Char)
  | 0, s => some ([], s)
  | fuel + 1, s =>
    match skipBlanks s with
    | ',' :: s => do
      let (param, s) ← rtxParam s
      let (params, rest) ← readParams fuel s
      return (param :: params, rest)
    | _ => some ([], s)

/-- The parameters between the parentheses. -/
def readAllParams (s : List Char) : Option (List (Ident × Word) × List Char) :=
  match rtxParam s with
  | none => some ([], s)
  | some (param, s) => do
    let (params, rest) ← readParams s.length s
    return (param :: params, rest)

/-- `rtx_parameter_list`. -/
def rtxParameterList (s : List Char) : Option (List (Ident × Word) × List Char) :=
  match skipBlanks s with
  | '(' :: s => do
    let (params, s) ← readAllParams s
    match skipBlanks s with
    | ')' :: rest => return (params, rest)
    | _ => none
  | _ => none

/-- `rtx_template_prototype`: the prototype, the names of its parameters, and the text after it. -/
def rtxTemplatePrototype (s : List Char) : Option ((RType × List Word) × List Char) := do
  let (name, s) ← rtxScopedIdentifier false s
  let (params, rest) ← rtxParameterList s
  return ((⟨name, params.map Prod.fst⟩, params.map Prod.snd), rest)

end Rathaxes.Parse
