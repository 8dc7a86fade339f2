import Mathlib.Data.List.Basic

/-!
# Identifiers and Rathaxes types

The nodes `rtxNodeIdentifier` and `rtxNodeRType` build (`node/rtxNode.inc.cws`) and the two
renderings every table of the linker is keyed with: the bare name of a type and the full name of
a prototype, parameters included. The words an identifier is made of come from the grammar's
`#readIdentifier`, so they hold letters, digits and underscores only; `Word` records that, and it
is what keeps a rendered name from being read two ways.
-/

set_option autoImplicit false

namespace Rathaxes

/-- The characters `#readIdentifier` accepts. -/
def isWordChar (c : Char) : Bool := c.isAlphanum || c == '_'

/-- A word the grammar can read as an identifier, or the empty word of an absent scope. In a definition the
check of a literal is `.refl true`, evaluated where it stands. -/
@[ext]
structure Word where
  text : String
  plain : text.toList.all isWordChar = true
deriving DecidableEq

namespace Word

/-- The scope of an identifier that has none. -/
def blank : Word := ⟨"", .refl true⟩

theorem text_injective : Function.Injective Word.text := fun _ _ h => Word.ext h

theorem not_mem_of_not_wordChar (w : Word) {c : Char} (h : isWordChar c = false) :
    c ∉ w.text.toList := by
  intro hmem
  have hc := List.all_eq_true.1 w.plain c hmem
  rw [h] at hc
  exact Bool.false_ne_true hc

end Word

/-- An `__rtx_id__` node. -/
structure Ident where
  scope : Word
  name : Word
  global : Bool
deriving DecidableEq

/-- `rtxNodeIdentifier(id, scope)`: the `global` flag defaults to false. -/
def rtxNodeIdentifier (name : Word) (scope : Word := Word.blank) : Ident := ⟨scope, name, false⟩

/-- `rtxRTypeName<"__rtx_id__">`. -/
def Ident.rtxRTypeName (theNode : Ident) : String :=
  if theNode.global = false ∧ theNode.scope.text = "" then theNode.name.text
  else if theNode.global = true then "::" ++ theNode.name.text
  else theNode.scope.text ++ "::" ++ theNode.name.text

theorem Ident.not_mem_rtxRTypeName {c : Char} (hword : isWordChar c = false) (hcolon : c ≠ ':')
    (i : Ident) : c ∉ i.rtxRTypeName.toList := by
  have hscope := i.scope.not_mem_of_not_wordChar hword
  have hname := i.name.not_mem_of_not_wordChar hword
  unfold Ident.rtxRTypeName
  split
  · exact hname
  · split
    · simp [hname, hcolon]
    · simp [hscope, hname, hcolon]

section Names

variable {a : Ident}

theorem rtxRTypeName_of_global (h : a.global = true) : a.rtxRTypeName = "::" ++ a.name.text := by
  simp [Ident.rtxRTypeName, h]

theorem rtxRTypeName_of_blank (hglobal : a.global = false) (hscope : a.scope = Word.blank) :
    a.rtxRTypeName = a.name.text := by
  simp [Ident.rtxRTypeName, hglobal, hscope, Word.blank]

theorem rtxRTypeName_of_scoped (hglobal : a.global = false) (hscope : a.scope ≠ Word.blank) :
    a.rtxRTypeName = a.scope.text ++ "::" ++ a.name.text := by
  have htext : a.scope.text ≠ "" := fun h => hscope (Word.ext h)
  simp [Ident.rtxRTypeName, hglobal, htext]

end Names

/-- An `__rtx_rtype__` node: a name and the types of its parameters. -/
structure RType where
  name : Ident
  params : List Ident
deriving DecidableEq

/-- The error of `rtxRTypeName` on a node without a type, such as that of an argument whose type was not found. -/
def badNodeType : String := "Bad node type: \n"

/-- `rtxRTypeName<"__rtx_rtype__">`. -/
def RType.rtxRTypeName (rTypeNode : RType) : String := rTypeNode.name.rtxRTypeName

/-- `rtxRTypeFullQualifiedName<"sequence">` and `<"pointcut">`, two copies of one body: the hash
templates and chunks are filed under. -/
def RType.rtxRTypeFullQualifiedName (rTypeNode : RType) : String :=
  rTypeNode.rtxRTypeName ++ "(" ++
    String.intercalate "," (rTypeNode.params.map Ident.rtxRTypeName) ++ ")"

/-- `hashTemplatePrototype` of `linker/rtxLink.inc.cws`. -/
def hashTemplatePrototype (theRType : RType) : String := theRType.rtxRTypeFullQualifiedName

/-- A full name ends with the parenthesis of its parameter list. -/
theorem RType.toList_rtxRTypeFullQualifiedName (rTypeNode : RType) :
    ∃ a, rTypeNode.rtxRTypeFullQualifiedName.toList = a ++ [')'] :=
  ⟨_, String.toList_append⟩

theorem RType.rtxRTypeFullQualifiedName_ne {rTypeNode : RType} {s : String}
    (h : s.toList.getLast? ≠ some ')') : rTypeNode.rtxRTypeFullQualifiedName ≠ s := by
  rintro rfl
  obtain ⟨a, ha⟩ := rTypeNode.toList_rtxRTypeFullQualifiedName
  rw [ha, List.getLast?_concat] at h
  exact h rfl

end Rathaxes
