import Mathlib.Algebra.GroupWithZero.Nat
import Rathaxes.Back.ChunkCall
import Rathaxes.Back.Lookup
import Rathaxes.CodeWorker.Position
import Rathaxes.Node.Back

/-!
# Templates against their interfaces

`rtxTypeCheck_TemplateSpec` of `typing/routines/rtxTypingRoutines_Back.inc.cws`, for types and for sequences, with
the functions it asks. The nodes of the template are changed on the way: a chunk that is found gets the pointcut
of the interface, so each function here returns the chunks it leaves.

The helpers differ in what they compare. `rtxTypeCheck_TemplateHasChunk` looks at the chunks of every kind,
`rtxTypeCheck_TplTypeHasMethod` and `rtxTypeCheck_TplTypeHasDecl` at those of their own.
`rtxTypeCheck_TemplateHasPointcut` goes through the parameters of the interface and reads those of the template at
the same positions; it does not count them.
-/

set_option autoImplicit false

namespace Rathaxes.Back

open CodeWorker Mid

/-! ## Templates -/

/-- A declaration in the C code of a chunk: `name` and `ctype.storage`. -/
structure ChunkDecl where
  name : String
  storage : String
deriving DecidableEq

/-- A prototype as the parser reads it: a global name has no scope, and the types of the parameters have names. -/
structure Written (rtype : RType) : Prop where
  scope : rtype.name.global = true → rtype.name.scope = Word.blank
  params : ∀ param ∈ rtype.params, param.name ≠ Word.blank

instance (rtype : RType) : Decidable (Written rtype) :=
  decidable_of_iff ((rtype.name.global = true → rtype.name.scope = Word.blank) ∧
      ∀ param ∈ rtype.params, param.name ≠ Word.blank)
    ⟨fun h => ⟨h.1, h.2⟩, fun h => ⟨h.scope, h.params⟩⟩

/-- A chunk of a template, with the pointcuts among the placeholders of its code. `declType` and `decls` are
those of a chunk of kind `decl`. -/
structure TplChunk where
  chunkType : ChunkType
  pointcut : RType
  pointcuts : List RType
  read : ∀ rtype ∈ pointcuts, Written rtype
  declType : String
  decls : List ChunkDecl
deriving DecidableEq

/-- A template of a type. The parser refuses a second mapping of one name. -/
structure TypeTemplate where
  chunks : List TplChunk
  mapping : List Word
  mapped : mapping.Nodup
deriving DecidableEq

/-- The pointcuts in the code of a template. -/
def pointcutsOf (chunks : List TplChunk) : List RType := chunks.flatMap TplChunk.pointcuts

/-- A count of errors after one more answer. -/
def tally (errcount : Nat) (found : Bool) : Nat := if found = false then errcount + 1 else errcount

/-! ## Chunks and pointcuts -/

/-- `rtxTypeCheck_MatchPointcuts`. -/
def matchPointcuts (qualifiedPointcut checkedPointcut : RType) : Bool :=
  (isPlain checkedPointcut.name || checkedPointcut.name.scope = qualifiedPointcut.name.scope) &&
    paramsMatch qualifiedPointcut checkedPointcut

/-- The names are the same and the pointcuts match. -/
def implements (declared given : RType) : Bool :=
  declared.name.name = given.name.name && matchPointcuts declared given

/-- A loop over the chunks that returns at the first one that passes a test, which gets the pointcut. -/
def hookFirst (test : TplChunk → Bool) (pointcut : RType) (chunks : List TplChunk) : Bool × List TplChunk :=
  (chunks.any test, updateFirst test (fun entry => { entry with pointcut := pointcut }) chunks)

/-- The errors of a chunk that is not qualified. -/
def requireQualified (chunkRtype : RType) : Except String Unit :=
  if isPlain chunkRtype.name then .error "The chunk's name is not qualified "
  else
    match chunkRtype.params.findIdx? isPlain with
    | some i => .error ("The chunk's parameters #" ++ toString i ++ " is not qualified ")
    | none => .ok ()

/-- `rtxTypeCheck_TemplateHasChunk`. The kind of the chunks is not looked at. -/
def templateHasChunk (chunkRtype : RType) (chunks : List TplChunk) : Except String (Bool × List TplChunk) := do
  requireQualified chunkRtype
  pure (hookFirst (fun tplChunk => implements chunkRtype tplChunk.pointcut) chunkRtype chunks)

/-- A chunk of a kind with the full name of a pointcut. -/
def tplTypeHas (kind : ChunkType) (pointcut : RType) (chunks : List TplChunk) : Bool × List TplChunk :=
  hookFirst
    (fun entry =>
      entry.chunkType = kind ∧ entry.pointcut.name.name = pointcut.name.name ∧
        entry.pointcut.rtxRTypeFullQualifiedName = pointcut.rtxRTypeFullQualifiedName)
    pointcut chunks

/-- `rtxTypeCheck_TplTypeHasMethod`. -/
def tplTypeHasMethod (theMethod : RType) (chunks : List TplChunk) : Bool × List TplChunk :=
  tplTypeHas .method theMethod chunks

/-- `rtxTypeCheck_TplTypeHasDecl`. -/
def tplTypeHasDecl (theMethod : RType) (chunks : List TplChunk) : Bool × List TplChunk :=
  tplTypeHas .decl theMethod chunks

/-- The loop over the parameters of the interface's pointcut. The one of the template is read at the same position,
which it may not have. -/
def paramsAgree (i : Nat) : (params given : List Ident) → Except String Bool
  | [], _ => .ok true
  | _ :: _, [] => .error (outOfBounds i)
  | param :: params, pRtype :: given =>
    if pRtype.rtxRTypeName ≠ param.rtxRTypeName then .ok false else paramsAgree (i + 1) params given

/-- Whether a pointcut of the template is the one asked for. -/
def pointcutAgrees (pointcutRtype given : RType) : Except String Bool :=
  if given.name.name = pointcutRtype.name.name ∧ given.name.scope = Word.blank then
    paramsAgree 0 pointcutRtype.params given.params
  else .ok (given.rtxRTypeFullQualifiedName = pointcutRtype.rtxRTypeFullQualifiedName)

/-- `rtxTypeCheck_TemplateHasPointcut`, over the pointcuts in the code. The scope is written into `body.name`, not
into the type that is compared. -/
def templateHasPointcut (pointcutRtype : RType) : (pointcuts : List RType) → Except String Bool
  | [] => .ok false
  | given :: pointcuts => do
    if ← pointcutAgrees pointcutRtype given then pure true else templateHasPointcut pointcutRtype pointcuts

/-! ## Types -/

/-- A member of the type that is implemented by a chunk, with the kind of the chunk. -/
def memberOf : TypeItem → Option (ChunkType × RType)
  | .chunk pointcut => some (.chunk, pointcut)
  | .method pointcut => some (.method, pointcut)
  | .typedecl pointcut => some (.decl, pointcut)
  | .pointcut _ => none
  | .attribute _ _ => none

/-- An attribute of the type. -/
def attributeOf : TypeItem → Option Word
  | .attribute name _ => some name
  | .pointcut _ => none
  | .chunk _ => none
  | .method _ => none
  | .typedecl _ => none

/-- A pointcut the code of the type has to have. -/
def pointcutOf : TypeItem → Option RType
  | .pointcut rtype => some rtype
  | .chunk _ => none
  | .method _ => none
  | .typedecl _ => none
  | .attribute _ _ => none

namespace TypeTree

/-- The members that are implemented by chunks. -/
def members (itfType : TypeTree) : List (ChunkType × RType) := itfType.body.filterMap memberOf

/-- The names of the attributes. -/
def attributes (itfType : TypeTree) : List Word := itfType.body.filterMap attributeOf

/-- The pointcuts. -/
def pointcuts (itfType : TypeTree) : List RType := itfType.body.filterMap pointcutOf

end TypeTree

/-- The type of a name in the tree of an interface, `itfTree.types[name]`. -/
def typeNode (trees : TypeTrees) (scope name : Word) : Option TypeTree :=
  (trees scope).bind fun types => types.find? fun entry => entry.rtype.name.name = name

/-- The members of a kind that match a pointcut. -/
def prospects (itfType : TypeTree) (thePointcut : RType) (kind : ChunkType) : List RType :=
  (itfType.members.filter fun entry => entry.1 = kind ∧ implements entry.2 thePointcut).map Prod.snd

/-- `rtxTypeCheck_ItfTypeDefinesChunk`. The members that match are filed under their full names. The keys that are
looked up to file each once are the texts of nodes, which are empty, so none is left out. -/
def itfTypeDefinesChunk (itfType : TypeTree) (thePointcut : RType) (kind : ChunkType) : Bool × RType :=
  let named := (prospects itfType thePointcut kind).map fun pointcut => (pointcut.rtxRTypeFullQualifiedName, pointcut)
  let possibilities := named.foldl (fun t entry => t.set entry.1 entry.2) Table.empty
  match possibilities.only? with
  | some pointcut => (true, pointcut)
  | none => (false, thePointcut)

/-- `rtxTypeCheck_TypeDecl`: every declaration has a name, and one of them is a variable. -/
def typeDecl (theChunk : TplChunk) : Bool :=
  theChunk.declType = "enum" ∨
    ((∀ decl ∈ theChunk.decls, decl.name ≠ "") ∧ ∃ decl ∈ theChunk.decls, decl.storage ≠ "typedef" ∧ decl.name ≠ "")

/-- A turn of the loop over the chunks of the template: the errors, and the chunk with its pointcut qualified. -/
def defineEntry (itfType : TypeTree) (entry : TplChunk) : Nat × TplChunk :=
  let errcount := if entry.chunkType = .decl then tally 0 (typeDecl entry) else 0
  let (found, pointcut) := itfTypeDefinesChunk itfType entry.pointcut entry.chunkType
  (tally errcount found, { entry with pointcut := pointcut })

/-- `rtxTypeCheck_TplTypeHasAttribute`. -/
def tplTypeHasAttribute (theAttribute : Word) (mapping : List Word) : Bool := decide (theAttribute ∈ mapping)

/-- `rtxTypeCheck_ItfTypeDefinesAttribute`. -/
def itfTypeDefinesAttribute (itfType : TypeTree) (mapId : Word) : Bool := decide (mapId ∈ itfType.attributes)

/-- A turn of the loop over the members of the interface's type. -/
def implementItem (mapping : List Word) (s : Nat × List TplChunk) :
    TypeItem → Except String (Nat × List TplChunk)
  | .pointcut rtype => do
    let found ← templateHasPointcut rtype (pointcutsOf s.2)
    pure (tally s.1 found, s.2)
  | .chunk pointcut => do
    let (found, chunks) ← templateHasChunk pointcut s.2
    pure (tally s.1 found, chunks)
  | .method pointcut =>
    let (found, chunks) := tplTypeHasMethod pointcut s.2
    pure (tally s.1 found, chunks)
  | .typedecl pointcut =>
    let (found, chunks) := tplTypeHasDecl pointcut s.2
    pure (tally s.1 found, chunks)
  | .attribute name _ => pure (tally s.1 (tplTypeHasAttribute name mapping), s.2)

/-- What the check makes of a template of a type, once the type has been found. -/
def implementsType (itfType : TypeTree) (tpl : TypeTemplate) : Except String (Bool × TypeTemplate) := do
  let entries := tpl.chunks.map (defineEntry itfType)
  let nDecls := tpl.chunks.countP fun entry => entry.chunkType = .decl
  let errcount := tally (entries.map Prod.fst).sum (nDecls = 1)
  let (errcount, chunks) ← itfType.body.foldlM (implementItem tpl.mapping) (errcount, entries.map Prod.snd)
  let errcount := tpl.mapping.foldl (fun n mapId => tally n (itfTypeDefinesAttribute itfType mapId)) errcount
  pure (decide (errcount = 0), { tpl with chunks := chunks })

section Lookups

variable (w : Interfaces)

/-- The loop of `rtxInterfaceNameHasType` over the interfaces in use. -/
def hasTypeInList (fuel : Nat) (rtypeNode : RType) : List Word → List Word → Option (Bool × RType)
  | [], possibilities =>
    match (Table.uniques Word.text possibilities).only? with
    | some itf => some (true, withScope rtypeNode itf)
    | none => some (false, rtypeNode)
  | itfName :: names, possibilities =>
    match w.registered itfName with
    | none => some (false, rtypeNode)
    | some itfTree => do
      let (found, possibilities) ← hasType w rtypeNode fuel ⟨false, itfTree⟩ possibilities
      if found then pure (true, rtypeNode) else hasTypeInList fuel rtypeNode names possibilities

/-- `rtxInterfaceNameHasType`. Without a name the interfaces in use are searched, and the one found becomes the
scope. -/
def interfaceNameHasType (fuel : Nat) (rtypeNode : RType) (rtypeItfName : Word) (interfaceList : List Word) :
    Option (Bool × RType) :=
  if rtypeItfName ≠ Word.blank then
    match w.registered rtypeItfName with
    | none => some (false, rtypeNode)
    | some itfTree => (hasType w rtypeNode fuel ⟨false, itfTree⟩ []).map fun r => (r.1, rtypeNode)
  else hasTypeInList w fuel rtypeNode interfaceList []

/-- `rtxTypeCheck_TemplateSpec<"type">`. There is no result when the lookup of the type does not come to an end. -/
def templateSpecType (trees : TypeTrees) (fuel : Nat) (tplRtype : RType) (tpl : TypeTemplate)
    (interfaceList : List Word) : Option (Except String (Bool × TypeTemplate)) := do
  let (found, tplRtype) ← interfaceNameHasType w fuel tplRtype tplRtype.name.scope interfaceList
  if found = false then pure (.ok (false, tpl))
  else
    match typeNode trees tplRtype.name.scope tplRtype.name.name with
    | none => pure (.ok (false, tpl))
    | some itfType => pure (implementsType itfType tpl)

end Lookups

/-! ## Sequences -/

/-- A declaration in the body of a sequence, by its specifier. -/
inductive SequenceMember where
  | chunk (qualifier : Qualifier) (pointcut : RType)
  | pointcut (qualifier : Qualifier) (rtype : RType)
deriving DecidableEq

/-- The declaration of a sequence in the tree of an interface. -/
structure SequenceTree where
  qualifier : Qualifier
  body : List SequenceMember
deriving DecidableEq

/-- The sequences the interfaces in the cache declare, by name and full name. -/
abbrev SequenceTrees := Word → Option (Table (Table SequenceTree))

/-- The declaration of a sequence, `itfTree.sequences[name][fullName]`. -/
def sequenceNode (trees : SequenceTrees) (theSequence : RType) : Option SequenceTree := do
  let sequences ← trees theSequence.name.scope
  let overloads ← sequences.get? theSequence.name.name.text
  overloads.get? theSequence.rtxRTypeFullQualifiedName

/-- A turn of the loop over the body of the interface's sequence. The template is asked for every chunk, and gets its
pointcut, but an error is counted for a provided one only. -/
def provideMember (s : Nat × List TplChunk) : SequenceMember → Except String (Nat × List TplChunk)
  | .chunk qualifier pointcut => do
    let (found, chunks) ← templateHasChunk pointcut s.2
    pure (if qualifier = .provided then tally s.1 found else s.1, chunks)
  | .pointcut qualifier rtype =>
    if qualifier = .provided then do
      let found ← templateHasPointcut rtype (pointcutsOf s.2)
      pure (tally s.1 found, s.2)
    else pure s

/-- The pointcuts `::IMPLEMENTATION()` and `::CALL()`. -/
def builtinPointcut (name : Word) : RType := ⟨⟨Word.blank, name, true⟩, []⟩

/-- `rtxTypeCheck_TemplateBuiltinItems`. -/
def templateBuiltinItems (qualifier : Qualifier) (chunks : List TplChunk) : Except String (Bool × List TplChunk) :=
  if qualifier = .required ∨ qualifier = .optional then do
    let found ← templateHasPointcut (builtinPointcut ⟨"IMPLEMENTATION", .refl true⟩) (pointcutsOf chunks)
    pure (found, chunks)
  else templateHasChunk (builtinPointcut ⟨"CALL", .refl true⟩) chunks

/-- What an expression reads of the node of a pointcut. Its name is a node below it, where the scope and the mark of a
global one are, so as a text every one of these is empty. -/
structure PointcutAttributes where
  name : String
  scope : String
  global : String

/-- The attributes of the node of a pointcut. -/
def attributesOf (_pointcut : RType) : PointcutAttributes := ⟨"", "", ""⟩

/-- `rtxTypeCheck_ChunkIsBuiltin`, with the error it reports. It is given the pointcut and looks for the attributes of
its name. -/
def chunkIsBuiltin (pointcut : RType) (tplNode : SequenceTree) : Bool × Bool :=
  let node := attributesOf pointcut
  if node.global = "true" ∧ node.scope = "" then
    if node.name = "CALL" then if tplNode.qualifier ≠ .provided then (false, true) else (true, false)
    else (false, false)
  else (false, false)

/-- `rtxTypeCheck_ParametersMatch`: both prototypes are compared under one name. -/
def parametersMatch (rtype1 rtype2 : RType) : Bool :=
  let name : Ident := ⟨Word.blank, ⟨"InternalTest", .refl true⟩, true⟩
  { rtype1 with name := name }.rtxRTypeFullQualifiedName = { rtype2 with name := name }.rtxRTypeFullQualifiedName

section Sequences

variable (w : Interfaces) (interfaceList : List Word) (otherPlaceHolders : TplChunk → Except String Nat)

/-- `rtxTypeCheck_CheckPlaceholder<"__rtx_pointcut__">`. The interface of the template is the one that is its scope. -/
def checkPointcutPlaceHolder (tplRtype rtype : RType) : Bool :=
  if rtype.name.scope = Word.blank ∧ rtype.name.global = true ∧ rtype.name.name = ⟨"IMPLEMENTATION", .refl true⟩ then
    parametersMatch tplRtype rtype
  else (itfNameDefinesPointcut w rtype tplRtype.name.scope interfaceList).1

/-- A turn of the loop over the chunks: the errors, and the chunk with the pointcut that has been found. Of the
placeholders the pointcuts are checked here; the errors among the others are a parameter. -/
def hookChunk (tplRtype : RType) (itfTplNode : SequenceTree) (chunk : TplChunk) : Except String (Nat × TplChunk) :=
  let (builtin, builtinCheckError) := chunkIsBuiltin chunk.pointcut itfTplNode
  if builtin = false ∧ builtinCheckError ≠ true then do
    let name := if isPlain chunk.pointcut.name then tplRtype.name.scope else chunk.pointcut.name.scope
    let (found, pointcut) := itfNameDefinesPointcut w chunk.pointcut name interfaceList
    let chunk := { chunk with pointcut := pointcut }
    let others ← otherPlaceHolders chunk
    let errcount := chunk.pointcuts.foldl (fun n rtype => tally n (checkPointcutPlaceHolder w interfaceList tplRtype rtype))
      (tally 0 found)
    pure (errcount + others, chunk)
  else pure (if builtinCheckError then 1 else 0, chunk)

/-- The loop over the chunks. -/
def hookChunks (tplRtype : RType) (itfTplNode : SequenceTree) : List TplChunk → Except String (Nat × List TplChunk)
  | [] => pure (0, [])
  | chunk :: chunks => do
    let (n, chunk) ← hookChunk w interfaceList otherPlaceHolders tplRtype itfTplNode chunk
    let (errcount, chunks) ← hookChunks tplRtype itfTplNode chunks
    pure (n + errcount, chunk :: chunks)

/-- What the check makes of the chunks of a template of a sequence, once the sequence has been found. -/
def implementsSequence (tplRtype : RType) (itfTplNode : SequenceTree) (chunks : List TplChunk) :
    Except String (Bool × List TplChunk) := do
  let (errcount, chunks) ← itfTplNode.body.foldlM provideMember (0, chunks)
  let (found, chunks) ← templateBuiltinItems itfTplNode.qualifier chunks
  let errcount := tally errcount found
  let (errors, chunks) ← hookChunks w interfaceList otherPlaceHolders tplRtype itfTplNode chunks
  pure (decide (errcount + errors = 0), chunks)

/-- `rtxTypeCheck_TemplateSpec<"sequence">`. There is no result when the lookup of the sequence does not come to an
end. -/
def templateSpecSequence (trees : SequenceTrees) (fuel : Nat) (tplRtype : RType) (chunks : List TplChunk) :
    Option (Except String (Bool × List TplChunk)) := do
  let answer ← itfNameDefinesSequence w fuel tplRtype tplRtype.name.scope interfaceList none
  if answer.found = false then pure (.ok (false, chunks))
  else
    match sequenceNode trees answer.theSequence with
    | none => pure (.ok (false, chunks))
    | some itfTplNode =>
      pure (implementsSequence w interfaceList otherPlaceHolders answer.theSequence itfTplNode chunks)

end Sequences

end Rathaxes.Back
