import Rathaxes.Node.With

/-!
# The tree of a back-end file

What `parse/rtxBack.cwp` builds from a library file: with-blocks holding templates, stand-alone
chunks, interfaces and further with-blocks, with the nodes of `node/rtxNodeBack.inc.cws`. The C code
itself stays abstract. Of the code a with-block guards at top level, its `c_block`, the passes
modelled here look at whether it is empty and at its placeholders.

The generation pass writes file names into the nodes, and the registration reads them back; they are
empty before that, as an absent attribute reads as the empty text. The hash of the enclosing template,
which the pass also writes into a chunk (`tpl_hash`), is passed along instead: it is that of the
template the chunk stands in, and empty for a chunk that stands alone.
-/

set_option autoImplicit false

namespace Rathaxes

/-- The three file attributes a generated node carries. -/
structure Files where
  treeFilename : String
  treeFile : String
  scriptFile : String
deriving DecidableEq

namespace Files

/-- A node the generation pass has not reached. -/
def absent : Files := ⟨"", "", ""⟩

/-- The names `rtxGenScript` derives from one base name. -/
def named (sFile : String) : Files := ⟨sFile, sFile ++ ".tree", sFile ++ ".cws"⟩

end Files

/-- `chunk_type`. -/
inductive ChunkType where
  | chunk
  | decl
  | method
deriving DecidableEq

/-- An `__rtx_chunk__` node: the code to weave in at a pointcut. -/
structure Chunk where
  chunkType : ChunkType
  pointcut : RType
  files : Files
deriving DecidableEq

/-- `prototype.tpl_type`. -/
inductive TplType where
  | sequence
  | type
  | builtintype
deriving DecidableEq

/-- An `__rtx_tpl__` node. `hasMapping` is `rtxNodeTpl_HasMapping`. -/
structure Template where
  tplType : TplType
  prototype : RType
  hasMapping : Bool
  body : List Chunk
  files : Files
deriving DecidableEq

/-- The body of a placeholder standing in C code: a pointcut, or a placeholder of another type. -/
inductive PlaceHolder where
  | pointcut (name : Ident)
  | other (type : String) (text : String)
deriving DecidableEq

/-- The C block of a with-block: its statements and the placeholders found in them. -/
structure CBlock where
  block : List String
  compile : List PlaceHolder
deriving DecidableEq

/-- A node of a back-end file, by its type attribute. -/
inductive Item where
  | withBlock (node : WithNode) (cBlock : CBlock) (files : Files) (body : List Item)
  | tpl (template : Template)
  | chunk (theChunk : Chunk)
  | itf (name : String)
  | itfExtension (name : String)
  | device
  | config
  | other (type : String)

end Rathaxes
