import Rathaxes.Link.Install

/-!
# The compiler, run by run

`rathaxes.cws`: one run of the compiler reads the two cache files, does what its arguments ask for and may write the
cache files again. Between two runs there is nothing but the disk.

The passes over the input file are parameters (`Passes`): what the driver sees of them is the list of items to
register, the files they leave in the working directory, or that they end the run. Every `exit` with a status other
than 0 and every error that is not caught ends a run, and so does a registration that fails.
-/

set_option autoImplicit false

namespace Rathaxes.Link

open CodeWorker

/-- What the arguments can ask for. -/
inductive Operation where
  | generate
  | bltCheck
  | bltRegister
  | rtiCheck
  | rtiRegister
  | cacheClear
  | cacheInstall
deriving DecidableEq

/-- `toLowerString(s)`. -/
def toLowerString (s : String) : String := String.ofList (s.toList.map Char.toLower)

/-- `this.operation` and `this.subop`; `none` where the driver prints its usage. -/
def readOperation (operation subop : String) : Option Operation :=
  if toLowerString operation = "generate" then some .generate
  else if toLowerString operation = "blt-check" then some .bltCheck
  else if toLowerString operation = "blt-register" then some .bltRegister
  else if toLowerString operation = "rti-check" then some .rtiCheck
  else if toLowerString operation = "rti-register" then some .rtiRegister
  else if toLowerString operation = "cache" then
    if toLowerString subop = "clear" then some .cacheClear
    else if toLowerString subop = "install" then some .cacheInstall
    else none
  else none

/-- The passes over the input file. `compile` are those in front of the registration, on what has been loaded, with
the files of the working directory as they are when a registering run comes to save its session; `generate` are those
behind it. -/
structure Passes where
  compile : Operation → Linker → FileSystem → Except String (List Item × FileSystem)
  generate : Session → FileSystem → Except String FileSystem

/-- How five of the operations begin: `rtxLink_LoadCache`, whose value only makes a trace, the passes, and
`rtxLink_RegisterToCache`. -/
def compileFile (env : LinkEnv) (passes : Passes) (op : Operation) (disk : Disk) :
    Except String (Linker × FileSystem) := do
  let (_, st) ← loadCache env disk
  let (items, files) ← passes.compile op st disk.files
  let session ← sessionRegisterAll st.session Table.empty items
  return ({ st with session := session }, files)

/-- `blt-check` and `rti-check`: nothing is saved. -/
def checkFile (env : LinkEnv) (passes : Passes) (op : Operation) (disk : Disk) : Except String Disk := do
  let (_, files) ← compileFile env passes op disk
  return { disk with files := files }

/-- The error of a session that could not be saved. -/
def notSaved : String := "Could not save cache !"

/-- `blt-register` and `rti-register`. -/
def registerFile (env : LinkEnv) (passes : Passes) (op : Operation) (disk : Disk) : Except String Disk := do
  let (st, files) ← compileFile env passes op disk
  match ← saveCache env { disk with files := files } st true with
  | none => .error notSaved
  | some disk => return disk

/-- `generate`. -/
def generateFile (env : LinkEnv) (passes : Passes) (disk : Disk) : Except String Disk := do
  let (st, files) ← compileFile env passes .generate disk
  let files ← passes.generate st.session files
  return { disk with files := files }

/-- `cache clear`. What `rtxLink_SaveCache` returns is not looked at. -/
def clearCache (env : LinkEnv) (disk : Disk) : Except String Disk := do
  let (_, st) ← loadCache env disk
  match ← saveCache env disk { st with cacheLocal := Cache.empty } true with
  | none => return disk
  | some disk => return disk

/-- One operation. -/
def Operation.run (env : LinkEnv) (passes : Passes) (disk : Disk) : Operation → Except String Disk
  | .generate => generateFile env passes disk
  | .bltCheck => checkFile env passes .bltCheck disk
  | .bltRegister => registerFile env passes .bltRegister disk
  | .rtiCheck => checkFile env passes .rtiCheck disk
  | .rtiRegister => registerFile env passes .rtiRegister disk
  | .cacheClear => clearCache env disk
  | .cacheInstall => installLocalCache env disk

/-- How a run ends that does not know what to do. -/
def usage : String := "exit 1"

/-- A run of the compiler, with the operation and its argument. -/
def rathaxes (env : LinkEnv) (passes : Passes) (operation subop : String) (disk : Disk) : Except String Disk :=
  match readOperation operation subop with
  | none => .error usage
  | some op => op.run env passes disk

end Rathaxes.Link
