import WireSchema.CommandLine.Arguments
import WireSchema.CommandLine.FileSystem
import WireSchema.Json.Pretty
import WireSchema.Wire.Decode

/-! Running a command. A command reads all that it needs, works, and writes last. -/

namespace WireSchema

/-- What a command puts out, on a standard output that takes all of it. -/
inductive Output where
  | text (lines : String)
  | bytes (bs : List UInt8)
  /-- All went to a file. -/
  | nothing
  deriving DecidableEq

namespace Command

variable {m : Type → Type} [Monad m]

def readBytes (disk : Disk m) (path : String) : ExceptT Fault m (List UInt8) := do
  match ← disk.read path with
  | .ok bytes => pure bytes
  | .error fault => throw (.disk fault)

/-- A text file, which has to be UTF-8. -/
def readText (disk : Disk m) (path : String) : ExceptT Fault m String := do
  match Utf8.decode (← readBytes disk path) with
  | .ok chars => pure (String.ofList chars)
  | .error _ => throw (.disk .notText)

def readSchema (disk : Disk m) (path : String) : ExceptT Fault m Document := do
  match Document.compile (← readText disk path) with
  | .ok d => pure d
  | .error fault => throw (.schema fault)

def readValue (disk : Disk m) (path : String) : ExceptT Fault m Value := do
  match Value.ofJson (← readText disk path) with
  | .ok v => pure v
  | .error fault => throw (.json fault)

/-- Indented JSON with a line feed at the end. -/
def display (tree : Json.Tree) : Output := .text (String.ofList (tree.pretty 0 ++ ['\n']))

def writeOut (disk : Disk m) (bytes : List UInt8) : Option String → ExceptT Fault m Output
  | none => pure (.bytes bytes)
  | some path => do
    match ← disk.write path bytes with
    | .ok () => pure .nothing
    | .error fault => throw (.disk fault)

def run (disk : Disk m) : Command → ExceptT Fault m Output
  | check input => do
    let d ← readSchema disk input
    pure (display (.ofDocument d))
  | encode schema name input output limits => do
    let d ← readSchema disk schema
    let v ← readValue disk input
    let bytes ← liftExcept (d.encode limits name v)
    writeOut disk bytes output
  | decode schema name input offset limits => do
    let d ← readSchema disk schema
    let bytes ← readBytes disk input
    let (v, _) ← liftExcept (d.decode limits name bytes offset.toNat)
    pure (display (.ofValue v))
where
  liftExcept {α : Type} : Except Fault α → ExceptT Fault m α
    | .ok a => pure a
    | .error fault => throw fault

/-- Runs a command over the files of a system. -/
def runIn (c : Command) (s : FileSystem) : Except Fault Output × FileSystem :=
  (c.run FileSystem.disk).run.run s

end Command

end WireSchema
