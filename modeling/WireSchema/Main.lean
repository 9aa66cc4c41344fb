import WireSchema.CommandLine.Session

/-! The command line over the files of the system. -/

namespace WireSchema

/-- The faults of files that have a number of the system. -/
def systemFaults : List (UInt32 × DiskFault) :=
  [(2, .notFound), (13, .denied), (20, .notDirectory), (21, .isDirectory), (28, .noSpace),
    (36, .nameTooLong), (40, .linkLoop)]

/-- The number that an error of a file has, which may come with either sign. -/
def errorCode? : IO.Error → Option UInt32
  | .noFileOrDirectory _ code _ | .permissionDenied _ code _ | .inappropriateType _ code _
  | .resourceExhausted _ code _ | .invalidArgument _ code _ | .otherError code _ => some code
  | _ => none

/-- The disk faults among the errors of the system; another error is raised again. -/
def diskFault (e : IO.Error) : IO DiskFault :=
  let known := fun code => systemFaults.find? fun f => code == f.1 || code == 0 - f.1
  match errorCode? e >>= known with
  | some (_, fault) => pure fault
  | none => throw e

def systemDisk : Disk IO where
  Handle := IO.FS.Handle
  read path := do
    try return .ok (← IO.FS.readBinFile path).toList
    catch e => return .error (← diskFault e)
  create path := do
    try return .ok (← IO.FS.Handle.mk path .write)
    catch e => return .error (← diskFault e)
  append h _ bytes := do
    try
      h.write ⟨bytes.toArray⟩
      h.flush
      return .ok bytes.length
    catch e => return .error (← diskFault e)

def printOutput : Output → IO Unit
  | .text lines => IO.print lines
  | .bytes bs => do
    let out ← IO.getStdout
    out.write ⟨bs.toArray⟩
    out.flush
  | .nothing => pure ()

end WireSchema

open WireSchema in
def main (words : List String) : IO UInt32 := do
  match Command.parse words with
  | none => return 2
  | some command =>
    let session := Session.ofOutcome (← (command.run systemDisk).run)
    printOutput session.output
    IO.eprint session.errors
    return session.exitCode.toUInt32
