import WireSchema.CommandLine.Directory
import WireSchema.CommandLine.Report

/-! A whole run from the words of the command line: how it ends, and the files after it. -/

namespace WireSchema

structure Session where
  /-- Zero when all went well, one after a fault, two for a line that is no command. -/
  exitCode : UInt8
  output : Output
  errors : String
  deriving DecidableEq

namespace Session

def ofOutcome : Except Fault Output → Session
  | .ok output => ⟨0, output, ""⟩
  | .error fault => ⟨1, .nothing, Report.complaint fault⟩

def refused : Session := ⟨2, .nothing, ""⟩

/-- Runs a command line over the files of a system. -/
def runIn (words : List String) (s : FileSystem) : Session × FileSystem :=
  match Command.parse words with
  | none => (refused, s)
  | some command =>
    let (outcome, after) := command.runIn s
    (ofOutcome outcome, after)

/-- Runs a command line in a folder of plain files. -/
def run (words : List String) (d : Directory) : Session × FileSystem := runIn words d.system

end Session

end WireSchema
