import WireSchema.CommandLine.FileSystem
import WireSchema.Table

/-! A folder of plain files for a command to run in, and the system around it. -/

namespace WireSchema

/-- Plain files by their names. -/
structure Directory where
  files : Table (List UInt8)
  deriving DecidableEq

namespace Directory

/-- Where the folder is. -/
def home : Place := ["tmp", "work"]

/-- Folders in the root in which files can be made. -/
def rootNames : List String :=
  ["bin", "dev", "etc", "home", "lib", "opt", "root", "run", "sbin", "tmp", "usr", "var"]

def node? (d : Directory) : Place → Option Node
  | [] => some (.folder {})
  | ["tmp", "work"] => some (.folder {})
  | ["tmp", "work", name] => (d.files.find? name).map (.file {})
  | ["dev", "null"] => some (.device {} [])
  -- zeros without end come from it
  | ["dev", "full"] =>
    some (.device { reading := some .outOfMemory, room := some (0, .noSpace) } [])
  | ["proc"] => some (.folder { making := some .notFound })
  | ["sys"] => some (.folder { making := some .denied })
  | [name] => if name ∈ rootNames then some (.folder {}) else none
  | _ => none

/-- A usual system with the folder in it. -/
def system (d : Directory) : FileSystem := ⟨home, d.node?⟩

end Directory

end WireSchema
