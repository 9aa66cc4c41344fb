import WireSchema.Fault

/-! What a command asks of the files of a system. A file is written in two stages: it is
opened, which empties it, and then takes bytes for as long as it takes any. What it holds
when the second stage fails is neither what it held before nor all that was to be written. -/

namespace WireSchema

/-- Reading and writing files by their paths. -/
structure Disk (m : Type → Type) where
  /-- A file that is open for writing. -/
  Handle : Type
  read : String → m (Except DiskFault (List UInt8))
  /-- Opens a file for writing: one that is there is emptied, another is made. -/
  create : String → m (Except DiskFault Handle)
  /-- Writes some of the bytes behind those written before, whose number is given, and says how
  many of them were taken. -/
  append : Handle → Nat → List UInt8 → m (Except DiskFault Nat)

namespace Disk

variable {m : Type → Type} [Monad m]

/-- Writes until nothing is left, where the first bytes may be taken already. -/
def writeAll (disk : Disk m) (h : disk.Handle) :
    Nat → Nat → List UInt8 → m (Except DiskFault Unit)
  | _, _, [] => return .ok ()
  | written, taken + 1, _ :: more => disk.writeAll h (written + 1) taken more
  | written, 0, byte :: more => do
    match ← disk.append h written (byte :: more) with
    | .ok 0 => return .error .nothingTaken
    | .ok (taken + 1) => disk.writeAll h (written + 1) taken more
    | .error fault => return .error fault

def write (disk : Disk m) (path : String) (bytes : List UInt8) : m (Except DiskFault Unit) := do
  match ← disk.create path with
  | .ok h => disk.writeAll h 0 0 bytes
  | .error fault => return .error fault

end Disk

end WireSchema
