import WireSchema.CommandLine.Disk
import WireSchema.CommandLine.Path

/-! The files of a system: folders, ordinary files, devices, and links to all of them. A path is
walked step by step, and the first step that fails is the fault. What may be done with a file is
part of it, and so is the room that it has. -/

namespace WireSchema

/-- The names on the way from the root. -/
abbrev Place := List String

/-- What keeps a file from being used, where something does. -/
structure Access where
  reading : Option DiskFault := none
  writing : Option DiskFault := none
  /-- How many bytes there is room for, and what comes of more. -/
  room : Option (Nat × DiskFault) := none
  deriving DecidableEq

/-- What keeps a folder from being used, where something does. -/
structure FolderAccess where
  searching : Option DiskFault := none
  /-- A folder is never read as a file. -/
  reading : DiskFault := .isDirectory
  making : Option DiskFault := none
  /-- The access to a file that is made in it. -/
  fresh : Access := {}
  deriving DecidableEq

/-- What stands at a place. -/
inductive Node where
  | folder (access : FolderAccess)
  | file (access : Access) (bytes : List UInt8)
  /-- It gives the same bytes whenever it is read, and keeps none that are written to it. -/
  | device (access : Access) (bytes : List UInt8)
  /-- Another name of a place, or one that leads nowhere. Of two names of one file either is a link
  to the other. -/
  | link (target : Except DiskFault Place)

structure FileSystem where
  /-- The folder in which a command runs. -/
  here : Place
  node? : Place → Option Node

/-- A file that is open for writing. -/
structure FileHandle where
  place : Place
  access : Access
  deriving DecidableEq

/-- Bytes that are taken of some more, when some have been written. -/
def Access.takes (access : Access) (written more : Nat) : Except DiskFault Nat :=
  match access.room with
  | none => .ok more
  | some (size, fault) => if written < size then .ok (min more (size - written)) else .error fault

namespace FileSystem

/-- Goes on unless something is in the way. -/
def permit : Option DiskFault → Except DiskFault Unit
  | none => .ok ()
  | some fault => .error fault

/-- Whether names are looked up at a place. -/
def search (s : FileSystem) (p : Place) : Except DiskFault Unit :=
  match s.node? p with
  | some (.folder access) => permit access.searching
  | some _ => .error .notDirectory
  | none => .error .notFound

/-- What a name in a folder stands for. -/
def resolve (s : FileSystem) (p : Place) (name : String) : Except DiskFault Place :=
  if Path.maxNameLength < Utf8.size name.toList then .error .nameTooLong
  else
    match s.node? (p ++ [name]) with
    | some (.link target) => target
    | _ => .ok (p ++ [name])

def step (s : FileSystem) (p : Place) (move : Step) : Except DiskFault Place := do
  s.search p
  match move with
  | .stay => .ok p
  | .up => .ok p.dropLast
  | .into name => s.resolve p name

/-- Where the steps to the last name of a path lead, which has to be a folder if there is a last
name. -/
def walk (s : FileSystem) (path : Path) : Except DiskFault Place := do
  let p ← path.steps.foldlM s.step (if path.absolute then [] else s.here)
  if path.last.isSome then s.search p
  .ok p

/-- The bytes at a place. A path that ends in a slash asks for a folder. -/
def contents (s : FileSystem) (closed : Bool) (p : Place) : Except DiskFault (List UInt8) :=
  match s.node? p with
  | none => .error .notFound
  | some (.folder access) => .error access.reading
  | some (.link _) => .error .linkLoop
  | some (.file access bytes) | some (.device access bytes) =>
    if closed then .error .notDirectory
    else do
      permit access.reading
      .ok bytes

def read (s : FileSystem) (text : String) : Except DiskFault (List UInt8) := do
  let path ← Path.parse text
  let p ← s.walk path
  match path.last with
  | none => s.contents true p
  | some name => s.contents path.closed (← s.resolve p name)

/-- The place of a file that need not be there. -/
def place (s : FileSystem) (text : String) : Except DiskFault Place := do
  let path ← Path.parse text
  let p ← s.walk path
  match path.last, path.closed with
  | some name, false => s.resolve p name
  | _, _ => .error .isDirectory

/-- The access to what is opened for writing at a place. Who makes a file may write to it. -/
def accessAt (s : FileSystem) (p : Place) : Except DiskFault Access :=
  match s.node? p with
  | some (.folder _) => .error .isDirectory
  | some (.link _) => .error .linkLoop
  | some (.file access _) | some (.device access _) => do
    permit access.writing
    .ok access
  | none =>
    match s.node? p.dropLast with
    | some (.folder access) => do
      permit access.making
      .ok access.fresh
    | _ => .error .notFound

/-- What a path opens for writing. -/
def handle (s : FileSystem) (text : String) : Except DiskFault FileHandle := do
  let p ← s.place text
  let access ← s.accessAt p
  .ok ⟨p, access⟩

def put (s : FileSystem) (p : Place) (n : Node) : FileSystem :=
  { s with node? := fun q => if q = p then some n else s.node? q }

/-- The files when a file has been opened and bytes have been written to it. -/
def keep (s : FileSystem) (h : FileHandle) (bytes : List UInt8) : FileSystem :=
  match s.node? h.place with
  | some (.device ..) => s
  | _ => s.put h.place (.file h.access bytes)

/-- What is in a file so far. -/
def held (s : FileSystem) (p : Place) : List UInt8 :=
  match s.node? p with
  | some (.file _ bytes) => bytes
  | _ => []

def create (s : FileSystem) (text : String) : Except DiskFault (FileHandle × FileSystem) := do
  let h ← s.handle text
  .ok (h, s.keep h [])

def append (s : FileSystem) (h : FileHandle) (written : Nat) (bytes : List UInt8) :
    Except DiskFault (Nat × FileSystem) := do
  let n ← h.access.takes written bytes.length
  .ok (n, s.keep h (s.held h.place ++ bytes.take n))

/-- Does a thing to the files, unless it fails. -/
def attempt {α : Type} (f : FileSystem → Except DiskFault (α × FileSystem)) :
    StateM FileSystem (Except DiskFault α) := do
  match f (← get) with
  | .ok (a, after) =>
    set after
    return .ok a
  | .error fault => return .error fault

def disk : Disk (StateM FileSystem) where
  Handle := FileHandle
  read text := return (← get).read text
  create text := attempt (·.create text)
  append h written bytes := attempt (·.append h written bytes)

end FileSystem

end WireSchema
