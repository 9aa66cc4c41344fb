import WireSchema.Json.Fault
import WireSchema.Schema.Fault

/-! Why an operation fails. Paths go from the name of the outermost struct through the
names of fields. -/

namespace WireSchema

/-- What the files of a run may do wrong. -/
inductive DiskFault where
  /-- What the system has a number, a kind and a text for. -/
  | system (code : Nat) (kind text : String)
  /-- A text file that is not UTF-8. -/
  | notText
  /-- A file that takes no more bytes, without a fault. -/
  | nothingTaken
  /-- A file that is larger than memory. -/
  | outOfMemory
  deriving DecidableEq, Repr

namespace DiskFault

def notFound : DiskFault := system 2 "NotFound" "No such file or directory"

def denied : DiskFault := system 13 "PermissionDenied" "Permission denied"

def notDirectory : DiskFault := system 20 "NotADirectory" "Not a directory"

def isDirectory : DiskFault := system 21 "IsADirectory" "Is a directory"

def noSpace : DiskFault := system 28 "StorageFull" "No space left on device"

/-- A path with too many bytes, or a name in it. -/
def nameTooLong : DiskFault := system 36 "InvalidFilename" "File name too long"

/-- Links that lead to each other. -/
def linkLoop : DiskFault := system 40 "FilesystemLoop" "Too many levels of symbolic links"

def message : DiskFault → String
  | system code _ text => text ++ " (os error " ++ Text.natText code ++ ")"
  | notText => "stream did not contain valid UTF-8"
  | nothingTaken => "failed to write whole buffer"
  | outOfMemory => "out of memory"

end DiskFault

/-- What may be wrong with bytes of the right length. -/
inductive MalformedCause where
  | varintOverflow
  | boolByte (byte : UInt8)
  | utf8 (fault : Utf8.Fault)
  | json (fault : Json.Fault)
  deriving DecidableEq, Repr

def MalformedCause.message : MalformedCause → String
  | .varintOverflow => "varint does not fit in 64 bits"
  | .boolByte byte => "invalid bool byte " ++ Text.natText byte.toNat
  | .utf8 fault => fault.message
  | .json fault => fault.message

inductive Fault where
  | disk (fault : DiskFault)
  | json (fault : Json.Fault)
  | schema (fault : Schema.Fault)
  /-- A name that stands for no type, in a struct or in the document. -/
  | unknownType (name : String) (struct : Option String)
  | unknownStruct (name : String)
  | mismatch (path expected actual : String)
  | truncated (path : String) (needed remaining : Nat)
  | tooDeep (path : String) (limit : Nat)
  | tooLong (path : String) (declared limit : Nat)
  | malformed (path : String) (cause : MalformedCause)
  /-- A read of no bytes past the end. -/
  | pastEnd (path : String)
  deriving DecidableEq, Repr

namespace Fault

/-- Where a name was looked up. -/
def scopeText : Option String → String
  | none => "global scope"
  | some struct => "struct " ++ Text.quote struct

def message : Fault → String
  | disk fault => "I/O error: " ++ fault.message
  | json fault => "JSON error: " ++ fault.message
  | schema fault => fault.message
  | unknownType name struct => "Unknown type \"" ++ name ++ "\" in " ++ scopeText struct
  | unknownStruct name => "Unknown struct \"" ++ name ++ "\""
  | mismatch path expected actual =>
    "Validation failed at " ++ path ++ ": expected " ++ expected ++ ", got " ++ actual
  | truncated path needed remaining =>
    "Truncated input at " ++ path ++ ": needed " ++ Text.natText needed ++ " bytes, " ++
      Text.natText remaining ++ " remaining"
  | tooDeep path limit =>
    "Nesting deeper than " ++ Text.natText limit ++ " levels at " ++ path
  | tooLong path declared limit =>
    "Length " ++ Text.natText declared ++ " at " ++ path ++ " exceeds the limit of " ++
      Text.natText limit ++ " bytes"
  | malformed path cause => "Malformed data at " ++ path ++ ": " ++ cause.message
  | pastEnd path => "Read past the end at " ++ path

end Fault

end WireSchema
