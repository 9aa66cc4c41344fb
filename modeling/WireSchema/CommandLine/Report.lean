import WireSchema.CommandLine.Run
import WireSchema.Text.Hidden

/-! What is said of a fault at the end of a command: its name and its parts, texts in
quotation marks. -/

namespace WireSchema.Report

/-- Hexadecimal in lower case without zeros in front. -/
def hexChars (n : Nat) : List Char := Nat.toDigits 16 n

def escape (c : Char) : List Char :=
  if c = '"' then ['\\', '"']
  else if c = '\\' then ['\\', '\\']
  else if c = '\n' then ['\\', 'n']
  else if c = '\r' then ['\\', 'r']
  else if c = '\t' then ['\\', 't']
  else if c = '\x00' then ['\\', '0']
  else if Text.isHidden c then
    ['\\', 'u', '{'] ++ hexChars c.toNat ++ ['}']
  else [c]

def quote (text : String) : String :=
  String.ofList ('"' :: (text.toList.flatMap escape ++ ['"']))

/-- A name with named parts. -/
def record (name : String) (parts : List (String × String)) : String :=
  let inside := ", ".intercalate (parts.map fun part => part.1 ++ ": " ++ part.2)
  name ++ " \x7b " ++ inside ++ " \x7d"

/-- A name with parts that have none. -/
def tuple (name : String) (parts : List String) : String :=
  name ++ "(" ++ ", ".intercalate parts ++ ")"

/-- An error of the program's own library, with its kind. -/
def libraryError (kind : String) (f : DiskFault) : String :=
  record "Error" [("kind", kind), ("message", quote f.message)]

def disk : DiskFault → String
  | .system code kind text =>
    record "Os" [("code", Text.natText code), ("kind", kind), ("message", quote text)]
  | .notText => libraryError "InvalidData" .notText
  | .nothingTaken => libraryError "WriteZero" .nothingTaken
  | .outOfMemory => tuple "Kind" ["OutOfMemory"]

def json (fault : Json.Fault) : String :=
  tuple "Error" [quote fault.cause.message, "line: " ++ Text.natText fault.position.line,
    "column: " ++ Text.natText fault.position.column]

def schema : Schema.Fault → String
  | .badText cause p =>
    record "SchemaSyntax" [("msg", quote cause.message), ("line", Text.natText p.line),
      ("column", Text.natText p.column)]
  | .badBounds owner cause =>
    record "SchemaRange" [("field", quote owner), ("msg", quote cause.message)]

def fault : Fault → String
  | .disk f => tuple "Io" [disk f]
  | .json f => tuple "Json" [json f]
  | .schema f => schema f
  | .unknownType name struct =>
    record "UnknownType" [("name", quote name), ("scope", quote (Fault.scopeText struct))]
  | .unknownStruct name => tuple "UnknownStruct" [quote name]
  | .mismatch path expected actual =>
    record "Validation" [("path", quote path), ("expected", quote expected),
      ("actual", quote actual)]
  | .truncated path needed remaining =>
    record "TruncatedInput" [("path", quote path), ("needed", Text.natText needed),
      ("remaining", Text.natText remaining)]
  | .tooDeep path limit =>
    record "DepthLimitExceeded" [("path", quote path), ("limit", Text.natText limit)]
  | .tooLong path declared limit =>
    record "LengthLimitExceeded" [("path", quote path), ("declared", Text.natText declared),
      ("limit", Text.natText limit)]
  | .malformed path cause =>
    record "Malformed" [("path", quote path), ("msg", quote cause.message)]
  | .pastEnd path => record "PastEnd" [("path", quote path)]

/-- The line on the error output. -/
def complaint (f : Fault) : String := "Error: " ++ fault f ++ "\n"

end WireSchema.Report
