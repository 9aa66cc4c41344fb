import WireSchema.Schema.Definition
import WireSchema.Schema.Fault
import WireSchema.Text.Blank
import WireSchema.Text.Identifier
import WireSchema.Text.Split

/-! Declarations: the parts of a body that semicolons separate, each read by itself
without the blanks around it. -/

namespace WireSchema.Schema

/-! ### Parts -/

/-- The parts that are not blank, trimmed, with the offsets where they start. -/
def trimmedParts : (offset : Nat) → List (List Char) → List (Nat × List Char)
  | _, [] => []
  | offset, part :: more =>
    let later := trimmedParts (offset + Utf8.size part + 1) more
    match Text.trim part with
    | [] => later
    | text => (offset + (Utf8.size part - Utf8.size (Text.skipBlanks part)), text) :: later

/-- The declarations of a body that starts at an offset. -/
def declarations (offset : Nat) (body : List Char) : List (Nat × List Char) :=
  trimmedParts offset (Text.split ';' body)

/-! ### Entries of an enum -/

/-- An optional minus and digits of any script. -/
def isLiteral (text : List Char) : Bool :=
  let digits := match text with
    | '-' :: digits => digits
    | digits => digits
  !digits.isEmpty && digits.all Text.isAnyDigit

/-- A name, and the literal that an equals sign gives it. -/
def entry? (text : List Char) : Option (List Char × Option (List Char)) := do
  let (name, rest) ← Text.identifier? text
  match Text.skipBlanks rest with
  | [] => some (name, none)
  | '=' :: rest =>
    let literal := Text.skipBlanks rest
    if isLiteral literal then some (name, some literal) else none
  | _ => none

/-! ### Types -/

/-- Brackets at the front, with what is in them and up to the first that closes, and what
follows. -/
def brackets? : List Char → Option (List Char × List Char)
  | '[' :: rest =>
    let inside := rest.takeWhile (· != ']')
    match rest.drop inside.length with
    | ']' :: after => some ('[' :: (inside ++ [']']), after)
    | _ => none
  | _ => none

/-- The bounds in brackets: two integers of 64 bits with a comma between. -/
def bounds? (brackets : List Char) : Option Bounds :=
  let inside := brackets.drop 1 |>.dropLast
  let low := inside.takeWhile (· != ',')
  match inside.drop low.length with
  | ',' :: high =>
    if ',' ∈ high then none
    else do
      let min ← Text.int64? (Text.trim low)
      let max ← Text.int64? (Text.trim high)
      some ⟨min, max⟩
  | _ => none

/-- A type that is no integer, or the name of one that the schema defines. -/
def plainType (keyword : String) : FieldType :=
  match keyword with
  | "bool" => .bool
  | "string" => .string
  | "float" | "float64" => .float64
  | "float32" => .float32
  | "any" => .any
  | name => .named name

/-- A type from its keyword and brackets. The owner is named where the brackets are at fault. -/
def fieldType (keyword : String) (brackets : Option (List Char)) (owner : String) :
    Except Fault FieldType :=
  match IntKind.ofKeyword? keyword, brackets with
  | some kind, none => .ok (.int kind none)
  | some kind, some brackets =>
    match bounds? brackets with
    | some bounds => .ok (.int kind (some bounds))
    | none => .error (.badBounds owner (.malformed (String.ofList brackets)))
  | none, none => .ok (plainType keyword)
  | none, some _ => .error (.badBounds owner (.notInteger keyword))

/-- The parts of a text that is a type and nothing else. -/
def typeToken? (text : List Char) : Option (List Char × Option (List Char)) := do
  let (keyword, rest) ← Text.identifier? (Text.skipBlanks text)
  match Text.skipBlanks rest with
  | [] => some (keyword, none)
  | rest => do
    let (brackets, rest) ← brackets? rest
    match Text.skipBlanks rest with
    | [] => some (keyword, some brackets)
    | _ => none

/-! ### Fields of a struct -/

structure Declaration where
  type : List Char
  brackets : Option (List Char)
  name : List Char
  default : Option (List Char)
  deriving DecidableEq, Repr

/-- What separates a type from a name: brackets, with or without blanks around them, or blanks. -/
def separator? (text : List Char) : Option (Option (List Char) × List Char) :=
  match Text.skipBlanks text with
  | '[' :: inside => do
    let (brackets, rest) ← brackets? ('[' :: inside)
    some (some brackets, Text.skipBlanks rest)
  | rest => if rest.length < text.length then some (none, rest) else none

/-- A type, a name, and after a colon the default literal, which may be empty here. -/
def declaration? (text : List Char) : Option Declaration := do
  let (type, rest) ← Text.identifier? text
  let (brackets, rest) ← separator? rest
  let (name, rest) ← Text.identifier? rest
  match Text.skipBlanks rest with
  | [] => some ⟨type, brackets, name, none⟩
  | ':' :: rest => some ⟨type, brackets, name, some (Text.trim rest)⟩
  | _ => none

/-- A declaration of one word says nothing and is passed over. -/
def isOneWord (text : List Char) : Bool := !text.any Text.isBlank

end WireSchema.Schema
