import WireSchema.Text.Position

/-! Why a JSON text is refused, and where. While reading, a place is kept as the number
of bytes that are left, so that a step needs to know only what follows it. -/

namespace WireSchema.Json

inductive Cause where
  | endInValue
  | endInList
  | endInObject
  | endInString
  | expectedValue
  | expectedIdent
  | expectedColon
  | expectedCommaOrBracket
  | expectedCommaOrBrace
  | trailingComma
  | trailingCharacters
  | keyNotString
  | tooDeep
  | controlCharacter
  | invalidEscape
  | loneSurrogate
  | cutSurrogatePair
  | invalidNumber
  | numberOutOfRange
  deriving DecidableEq, Repr

def Cause.message : Cause → String
  | .endInValue => "EOF while parsing a value"
  | .endInList => "EOF while parsing a list"
  | .endInObject => "EOF while parsing an object"
  | .endInString => "EOF while parsing a string"
  | .expectedValue => "expected value"
  | .expectedIdent => "expected ident"
  | .expectedColon => "expected `:`"
  | .expectedCommaOrBracket => "expected `,` or `]`"
  | .expectedCommaOrBrace => "expected `,` or `\x7d`"
  | .trailingComma => "trailing comma"
  | .trailingCharacters => "trailing characters"
  | .keyNotString => "key must be a string"
  | .tooDeep => "recursion limit exceeded"
  | .controlCharacter => "control character (\\u0000-\\u001F) found while parsing a string"
  | .invalidEscape => "invalid escape"
  | .loneSurrogate => "lone leading surrogate in hex escape"
  | .cutSurrogatePair => "unexpected end of hex escape"
  | .invalidNumber => "invalid number"
  | .numberOutOfRange => "number out of range"

/-- A cause, and how many bytes were left when it was noticed. -/
structure Failure where
  cause : Cause
  left : Nat
  deriving DecidableEq, Repr

/-- Reads from the front of a text, and gives back what follows. -/
abbrev Reader (α : Type) := List Char → Except Failure (α × List Char)

/-- Fails before what follows. -/
def failAt {α : Type} (cause : Cause) (rest : List Char) : Except Failure α :=
  .error ⟨cause, Utf8.size rest⟩

/-- Fails past the first byte of what follows, if there is one. -/
def failPast {α : Type} (cause : Cause) (rest : List Char) : Except Failure α :=
  .error ⟨cause, Utf8.size rest - 1⟩

/-- A cause with its place in the text, the column being the number of bytes read on the line. -/
structure Fault where
  cause : Cause
  position : Position
  deriving DecidableEq, Repr

def Failure.locate (failure : Failure) (text : List Char) : Fault :=
  ⟨failure.cause, .after ((Utf8.encode text).take (Utf8.size text - failure.left))⟩

def Fault.message (fault : Fault) : String :=
  fault.cause.message ++ " at line " ++ toString fault.position.line ++ " column " ++
    toString fault.position.column

end WireSchema.Json
