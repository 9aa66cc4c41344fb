import WireSchema.Schema.IntKind
import WireSchema.Text.Position
import WireSchema.Text.Quoted

/-! Why a schema is refused: something in its text at a place, or the bounds of a field. -/

namespace WireSchema.Schema

inductive SyntaxCause where
  | unclosedStruct (struct : String)
  | structTwice (struct : String)
  | enumTwice (enum : String)
  | localEnumTwice (enum struct : String)
  | strayBrace (brace : Char) (struct : String)
  | malformedField (declaration : String)
  | fieldTwice (field struct : String)
  | emptyDefault (field : String)
  | malformedEntry (entry enum : String)
  | invalidInteger (literal : String)
  | codeOverflow (member enum : String)
  | unexpectedText (word : String)
  | malformedToken (token : String)
  deriving DecidableEq, Repr

open Text (quote) in
def SyntaxCause.message : SyntaxCause → String
  | .unclosedStruct s => "Unmatched \"\x7b\" in struct " ++ quote s
  | .structTwice s => "The struct " ++ quote s ++ " is defined twice"
  | .enumTwice e => "The enum " ++ quote e ++ " is defined twice"
  | .localEnumTwice e s => "The enum " ++ quote e ++ " is defined twice in struct " ++ quote s
  | .strayBrace b s => "Unexpected " ++ quote (String.singleton b) ++ " in struct " ++ quote s
  | .malformedField d => "Malformed field declaration " ++ quote d
  | .fieldTwice f s => "The field " ++ quote f ++ " is defined twice in struct " ++ quote s
  | .emptyDefault f => "Expected a default literal for field " ++ quote f
  | .malformedEntry e name => "Malformed entry " ++ quote e ++ " in enum " ++ quote name
  | .invalidInteger n => "Invalid integer " ++ quote n
  | .codeOverflow m name => "Value of " ++ quote m ++ " overflows in enum " ++ quote name
  | .unexpectedText w => "Unexpected text " ++ quote w
  | .malformedToken t => "Malformed type token " ++ quote t

inductive BoundsCause where
  /-- Bounds on a type that is no integer. -/
  | notInteger (keyword : String)
  | malformed (brackets : String)
  | inverted (bounds : Bounds)
  | exceeding (bounds : Bounds) (kind : IntKind)
  deriving DecidableEq, Repr

def BoundsCause.message : BoundsCause → String
  | .notInteger keyword =>
    "range bounds are only allowed on integer types, not " ++ Text.quote keyword
  | .malformed brackets =>
    "expected integer bounds [min,max] but found " ++ Text.quote brackets
  | .inverted b =>
    "min " ++ Text.intText b.min ++ " is greater than max " ++ Text.intText b.max
  | .exceeding b kind =>
    "declared range " ++ b.text ++ " exceeds the bounds " ++ kind.bounds.text ++ " of " ++
      Text.quote kind.keyword

inductive Fault where
  | badText (cause : SyntaxCause) (position : Position)
  | badBounds (owner : String) (cause : BoundsCause)
  deriving DecidableEq, Repr

def Fault.message : Fault → String
  | .badText cause p =>
    "Syntax error at line " ++ Text.natText p.line ++ ", column " ++ Text.natText p.column ++
      ": " ++ cause.message
  | .badBounds owner cause => "Range error for field " ++ owner ++ ": " ++ cause.message

end WireSchema.Schema
