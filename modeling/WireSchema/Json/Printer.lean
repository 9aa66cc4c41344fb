import WireSchema.Number.Decimal
import WireSchema.Text.Quoted
import WireSchema.Value.Basic

/-! Values as compact JSON: no white space, the members of an object in the order of
their keys. What is not a finite number is null. -/

namespace WireSchema

namespace Json

def floatChars (x : Binary64) : List Char := if x.isFinite then x.chars else "null".toList

mutual

def chars : Value → List Char
  | .null => "null".toList
  | .bool true => "true".toList
  | .bool false => "false".toList
  | .int n => Text.intChars n.toInt
  | .float x => floatChars x
  | .string s => Text.quotedChars s.toList
  | .array [] => ['[', ']']
  | .array (item :: more) => '[' :: (chars item ++ laterItems more)
  | .object .nil => ['{', '}']
  | .object (.cons key value rest _) =>
    '{' :: (Text.quotedChars key.toList ++ ':' :: (chars value ++ laterMembers rest))

/-- The items after the first, each with its comma, and the closing bracket. -/
def laterItems : List Value → List Char
  | [] => [']']
  | item :: more => ',' :: (chars item ++ laterItems more)

/-- The members after the first, each with its comma, and the closing brace. -/
def laterMembers {low : Option String} : Rows Value low → List Char
  | .nil => ['}']
  | .cons key value rest _ =>
    ',' :: (Text.quotedChars key.toList ++ ':' :: (chars value ++ laterMembers rest))

end

end Json

def Value.toJson (v : Value) : String := String.ofList (Json.chars v)

end WireSchema
