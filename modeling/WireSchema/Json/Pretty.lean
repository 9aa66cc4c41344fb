import WireSchema.Json.Printer
import WireSchema.Schema.Definition

/-! Indented JSON, two spaces a level, one item or member on a line. Members stand in the
order given: a value's by key, a definition's in the order in which its parts are
declared. -/

namespace WireSchema.Json

inductive Tree where
  /-- A null, a truth value, a number or a string, as it is written. -/
  | leaf (text : List Char)
  | array (items : List Tree)
  | object (members : List (String × Tree))

namespace Tree

def null : Tree := leaf "null".toList

def string (s : String) : Tree := leaf (Text.quotedChars s.toList)

def int (n : Int64) : Tree := leaf (Text.intChars n.toInt)

/-- A line feed and the spaces of a level. -/
def newLine (level : Nat) : List Char := '\n' :: List.replicate (2 * level) ' '

mutual

def pretty (level : Nat) : Tree → List Char
  | leaf text => text
  | array [] => ['[', ']']
  | array (item :: more) =>
    '[' :: (newLine (level + 1) ++ pretty (level + 1) item ++ laterItems level more)
  | object [] => ['{', '}']
  | object ((key, item) :: more) =>
    '{' :: (newLine (level + 1) ++ Text.quotedChars key.toList ++ [':', ' '] ++
      pretty (level + 1) item ++ laterMembers level more)

def laterItems (level : Nat) : List Tree → List Char
  | [] => newLine level ++ [']']
  | item :: more =>
    ',' :: (newLine (level + 1) ++ pretty (level + 1) item ++ laterItems level more)

def laterMembers (level : Nat) : List (String × Tree) → List Char
  | [] => newLine level ++ ['}']
  | (key, item) :: more =>
    ',' :: (newLine (level + 1) ++ Text.quotedChars key.toList ++ [':', ' '] ++
      pretty (level + 1) item ++ laterMembers level more)

end

/-! ### Values -/

mutual

def ofValue : Value → Tree
  | .array items => array (ofItems items)
  | .object members => object (ofMembers members)
  | .null => null
  | .bool b => leaf (chars (.bool b))
  | .int n => int n
  | .float x => leaf (floatChars x)
  | .string s => string s

def ofItems : List Value → List Tree
  | [] => []
  | v :: more => ofValue v :: ofItems more

def ofMembers {low : Option String} : Rows Value low → List (String × Tree)
  | .nil => []
  | .cons key v rest _ => (key, ofValue v) :: ofMembers rest

end

/-! ### Definitions -/

def ofTable {α : Type} (f : α → Tree) (t : Table α) : Tree :=
  object (t.toList.map fun row => (row.1, f row.2))

def ofBounds (b : Bounds) : Tree := object [("min", int b.min), ("max", int b.max)]

/-- A type by its kind, with what the kind has besides. -/
def ofFieldType : FieldType → Tree
  | .bool => object [("kind", string "bool")]
  | .string => object [("kind", string "utf8_string")]
  | .float32 => object [("kind", string "float32")]
  | .float64 => object [("kind", string "float64")]
  | .any => object [("kind", string "any_json")]
  | .int kind bounds =>
    object [("kind", string "sized_integer"), ("int", string kind.keyword),
      ("range", (bounds.map ofBounds).getD null)]
  | .named name => object [("kind", string "named"), ("name", string name)]

def ofField (f : Field) : Tree :=
  object [("name", string f.name), ("type", ofFieldType f.type),
    ("default", (f.default.map string).getD null)]

def ofMember (m : Member) : Tree := object [("name", string m.name), ("value", int m.code)]

def ofEnum (e : EnumDef) : Tree :=
  object [("name", string e.name), ("members", array (e.members.map ofMember))]

def ofStruct (s : StructDef) : Tree :=
  object [("name", string s.name), ("fields", array (s.fields.map ofField)),
    ("enums", ofTable ofEnum s.enums)]

def ofDocument (d : Document) : Tree :=
  object [("structs", ofTable ofStruct d.structs), ("enums", ofTable ofEnum d.enums)]

end Tree

end WireSchema.Json
