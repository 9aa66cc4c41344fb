import WireSchema.Fault
import WireSchema.Schema.Document

/-! What a declared type stands for. A name is an enum of the struct in which it is used,
else an enum of the document, else a struct. -/

namespace WireSchema

inductive ResolvedType where
  | bool
  | string
  | float32
  | float64
  | any
  | int (kind : IntKind) (bounds : Option Bounds)
  | enum (e : EnumDef)
  | struct (s : StructDef)
  deriving DecidableEq

namespace ResolvedType

/-- The bounds that hold: those declared, or those of the kind. -/
def effective (kind : IntKind) (bounds : Option Bounds) : Bounds := bounds.getD kind.bounds

/-- The type as error messages call it. -/
def describe : ResolvedType → String
  | bool => "bool"
  | string => "string"
  | float32 => "float32"
  | float64 => "float64"
  | any => "any"
  | int kind bounds => kind.keyword ++ " in range " ++ (effective kind bounds).text
  | enum e => "member of enum " ++ e.name
  | struct s => "struct " ++ s.name

end ResolvedType

namespace Document

/-- What a name stands for in a struct, or in the document alone. -/
def named? (d : Document) (scope : Option StructDef) (name : String) : Option ResolvedType :=
  match scope.bind (·.enums.find? name), d.enum? name, d.struct? name with
  | some e, _, _ => some (.enum e)
  | none, some e, _ => some (.enum e)
  | none, none, some s => some (.struct s)
  | none, none, none => none

def resolve (d : Document) (scope : Option StructDef) : FieldType → Except Fault ResolvedType
  | .bool => .ok .bool
  | .string => .ok .string
  | .float32 => .ok .float32
  | .float64 => .ok .float64
  | .any => .ok .any
  | .int kind bounds => .ok (.int kind bounds)
  | .named name =>
    match d.named? scope name with
    | some type => .ok type
    | none => .error (.unknownType name (scope.map (·.name)))

/-- The bounds of a type that stands alone, checked where it has some. -/
def checkToken (token : String) : FieldType → Except Schema.Fault Unit
  | .int kind (some bounds) =>
    Schema.checkBounds (String.ofList (Text.trim token.toList)) kind bounds
  | _ => .ok ()

/-- What the text of a type stands for. -/
def resolveToken (d : Document) (scope : Option StructDef) (token : String) :
    Except Fault ResolvedType := do
  let type ← (FieldType.ofToken token).mapError Fault.schema
  (checkToken token type).mapError Fault.schema
  d.resolve scope type

end Document

end WireSchema
