import WireSchema.Schema.IntKind
import WireSchema.Table

/-! What a schema defines. A field's type names an enum or a struct without saying which;
the name is looked up when a value of the field is at hand, so that structs may refer
to later ones and to themselves. The order of a struct's fields is their order on the
wire. -/

namespace WireSchema

/-- A type as declared. -/
inductive FieldType where
  | bool
  | string
  | float32
  | float64
  | any
  | int (kind : IntKind) (bounds : Option Bounds)
  | named (name : String)
  deriving DecidableEq, Repr

/-- The type as it may be written in a schema. -/
def FieldType.text : FieldType → String
  | bool => "bool"
  | string => "string"
  | float32 => "float32"
  | float64 => "float64"
  | any => "any"
  | int kind none => kind.keyword
  | int kind (some bounds) => kind.keyword ++ bounds.text
  | named name => name

structure Field where
  name : String
  type : FieldType
  /-- The literal as it is written. -/
  default : Option String
  deriving DecidableEq, Repr

structure Member where
  name : String
  code : Int64
  deriving DecidableEq, Repr

structure EnumDef where
  name : String
  members : List Member
  deriving DecidableEq, Repr

namespace EnumDef

/-- The code of a name; of several members with the name the last counts. -/
def code? (e : EnumDef) (name : String) : Option Int64 :=
  (e.members.reverse.find? fun m => m.name == name).map (·.code)

/-- The name of a code; of several members with the code the last counts. -/
def name? (e : EnumDef) (code : Int64) : Option String :=
  (e.members.reverse.find? fun m => m.code == code).map (·.name)

end EnumDef

structure StructDef where
  name : String
  fields : List Field
  /-- Enums that are known inside the struct only, before those of the document. -/
  enums : Table EnumDef
  deriving DecidableEq

def StructDef.field? (s : StructDef) (name : String) : Option Field :=
  s.fields.find? fun f => f.name == name

structure Document where
  structs : Table StructDef
  enums : Table EnumDef
  deriving DecidableEq

namespace Document

def struct? (d : Document) (name : String) : Option StructDef := d.structs.find? name

def enum? (d : Document) (name : String) : Option EnumDef := d.enums.find? name

end Document

end WireSchema
