import WireSchema.Table
import WireSchema.Number.Binary

/-! Dynamic values: what is encoded, and what decoding gives back. Integers and floats
stay apart, and the members of an object are a table. -/

namespace WireSchema

inductive Value where
  | null
  | bool (b : Bool)
  | int (n : Int64)
  | float (x : Binary64)
  | string (s : String)
  | array (items : List Value)
  | object (members : Rows Value none)

namespace Value

instance : Inhabited Value := ⟨null⟩

/-- The name of the kind, as error messages call it. -/
def kindName : Value → String
  | null => "null"
  | bool _ => "bool"
  | int _ => "integer"
  | float _ => "number"
  | string _ => "string"
  | array _ => "array"
  | object _ => "object"

def isNull : Value → Bool
  | null => true
  | _ => false

def isNumber : Value → Bool
  | int _ | float _ => true
  | _ => false

def bool? : Value → Option Bool
  | bool b => some b
  | _ => none

def string? : Value → Option String
  | string s => some s
  | _ => none

/-- The integer that a number is exactly. -/
def int? : Value → Option Int64
  | int n => some n
  | float x => x.toInt64?
  | _ => none

/-- A number as a double, an integer rounded to the nearest. -/
def float? : Value → Option Binary64
  | int n => some (.ofInt64 n)
  | float x => some x
  | _ => none

def array? : Value → Option (List Value)
  | array items => some items
  | _ => none

def object? : Value → Option (Table Value)
  | object members => some members
  | _ => none

/-- The member of an object. -/
def get? (v : Value) (key : String) : Option Value := v.object?.bind (·.find? key)

/-- Gives an object a member, and leaves every other kind alone. -/
def set (v : Value) (key : String) (member : Value) : Value :=
  match v with
  | object members => object (Table.insert members key member)
  | other => other

/-- Takes a member out of an object, and leaves every other kind alone. -/
def remove (v : Value) (key : String) : Value :=
  match v with
  | object members => object (members.erase key)
  | other => other

end Value

end WireSchema
