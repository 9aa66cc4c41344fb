import WireSchema.Json.Printer
import WireSchema.Typing.Resolve

/-! Which values a type accepts. A struct accepts any object here: its members are looked
at when the object is encoded. -/

namespace WireSchema

/-- A value as error messages call it: an array or object by its kind, all else as JSON, but a
float that is not finite by its name. -/
def Value.describe : Value → String
  | array _ => "array"
  | object _ => "object"
  | float x =>
    if x.isFinite then (float x).toJson
    else if x.isNaN then "NaN"
    else if x.negative then "-inf"
    else "inf"
  | v => v.toJson

namespace ResolvedType

def accepts : ResolvedType → Value → Bool
  | bool, v => v.bool?.isSome
  | string, v => v.string?.isSome
  | float32, v | float64, v => v.isNumber
  | any, _ => true
  | int kind bounds, v => v.int?.any (effective kind bounds).contains
  | enum e, .string name => (e.code? name).isSome
  | enum e, v => v.int?.any fun code => (e.name? code).isSome
  | struct _, v => v.object?.isSome

/-- The fault at a path where a value of another type stands. -/
def refuse {α : Type} (type : ResolvedType) (v : Value) (path : String) : Except Fault α :=
  .error (.mismatch path type.describe v.describe)

def validate (type : ResolvedType) (v : Value) (path : String) : Except Fault Unit :=
  if type.accepts v then .ok () else type.refuse v path

end ResolvedType

end WireSchema
