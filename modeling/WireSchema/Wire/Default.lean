import WireSchema.Json.Parser
import WireSchema.Typing.Resolve

/-! The value of a default literal. For a string it is the literal itself, or what is in its
quotation marks if it is a JSON string. For other types it is read as JSON, and what
is no JSON counts as text, so that a bare word can name a member of an enum. -/

namespace WireSchema.ResolvedType

def liftDefault (type : ResolvedType) (raw : String) : Value :=
  match type, Value.ofJson raw with
  | .string, .ok (.string s) => .string s
  | .string, _ => .string raw
  | _, .ok v => v
  | _, .error _ => .string raw

end WireSchema.ResolvedType
