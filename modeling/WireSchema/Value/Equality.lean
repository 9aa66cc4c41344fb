import WireSchema.Value.Basic

/-! Equality of values. Two numbers are compared as numbers, an integer and a float as
doubles; all else has to be of one kind, item by item and member by member. -/

namespace WireSchema

mutual

def Value.equal : Value → Value → Bool
  | .null, .null => true
  | .bool a, .bool b => a == b
  | .int a, .int b => a == b
  | .float a, .float b => a.equal b
  | .int a, .float b => (Binary64.ofInt64 a).equal b
  | .float a, .int b => (Binary64.ofInt64 b).equal a
  | .string a, .string b => a == b
  | .array a, .array b => itemsEqual a b
  | .object a, .object b => membersEqual a b
  | _, _ => false

def itemsEqual : List Value → List Value → Bool
  | [], [] => true
  | a :: as, b :: bs => a.equal b && itemsEqual as bs
  | _, _ => false

def membersEqual {low low' : Option String} : Rows Value low → Rows Value low' → Bool
  | .nil, .nil => true
  | .cons k a as _, .cons l b bs _ => k == l && a.equal b && membersEqual as bs
  | _, _ => false

end

end WireSchema
