import WireSchema.Text.Integer

/-! Integer types of fixed width, and inclusive bounds on integers. -/

namespace WireSchema

structure Bounds where
  min : Int64
  max : Int64
  deriving DecidableEq, Repr

namespace Bounds

def contains (b : Bounds) (n : Int64) : Bool := decide (b.min ≤ n) && decide (n ≤ b.max)

/-- Whether the bounds lie inside others. -/
def within (b outer : Bounds) : Bool := decide (outer.min ≤ b.min) && decide (b.max ≤ outer.max)

def text (b : Bounds) : String :=
  String.ofList ('[' :: (Text.intChars b.min.toInt ++ ',' :: (Text.intChars b.max.toInt ++ [']'])))

end Bounds

inductive IntKind where
  | int8
  | uint8
  | int16
  | uint16
  | int32
  | uint32
  deriving DecidableEq, Repr

namespace IntKind

def keyword : IntKind → String
  | int8 => "int8"
  | uint8 => "uint8"
  | int16 => "int16"
  | uint16 => "uint16"
  | int32 => "int32"
  | uint32 => "uint32"

/-- The kind of a keyword; without a number it has 32 bits. -/
def ofKeyword? (keyword : String) : Option IntKind :=
  match keyword with
  | "int8" => some int8
  | "uint8" => some uint8
  | "int16" => some int16
  | "uint16" => some uint16
  | "int32" | "int" => some int32
  | "uint32" => some uint32
  | _ => none

/-- Bytes on the wire. -/
def width : IntKind → Nat
  | int8 | uint8 => 1
  | int16 | uint16 => 2
  | int32 | uint32 => 4

def bits (k : IntKind) : Nat := 8 * k.width

def signed : IntKind → Bool
  | int8 | int16 | int32 => true
  | uint8 | uint16 | uint32 => false

/-- The integers that have a representation in the width. -/
def bounds (k : IntKind) : Bounds :=
  if k.signed then ⟨Int64.ofInt (-pow2 (k.bits - 1)), Int64.ofInt (pow2 (k.bits - 1) - 1)⟩
  else ⟨0, Int64.ofInt (pow2 k.bits - 1)⟩

end IntKind

end WireSchema
