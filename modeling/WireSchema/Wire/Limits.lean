/-! Bounds on what is encoded and decoded. -/

namespace WireSchema

structure Limits where
  /-- Structs below the outermost one, one in another. -/
  maxDepth : UInt64 := 64
  /-- Bytes of a text, of a JSON text or of a nested struct. -/
  maxLength : UInt64 := 16777216
  deriving DecidableEq, Repr

instance : Inhabited Limits := ⟨{}⟩

/-- How many structs may be entered one in another, the outermost included. -/
def Limits.levels (l : Limits) : Nat := l.maxDepth.toNat + 1

end WireSchema
