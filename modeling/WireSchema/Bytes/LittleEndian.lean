import WireSchema.Number.Power

/-! Words as bytes, least significant byte first, and words read as two's complement. -/

namespace WireSchema.LittleEndian

/-- The low `width` bytes of `n`. -/
def encode : Nat → Nat → List UInt8
  | 0, _ => []
  | width + 1, n => UInt8.ofNat (n % 256) :: encode width (n / 256)

def decode : List UInt8 → Nat
  | [] => 0
  | byte :: rest => byte.toNat + 256 * decode rest

/-- A word of `width` bytes whose upper half stands for the negative numbers. -/
def signed (width word : Nat) : Int :=
  if word < pow2 (8 * width - 1) then word else word - pow2 (8 * width)

@[simp] theorem length_encode (width n : Nat) : (encode width n).length = width := by
  induction width generalizing n with
  | zero => rfl
  | succ width ih => simp [encode, ih]

end WireSchema.LittleEndian
