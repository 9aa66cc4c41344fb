import WireSchema.Number.Power

/-! Base-128 numbers, least significant group first, the high bit of a byte saying
that another follows. A number of 64 bits takes at most ten bytes, and the tenth
carries a single bit. Longer spellings of a small number are read but never
written. -/

namespace WireSchema.Varint

/-- The longest spelling of a 64-bit number. -/
def maxLength : Nat := 10

def encode (n : Nat) : List UInt8 :=
  if n < 128 then [UInt8.ofNat n] else UInt8.ofNat (n % 128 + 128) :: encode (n / 128)
termination_by n
decreasing_by omega

/-- Bytes of `encode n`, from the number of its bits. -/
def length (n : Nat) : Nat := n.log2 / 7 + 1

inductive Fault where
  /-- The bytes end before the number does. -/
  | truncated
  /-- The number does not fit in 64 bits. -/
  | overflow
  deriving DecidableEq, Repr

/-- Reads with room for `room` more bytes, `scale` being the weight of the next group and
`sum` what the earlier ones add up to. The number of bytes taken comes with either outcome. -/
def readGroups : Nat → Nat → Nat → List UInt8 → Except Fault Nat × Nat
  | 0, _, _, _ => (.error .overflow, 0)
  | _ + 1, _, _, [] => (.error .truncated, 0)
  | room + 1, scale, sum, byte :: rest =>
    let total := sum + byte.toNat % 128 * scale
    if pow2 64 ≤ total then (.error .overflow, 1)
    else if byte.toNat < 128 then (.ok total, 1)
    else
      let (outcome, taken) := readGroups room (scale * 128) total rest
      (outcome, taken + 1)

/-- The number at the front, with the bytes taken: those of the number, or on a fault all that
there are up to ten. -/
def read (bytes : List UInt8) : Except Fault Nat × Nat := readGroups maxLength 1 0 bytes

end WireSchema.Varint
