import Mathlib.Algebra.Group.Nat.Defs
import WireSchema.Number.Power

/-! Powers of two and of ten are those of the natural numbers. -/

namespace WireSchema

theorem pow2_eq (n : Nat) : pow2 n = 2 ^ n := rfl

theorem pow10_eq (n : Nat) : pow10 n = 10 ^ n := rfl

theorem pow2_pos (n : Nat) : 0 < pow2 n := Nat.two_pow_pos n

theorem pow10_pos (n : Nat) : 0 < pow10 n := Nat.pow_pos (by decide)

end WireSchema
