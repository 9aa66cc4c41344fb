import Mathlib.Algebra.Group.Nat.Defs
import WireSchema.Bytes.LittleEndian

/-! The bytes of a word hold what is left of a number when it is cut to their width. -/

namespace WireSchema.LittleEndian

theorem decode_encode (width n : Nat) : decode (encode width n) = n % 256 ^ width := by
  induction width generalizing n with
  | zero => simp [encode, decode, Nat.mod_one]
  | succ width ih =>
    have h : n % 256 % 2 ^ 8 = n % 256 := Nat.mod_eq_of_lt (Nat.mod_lt n (by decide))
    rw [encode, decode, ih, UInt8.toNat_ofNat', h, Nat.pow_succ', Nat.mod_mul]

/-- What lies above the width is not written. -/
theorem encode_mod (width n : Nat) : encode width (n % 256 ^ width) = encode width n := by
  induction width generalizing n with
  | zero => rfl
  | succ width ih =>
    have hlow : n % (256 * 256 ^ width) % 256 = n % 256 := Nat.mod_mul_right_mod _ _ _
    rw [encode, encode, Nat.pow_succ', hlow, Nat.mod_mul_right_div_self, ih]

theorem decode_lt (bytes : List UInt8) : decode bytes < 256 ^ bytes.length := by
  induction bytes with
  | nil => simp [decode]
  | cons byte rest ih =>
    have hb : byte.toNat < 256 := byte.toNat_lt
    simp only [decode, List.length_cons, Nat.pow_succ]
    omega

end WireSchema.LittleEndian
