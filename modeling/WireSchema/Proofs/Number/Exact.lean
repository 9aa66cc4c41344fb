import Mathlib.Algebra.Field.Rat
import WireSchema.Proofs.Number.Rounding
import WireSchema.Value.Basic

/-! The numbers that values are exactly. The bits of a finite double are a sign, an exponent and
a fraction, and denote a fraction of a power of two. The double counts as an integer exactly if
that number is an integer of 64 bits. -/

namespace WireSchema

namespace Binary64

/-- The eleven bits behind the sign. -/
def exponent (x : Binary64) : Nat := x.bits.toNat / 2 ^ 52 % 2 ^ 11

/-- The lower 52 bits. -/
def fraction (x : Binary64) : Nat := x.bits.toNat % 2 ^ 52

/-- The size of the number that the bits denote. A leading one stands before the fraction, but not
at the least exponent. -/
def magnitude (x : Binary64) : ℚ :=
  if x.exponent = 0 then x.fraction * 2 ^ (-1074 : ℤ)
  else (2 ^ 52 + x.fraction) * 2 ^ ((x.exponent : ℤ) - 1075)

/-- The number that the bits denote, unless the exponent is the one kept for what is not finite. -/
def rational? (x : Binary64) : Option ℚ :=
  if x.exponent = 2 ^ 11 - 1 then none
  else some (if x.negative then -x.magnitude else x.magnitude)

theorem exponent_eq (x : Binary64) : x.exponent = x.pattern / 2 ^ 52 := by
  rw [exponent, pattern, pow2_eq]
  omega

theorem fraction_eq (x : Binary64) : x.fraction = x.pattern % 2 ^ 52 := by
  rw [fraction, pattern, pow2_eq]
  omega

theorem isFinite_iff (x : Binary64) : x.isFinite ↔ x.exponent ≠ 2 ^ 11 - 1 := by
  have hlt : x.pattern < 2 ^ 63 := Nat.mod_lt _ (by decide)
  rw [isFinite, decide_eq_true_eq, double_infinity, exponent_eq]
  omega

/-- A unit is the least power of two that a double has. -/
theorem magnitude_eq (x : Binary64) :
    x.magnitude = Format.double.units x.pattern / (pow2 Format.double.scale : ℕ) := by
  have hscale : ((pow2 Format.double.scale : ℕ) : ℚ) = 2 ^ (1074 : ℤ) := by
    rw [pow2_eq, Nat.cast_pow]
    rfl
  have hunits : Format.double.units x.pattern =
      if x.exponent = 0 then x.fraction
      else (2 ^ 52 + x.fraction) * 2 ^ (x.exponent - 1) := by
    rw [exponent_eq, fraction_eq]
    rfl
  rw [magnitude, hunits, hscale]
  split_ifs with hzero
  · rw [zpow_neg, div_eq_mul_inv]
  · obtain ⟨e, he⟩ := Nat.exists_eq_succ_of_ne_zero hzero
    have hpower : ((e.succ : ℕ) : ℤ) - 1075 = e - 1074 := by
      rw [Nat.cast_succ]
      ring
    rw [he, hpower, zpow_sub₀ two_ne_zero, zpow_natCast, Nat.succ_sub_one, Nat.cast_mul,
      Nat.cast_add, Nat.cast_pow, Nat.cast_pow, Nat.cast_ofNat, mul_div_assoc]

theorem rational?_eq (x : Binary64) :
    x.rational? =
      if x.isFinite then some ((x.signedUnits : ℚ) / (pow2 Format.double.scale : ℕ)) else none := by
  rw [rational?, signedUnits, magnitude_eq]
  by_cases hfinite : x.isFinite
  · rw [if_pos hfinite, if_neg (x.isFinite_iff.1 hfinite)]
    split_ifs
    · rw [Int.cast_neg, Int.cast_natCast, neg_div]
    · rw [Int.cast_natCast]
  · rw [if_neg hfinite, if_pos (not_not.1 fun h => hfinite (x.isFinite_iff.2 h))]

/-- A finite double is the integer that its units make up. -/
theorem rational?_eq_intCast {x : Binary64} {n : ℤ} :
    x.rational? = some (n : ℚ) ↔
      x.isFinite ∧ x.signedUnits = n * (pow2 Format.double.scale : ℕ) := by
  have hunit : ((pow2 Format.double.scale : ℕ) : ℚ) ≠ 0 :=
    Nat.cast_ne_zero.2 (Nat.ne_of_gt (pow2_pos _))
  rw [rational?_eq]
  generalize pow2 Format.double.scale = unit at hunit
  split_ifs with hfinite
  · rw [Option.some.injEq, div_eq_iff hunit, and_iff_right hfinite]
    norm_cast
  · exact iff_of_false nofun fun h => hfinite h.1

/-- A double counts as an integer of 64 bits exactly if it denotes it. -/
theorem toInt64?_eq_some {x : Binary64} {n : Int64} :
    x.toInt64? = some n ↔ x.rational? = some (n.toInt : ℚ) := by
  have hpos : (0 : ℤ) < (pow2 Format.double.scale : ℕ) := Int.natCast_pos.2 (pow2_pos _)
  rw [rational?_eq_intCast, toInt64?]
  generalize ((pow2 Format.double.scale : ℕ) : ℤ) = unit at hpos
  split_ifs with h
  · obtain ⟨hfinite, hwhole, hlow, hhigh⟩ := h
    have hint : (Int64.ofInt (x.signedUnits / unit)).toInt = x.signedUnits / unit :=
      Int64.toInt_ofInt_of_le hlow hhigh
    have hunits := Int.mul_ediv_cancel' (Int.dvd_of_emod_eq_zero hwhole)
    rw [Option.some.injEq, ← Int64.toInt_inj, hint, mul_comm n.toInt, and_iff_right hfinite]
    constructor
    · intro hn
      rw [← hn, hunits]
    · intro hn
      rw [hn, Int.mul_ediv_cancel_left _ (ne_of_gt hpos)]
  · refine iff_of_false nofun fun ⟨hfinite, hn⟩ => h ⟨hfinite, ?_⟩
    rw [hn, Int.mul_ediv_cancel _ (ne_of_gt hpos), Int.mul_emod_left]
    exact ⟨rfl, n.le_toInt, n.toInt_lt⟩

end Binary64

/-- The number that a value is, if it is one that is finite. -/
def Value.rational? : Value → Option ℚ
  | .int n => some n.toInt
  | .float x => x.rational?
  | _ => none

theorem Value.int?_eq_some {v : Value} {n : Int64} :
    v.int? = some n ↔ v.rational? = some (n.toInt : ℚ) := by
  cases v with
  | int m =>
    rw [int?, rational?, Option.some.injEq, Option.some.injEq, Int.cast_inj, Int64.toInt_inj]
  | float x => exact Binary64.toInt64?_eq_some
  | _ => exact iff_of_false (fun h => by cases h) (fun h => by cases h)

end WireSchema
