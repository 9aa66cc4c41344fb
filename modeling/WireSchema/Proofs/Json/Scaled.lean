import WireSchema.Json.Number
import WireSchema.Proofs.Number.Shortest

/-! Significands and powers of ten, as the reader multiplies them. A double that has the value of
a significand and one that has the value of a power of ten give the double nearest to the
number that is written, since only their product or quotient is rounded. -/

namespace WireSchema

open Decimal

namespace Format

variable (f : Format)

theorem round_le (num den : Nat) : f.round num den ≤ f.infinity := Nat.min_le_right _ _

end Format

/-- A number with few enough digits before its zeros has a double. -/
theorem ofNat_exact {n a k : Nat} (hn : n = a * 2 ^ k) (ha : a < 2 ^ 53) (hk : k ≤ 900) :
    Format.double.ofNat n < Format.double.infinity ∧
      Format.double.units (Format.double.ofNat n) = n * pow2 Format.double.scale := by
  have hscale : Format.double.scale = 1074 := rfl
  have hbits : Format.double.fractionBits = 52 := rfl
  obtain ⟨q, hq, hunits⟩ := Format.double.exists_units ha
    (show Format.double.fractionBits ≤ k + Format.double.scale by omega)
  have hvalue : Format.double.units q = n * pow2 Format.double.scale := by
    rw [hunits, hn, pow2_eq, Nat.pow_add, Nat.mul_assoc]
  have hlt : q < Format.double.infinity := by
    rw [hbits] at hq
    rw [double_infinity]
    exact Nat.lt_of_lt_of_le hq (Nat.mul_le_mul_right _ (by omega))
  have hround := Format.double.round_units (Nat.le_of_lt hlt) Nat.one_pos
  rw [Nat.mul_one, hvalue] at hround
  rw [Format.ofNat, hround]
  exact ⟨hlt, hvalue⟩

theorem units_ofNat {n a k : Nat} (hn : n = a * 2 ^ k) (ha : a < 2 ^ 53) (hk : k ≤ 900) :
    Format.double.units (Format.double.ofNat n) = n * pow2 Format.double.scale :=
  (ofNat_exact hn ha hk).2

namespace Json

theorem units_powerOfTen {k : Nat} (hk : k ≤ 22) :
    Format.double.units (powerOfTen k) = pow10 k * pow2 Format.double.scale := by
  have hfive : 5 ^ k < 2 ^ 53 :=
    Nat.lt_of_le_of_lt (Nat.pow_le_pow_right (by decide) hk) (by decide)
  refine units_ofNat (k := k) ?_ hfive (by omega)
  rw [pow10_eq, ← Nat.mul_pow]

theorem scaleDown_le : ∀ (steps : Nat) {pattern : Nat} (k : Nat),
    pattern ≤ Format.double.infinity → scaleDown steps pattern k ≤ Format.double.infinity
  | 0, _, _, h => h
  | steps + 1, pattern, k, _ => by
    rw [scaleDown]
    split_ifs
    · exact Format.round_le _ _ _
    · exact Nat.zero_le _
    · exact scaleDown_le steps _ (Format.round_le _ _ _)

theorem scaled_le {significand pattern : Nat} {exponent : Int}
    (h : scaled significand exponent = some pattern) : pattern ≤ Format.double.infinity := by
  simp only [scaled] at h
  split_ifs at h with hnonneg hpower hproduct hzero <;> obtain rfl := Option.some.inj h
  · exact Nat.le_of_lt hproduct
  · exact Nat.zero_le _
  · exact scaleDown_le _ _ (Format.round_le _ _ _)

theorem mul_powerOfTen {n k : Nat} (hn : n < 2 ^ 53) (hk : k ≤ 22) :
    Format.double.mul (Format.double.ofNat n) (powerOfTen k) = Decimal.nearest ⟨n, k⟩ := by
  rw [Format.mul, units_ofNat (Nat.mul_one n).symm hn (Nat.zero_le 900), units_powerOfTen hk,
    Decimal.nearest]
  refine Format.round_congr _ (pow2_pos _) (pow10_pos _) ?_
  simp only [Int.toNat_natCast, Int.toNat_neg_natCast, pow10_eq, Nat.pow_zero]
  ring

theorem div_powerOfTen {n k : Nat} (hn : n < 2 ^ 53) (hk : k ≤ 22) :
    Format.double.div (Format.double.ofNat n) (powerOfTen k) = Decimal.nearest ⟨n, -k⟩ := by
  have hpower : 0 < pow10 k * pow2 Format.double.scale :=
    Nat.mul_pos (pow10_pos k) (pow2_pos _)
  rw [Format.div, units_ofNat (Nat.mul_one n).symm hn (Nat.zero_le 900), units_powerOfTen hk,
    Decimal.nearest]
  refine Format.round_congr _ hpower (pow10_pos _) ?_
  simp only [Int.neg_neg, Int.toNat_natCast, Int.toNat_neg_natCast, pow10_eq, Nat.pow_zero]
  ring

/-- A significand of 53 bits and a power of ten up to the twenty-second are read as the nearest
double. -/
theorem scaled_exact {d : Decimal} (hd : d.digits < 2 ^ 53) (he : d.exponent.natAbs ≤ 22)
    (hfinite : d.nearest < Format.double.infinity) :
    scaled d.digits d.exponent = some d.nearest := by
  obtain ⟨n, e⟩ := d
  dsimp only at hd he
  have htop : topPower = 308 := rfl
  by_cases hnonneg : 0 ≤ e
  · obtain ⟨k, rfl⟩ := Int.eq_ofNat_of_zero_le hnonneg
    dsimp only at *
    rw [scaled, if_pos hnonneg, if_pos (by omega)]
    simp only [Int.toNat_natCast, mul_powerOfTen hd (by omega : k ≤ 22), if_pos hfinite]
  · obtain ⟨k, rfl⟩ : ∃ k : Nat, e = -k := ⟨e.natAbs, by omega⟩
    have hk : k ≤ 22 := by omega
    rw [scaled, if_neg hnonneg]
    simp only [Int.neg_neg, Int.toNat_natCast, scaleDown, if_pos (by omega : k ≤ topPower),
      div_powerOfTen hd hk]

end Json

end WireSchema
