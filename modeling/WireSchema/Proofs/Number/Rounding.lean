import Mathlib.Tactic.Ring
import Mathlib.Tactic.SplitIfs
import WireSchema.Number.Binary
import WireSchema.Proofs.Number.Power

/-! Numbers that have a pattern are rounded to it. Every single has the value of a double, so
a single that was widened is narrowed to itself. A single that is no number is made quiet by
narrowing, and stays what it is after that. -/

namespace WireSchema

theorem roundHalfEven_mul (n : Nat) {den : Nat} (hd : 0 < den) :
    roundHalfEven (n * den) den = n := by
  simp [roundHalfEven, Nat.mul_div_cancel _ hd, hd]

namespace Format

variable (f : Format) {p k m : Nat}

/-! ### Patterns and their values -/

theorem units_small (hp : p < 2 ^ f.fractionBits) : f.units p = p := by
  simp [units, pow2_eq, Nat.div_eq_of_lt hp, Nat.mod_eq_of_lt hp]

/-- A significand with its leading bit, moved up by `k` bits. -/
theorem units_large (hlow : 2 ^ f.fractionBits ≤ m) (hhigh : m < 2 ^ (f.fractionBits + 1)) :
    f.units (k * 2 ^ f.fractionBits + m) = m * 2 ^ k := by
  rw [Nat.pow_succ] at hhigh
  obtain ⟨fraction, rfl⟩ := Nat.exists_eq_add_of_le hlow
  have hfraction : fraction < 2 ^ f.fractionBits := by omega
  have hpattern : k * 2 ^ f.fractionBits + (2 ^ f.fractionBits + fraction) =
      fraction + (k + 1) * 2 ^ f.fractionBits := by ring
  have hpos : 0 < 2 ^ f.fractionBits := Nat.two_pow_pos _
  rw [hpattern]
  simp [units, pow2_eq, Nat.add_mul_div_right _ _ hpos, Nat.div_eq_of_lt hfraction,
    Nat.mod_eq_of_lt hfraction]

theorem exists_large (hp : 2 ^ f.fractionBits ≤ p) :
    ∃ k m, p = k * 2 ^ f.fractionBits + m ∧ 2 ^ f.fractionBits ≤ m ∧
      m < 2 ^ (f.fractionBits + 1) := by
  have hpos : 0 < 2 ^ f.fractionBits := Nat.two_pow_pos _
  have hdiv : 1 ≤ p / 2 ^ f.fractionBits := (Nat.one_le_div_iff hpos).2 hp
  have hmod := Nat.mod_lt p hpos
  refine ⟨p / 2 ^ f.fractionBits - 1, 2 ^ f.fractionBits + p % 2 ^ f.fractionBits, ?_, by omega,
    by rw [Nat.pow_succ]; omega⟩
  have hp := Nat.div_add_mod p (2 ^ f.fractionBits)
  obtain ⟨k, hk⟩ := Nat.exists_eq_add_of_le hdiv
  rw [hk] at hp ⊢
  rw [Nat.mul_comm, Nat.add_mul, Nat.one_mul] at hp
  rw [Nat.add_sub_cancel_left]
  omega

theorem log2_large (hlow : 2 ^ f.fractionBits ≤ m) (hhigh : m < 2 ^ (f.fractionBits + 1)) :
    (m * 2 ^ k).log2 = f.fractionBits + k := by
  have hk : 0 < 2 ^ k := Nat.two_pow_pos k
  have hm : 0 < m := Nat.lt_of_lt_of_le (Nat.two_pow_pos _) hlow
  rw [Nat.log2_eq_iff (Nat.mul_ne_zero (Nat.ne_of_gt hm) (Nat.ne_of_gt hk))]
  rw [Nat.pow_add, Nat.add_right_comm, Nat.pow_add]
  exact ⟨Nat.mul_le_mul_right _ hlow, Nat.mul_lt_mul_of_pos_right hhigh hk⟩

/-- The value of a pattern, over any denominator, is rounded to the pattern. -/
theorem round_units (hp : p ≤ f.infinity) {den : Nat} (hd : 0 < den) :
    f.round (f.units p * den) den = p := by
  by_cases hsmall : p < 2 ^ f.fractionBits
  · have hlog : p.log2 - f.fractionBits = 0 := by
      by_cases h0 : p = 0
      · simp [h0]
      · have h := (Nat.log2_lt h0).2 hsmall
        omega
    rw [units_small f hsmall, round]
    simp [Nat.mul_div_cancel _ hd, hlog, pow2_eq, roundHalfEven_mul _ hd, hp]
  · obtain ⟨k, m, rfl, hlow, hhigh⟩ := f.exists_large (Nat.not_lt.1 hsmall)
    have hden : 0 < den * 2 ^ k := Nat.mul_pos hd (Nat.two_pow_pos k)
    have hnum : m * 2 ^ k * den = m * (den * 2 ^ k) := by ring
    rw [units_large f hlow hhigh, round]
    simp only [Nat.mul_div_cancel _ hd, log2_large f hlow hhigh, Nat.add_sub_cancel_left, pow2_eq]
    rw [hnum, roundHalfEven_mul _ hden, Nat.min_eq_left hp]

/-- A number with few enough digits and enough zeros behind them has a pattern. -/
theorem exists_units {a s : Nat} (ha : a < 2 ^ (f.fractionBits + 1)) (hs : f.fractionBits ≤ s) :
    ∃ p < (s + 2) * 2 ^ f.fractionBits, f.units p = a * 2 ^ s := by
  have hpos : 0 < 2 ^ f.fractionBits := Nat.two_pow_pos _
  obtain rfl | ha0 := Nat.eq_zero_or_pos a
  · exact ⟨0, Nat.mul_pos (by omega) hpos, by rw [units_small f hpos, Nat.zero_mul]⟩
  · -- the leading bit is moved to its place, and the zeros that it takes are gone
    have hlog := (Nat.log2_eq_iff (Nat.ne_of_gt ha0)).1 rfl
    have hle : a.log2 ≤ f.fractionBits := Nat.le_of_lt_succ ((Nat.log2_lt (by omega)).2 ha)
    obtain ⟨up, hup⟩ := Nat.exists_eq_add_of_le hle
    obtain ⟨k, rfl⟩ := Nat.exists_eq_add_of_le (show up ≤ s by omega)
    have hlow : 2 ^ f.fractionBits ≤ a * 2 ^ up := by
      rw [hup, Nat.pow_add]
      exact Nat.mul_le_mul_right _ hlog.1
    have hhigh : a * 2 ^ up < 2 ^ (f.fractionBits + 1) := by
      rw [hup, Nat.add_right_comm, Nat.pow_add]
      exact Nat.mul_lt_mul_of_pos_right hlog.2 (Nat.two_pow_pos up)
    refine ⟨k * 2 ^ f.fractionBits + a * 2 ^ up, ?_, ?_⟩
    · rw [Nat.pow_succ] at hhigh
      have hk : k * 2 ^ f.fractionBits ≤ (up + k) * 2 ^ f.fractionBits :=
        Nat.mul_le_mul_right _ (by omega)
      rw [Nat.add_mul]
      omega
    · rw [units_large f hlow hhigh, Nat.pow_add]
      ring

end Format

/-! ### Singles as doubles -/

theorem single_infinity : Format.single.infinity = 255 * 2 ^ 23 := rfl

theorem double_infinity : Format.double.infinity = 2047 * 2 ^ 52 := rfl

/-- Every finite single has the value of a finite double. -/
theorem exists_double_units {p : Nat} (hp : p < Format.single.infinity) :
    ∃ q < Format.double.infinity,
      Format.double.units q = Format.single.units p * 2 ^ Binary32.unitShift := by
  have hshift : Binary32.unitShift = 925 := rfl
  have hsingle : Format.single.fractionBits = 23 := rfl
  have hdouble : Format.double.fractionBits = 52 := rfl
  have hdigits : ∃ a j, a < 2 ^ 24 ∧ j ≤ 253 ∧ Format.single.units p = a * 2 ^ j := by
    by_cases hsmall : p < 2 ^ 23
    · exact ⟨p, 0, by omega, by omega, by rw [Format.units_small _ hsmall]; omega⟩
    · obtain ⟨k, m, rfl, hlow, hhigh⟩ := Format.single.exists_large (Nat.not_lt.1 hsmall)
      rw [single_infinity] at hp
      rw [hsingle] at *
      exact ⟨m, k, hhigh, by omega, Format.single.units_large hlow hhigh⟩
  obtain ⟨a, j, ha, hj, hunits⟩ := hdigits
  have ha53 : a < 2 ^ (Format.double.fractionBits + 1) :=
    Nat.lt_of_lt_of_le ha (Nat.pow_le_pow_right (by omega) (by omega))
  obtain ⟨q, hq, hvalue⟩ := Format.double.exists_units ha53 (show _ ≤ j + 925 by omega)
  refine ⟨q, ?_, ?_⟩
  · rw [hdouble] at hq
    rw [double_infinity]
    exact Nat.lt_of_lt_of_le hq (Nat.mul_le_mul_right _ (by omega))
  · rw [hvalue, hunits, hshift, Nat.mul_assoc, ← Nat.pow_add]

namespace Binary64

theorem toNat_ofPattern {q : Nat} (negative : Bool) (hq : q < 2 ^ 63) :
    (ofPattern negative q).bits.toNat = (if negative then 2 ^ 63 else 0) + q := by
  have hlt : (if negative then 2 ^ 63 else 0) + q < 2 ^ 64 := by
    cases negative <;> simp <;> omega
  exact UInt64.toNat_ofNat_of_lt' hlt

theorem pattern_ofPattern {q : Nat} (negative : Bool) (hq : q < 2 ^ 63) :
    (ofPattern negative q).pattern = q := by
  rw [pattern, toNat_ofPattern negative hq, pow2_eq]
  cases negative <;> simp <;> omega

theorem negative_ofPattern {q : Nat} (negative : Bool) (hq : q < 2 ^ 63) :
    (ofPattern negative q).negative = negative := by
  rw [Binary64.negative, toNat_ofPattern negative hq, pow2_eq]
  cases negative with
  | false => simp; omega
  | true => simp

end Binary64

namespace Binary32

theorem toNat_ofPattern {p : Nat} (negative : Bool) (hp : p < 2 ^ 31) :
    (ofPattern negative p).bits.toNat = (if negative then 2 ^ 31 else 0) + p := by
  have hlt : (if negative then 2 ^ 31 else 0) + p < 2 ^ 32 := by
    cases negative <;> simp <;> omega
  exact UInt32.toNat_ofNat_of_lt' hlt

theorem pattern_ofPattern {p : Nat} (negative : Bool) (hp : p < 2 ^ 31) :
    (ofPattern negative p).pattern = p := by
  rw [pattern, toNat_ofPattern negative hp, pow2_eq]
  cases negative <;> simp <;> omega

theorem negative_ofPattern {p : Nat} (negative : Bool) (hp : p < 2 ^ 31) :
    (ofPattern negative p).negative = negative := by
  rw [Binary32.negative, toNat_ofPattern negative hp, pow2_eq]
  cases negative with
  | false => simp; omega
  | true => simp

/-- The patterns that narrowing gives: numbers, and of what is no number the quiet ones. -/
inductive Narrow : Nat → Prop
  | number {p : Nat} (h : p ≤ Format.single.infinity) : Narrow p
  | quiet {payload : Nat} (h : payload < 2 ^ 22) :
      Narrow (Format.single.infinity + 2 ^ 22 + payload)

theorem Narrow.lt {p : Nat} (h : Narrow p) : p < 2 ^ 31 := by
  cases h with
  | number h => rw [single_infinity] at h; omega
  | quiet h => rw [single_infinity]; omega

end Binary32

open Binary32

theorem Binary64.narrow_eq (x : Binary64) : ∃ p, Narrow p ∧ x.narrow = .ofPattern x.negative p := by
  unfold narrow
  split_ifs with hnan hfinite
  · exact ⟨_, .quiet (Nat.mod_lt _ (by decide)), rfl⟩
  · exact ⟨_, .number (Nat.min_le_right _ _), rfl⟩
  · exact ⟨_, .number (Nat.le_refl _), rfl⟩

theorem widen_finite {p : Nat} (hp : p < Format.single.infinity) (negative : Bool) :
    ∃ q < Format.double.infinity, Format.double.units q = Format.single.units p * 2 ^ unitShift ∧
      (Binary32.ofPattern negative p).widen = .ofPattern negative q := by
  obtain ⟨q, hq, hunits⟩ := exists_double_units hp
  have hround := Format.double.round_units (Nat.le_of_lt hq) Nat.one_pos
  have hlt : p < 2 ^ 31 := Narrow.lt (.number (Nat.le_of_lt hp))
  refine ⟨q, hq, hunits, ?_⟩
  rw [Nat.mul_one, hunits] at hround
  rw [Binary32.widen, isNaN, pattern_ofPattern negative hlt, negative_ofPattern negative hlt,
    if_neg (by simp; omega), if_pos hp, pow2_eq, hround]

/-- The payload of what is no number comes back from a single, and from a double. -/
theorem single_payload {payload : Nat} (h : payload < 2 ^ 22) :
    (Format.single.infinity + 2 ^ 22 + payload) % 2 ^ 23 % 2 ^ 22 = payload := by
  rw [single_infinity]
  omega

theorem double_payload {payload : Nat} (h : payload < 2 ^ 22) :
    Format.double.infinity + 2 ^ 51 + payload * 2 ^ 29 < 2 ^ 63 ∧
      (Format.double.infinity + 2 ^ 51 + payload * 2 ^ 29) % 2 ^ 52 / 2 ^ 29 % 2 ^ 22 =
        payload := by
  rw [double_infinity]
  omega

theorem quietNaN_pattern : Binary64.quietNaN.pattern = Format.double.infinity + 2 ^ 51 := by
  decide

/-- What is narrow is kept by widening it and narrowing it again. -/
theorem narrow_widen_ofPattern {p : Nat} (hp : Narrow p) (negative : Bool) :
    (Binary32.ofPattern negative p).widen.narrow = .ofPattern negative p := by
  have hlt := hp.lt
  cases hp with
  | number hle =>
    by_cases hfinite : p < Format.single.infinity
    · obtain ⟨q, hq, hunits, hwiden⟩ := widen_finite hfinite negative
      have hq63 : q < 2 ^ 63 := by rw [double_infinity] at hq; omega
      have hround := Format.single.round_units hle (Nat.two_pow_pos unitShift)
      rw [hwiden, Binary64.narrow, Binary64.isNaN, Binary64.isFinite,
        Binary64.pattern_ofPattern negative hq63, Binary64.negative_ofPattern negative hq63,
        if_neg (by simp; omega), if_pos (by simpa using hq), hunits, pow2_eq, hround]
    · obtain rfl : p = Format.single.infinity := by omega
      cases negative <;> rfl
  | @quiet payload h =>
    obtain ⟨hq63, hback⟩ := double_payload h
    have hpayload := single_payload h
    have hwiden : (Binary32.ofPattern negative (Format.single.infinity + 2 ^ 22 + payload)).widen =
        .ofPattern negative (Format.double.infinity + 2 ^ 51 + payload * 2 ^ 29) := by
      rw [Binary32.widen, isNaN, pattern_ofPattern negative hlt, negative_ofPattern negative hlt,
        if_pos (by simp; omega), quietNaN_pattern]
      simp only [pow2_eq, hpayload]
    rw [hwiden, Binary64.narrow, Binary64.isNaN, Binary64.pattern_ofPattern negative hq63,
      Binary64.negative_ofPattern negative hq63, if_pos (by simp; omega)]
    simp only [pow2_eq, hback]

/-- Narrowing gives nothing that it would change again. -/
theorem Binary64.narrow_widen_narrow (x : Binary64) : x.narrow.widen.narrow = x.narrow := by
  obtain ⟨p, hp, hnarrow⟩ := x.narrow_eq
  rw [hnarrow, narrow_widen_ofPattern hp]

end WireSchema
