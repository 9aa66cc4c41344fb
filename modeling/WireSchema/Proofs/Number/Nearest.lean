import WireSchema.Proofs.Number.Rounding

/-! What is rounded to a pattern. The quotients that a pattern is nearest to reach half way to the
patterns next to it, and the ends belong to them when the pattern is even. At a power of two
the step below is half of the step above, and a quotient just below it is rounded up. -/

namespace WireSchema

theorem roundHalfEven_eq {num den m : Nat} (hd : 0 < den)
    (hlow : 2 * (m * den) ≤ 2 * num + den) (hhigh : 2 * num ≤ 2 * (m * den) + den)
    (hodd : m % 2 = 1 → 2 * (m * den) < 2 * num + den ∧ 2 * num < 2 * (m * den) + den) :
    roundHalfEven num den = m := by
  have hnum := Nat.div_add_mod num den
  have hrest := Nat.mod_lt num hd
  rw [Nat.mul_comm] at hnum
  unfold roundHalfEven
  generalize num / den = q at *
  generalize num % den = r at *
  subst hnum
  have hm : m = q ∨ m = q + 1 := by
    have hdown : q ≤ m := by
      by_contra hlt
      have hle := Nat.mul_le_mul_right den (Nat.lt_of_not_le hlt)
      rw [Nat.succ_mul] at hle
      omega
    have hup : m ≤ q + 1 := by
      by_contra hlt
      have hle := Nat.mul_le_mul_right den (Nat.lt_of_not_le hlt)
      rw [Nat.succ_mul, Nat.succ_mul] at hle
      omega
    omega
  dsimp only
  obtain rfl | rfl := hm
  · split_ifs <;> omega
  · rw [Nat.succ_mul q] at hlow hhigh hodd
    split_ifs <;> omega

theorem roundHalfEven_mul_mul {c : Nat} (hc : 0 < c) (num den : Nat) :
    roundHalfEven (num * c) (den * c) = roundHalfEven num den := by
  have htwice : 2 * (num % den * c) = 2 * (num % den) * c := (Nat.mul_assoc ..).symm
  simp only [roundHalfEven, Nat.mul_div_mul_right _ _ hc, Nat.mul_mod_mul_right, htwice,
    Nat.mul_lt_mul_right hc]

namespace Format

variable (f : Format) {p k m num den : Nat}

/-! ### Patterns and steps -/

/-- A significand moved up by `k` bits, which may be the first one of the next size. -/
theorem units_eq (hm : m ≤ 2 ^ (f.fractionBits + 1)) (hk : k = 0 ∨ 2 ^ f.fractionBits ≤ m) :
    f.units (k * 2 ^ f.fractionBits + m) = m * 2 ^ k := by
  by_cases hlow : 2 ^ f.fractionBits ≤ m
  · obtain hlt | rfl := Nat.lt_or_eq_of_le hm
    · exact f.units_large hlow hlt
    · have hnext : k * 2 ^ f.fractionBits + 2 ^ (f.fractionBits + 1) =
          (k + 1) * 2 ^ f.fractionBits + 2 ^ f.fractionBits := by ring
      rw [hnext, f.units_large (Nat.le_refl _) (Nat.pow_lt_pow_succ Nat.one_lt_two)]
      ring
  · obtain rfl : k = 0 := hk.resolve_right hlow
    rw [Nat.zero_mul, Nat.zero_add, f.units_small (Nat.lt_of_not_le hlow), Nat.pow_zero,
      Nat.mul_one]

/-- A pattern as a significand and its place. -/
theorem exists_significand (p : Nat) : ∃ k m, p = k * 2 ^ f.fractionBits + m ∧
    m < 2 ^ (f.fractionBits + 1) ∧ (k = 0 ∨ 2 ^ f.fractionBits ≤ m) := by
  by_cases hsmall : p < 2 ^ f.fractionBits
  · exact ⟨0, p, by simp, Nat.lt_trans hsmall (Nat.pow_lt_pow_succ Nat.one_lt_two), .inl rfl⟩
  · obtain ⟨k, m, hp, hlow, hhigh⟩ := f.exists_large (Nat.not_lt.1 hsmall)
    exact ⟨k, m, hp, hhigh, .inr hlow⟩

/-- Half way from the pattern before to the pattern, in half units. -/
def lowEnd (p : Nat) : Nat := f.units (p - 1) + f.units p

/-- Half way from the pattern to the next, in half units. -/
def highEnd (p : Nat) : Nat := f.units p + f.units (p + 1)

/-- A quotient of units is nearest to a pattern, or as near as to another where the pattern is
even. -/
structure Near (p num den : Nat) : Prop where
  low : f.lowEnd p * den ≤ 2 * num
  high : 2 * num ≤ f.highEnd p * den
  odd : p % 2 = 1 → f.lowEnd p * den < 2 * num ∧ 2 * num < f.highEnd p * den

/-- Half a step below the pattern, where the step below is the step above. -/
theorem lowEnd_mul (hpos : 0 < m) (hm : m ≤ 2 ^ (f.fractionBits + 1))
    (hk : k = 0 ∨ 2 ^ f.fractionBits < m) (den : Nat) :
    f.lowEnd (k * 2 ^ f.fractionBits + m) * den + den * 2 ^ k = 2 * (m * (den * 2 ^ k)) := by
  obtain ⟨m, rfl⟩ := Nat.exists_eq_succ_of_ne_zero (Nat.ne_of_gt hpos)
  have hbefore := f.units_eq (Nat.le_of_succ_le hm) (hk.imp_right Nat.le_of_lt_succ)
  have hhere := f.units_eq hm (hk.imp_right Nat.le_of_lt)
  rw [lowEnd, hhere, Nat.add_succ_sub_one, hbefore, Nat.succ_eq_add_one]
  ring

/-- Half a step above the pattern. -/
theorem highEnd_mul (hm : m < 2 ^ (f.fractionBits + 1)) (hk : k = 0 ∨ 2 ^ f.fractionBits ≤ m)
    (den : Nat) :
    f.highEnd (k * 2 ^ f.fractionBits + m) * den = 2 * (m * (den * 2 ^ k)) + den * 2 ^ k := by
  have hbehind := f.units_eq (show m + 1 ≤ _ from hm) (hk.imp_right Nat.le_succ_of_le)
  rw [highEnd, f.units_eq (Nat.le_of_lt hm) hk, Nat.add_assoc, hbehind]
  ring

/-! ### Rounding -/

theorem round_mul_mul {c : Nat} (hc : 0 < c) (num den : Nat) :
    f.round (num * c) (den * c) = f.round num den := by
  simp only [round, Nat.mul_div_mul_right _ _ hc, Nat.mul_right_comm den c,
    roundHalfEven_mul_mul hc]

/-- Only the value of a quotient matters. -/
theorem round_congr {num' den' : Nat} (hd : 0 < den) (hd' : 0 < den')
    (h : num * den' = num' * den) : f.round num den = f.round num' den' := by
  rw [← f.round_mul_mul hd', ← f.round_mul_mul hd num' den', h, Nat.mul_comm den]

/-- The bits of a quotient say how far it is moved down. -/
theorem log2_sub_eq (hd : 0 < den) (hlow : k = 0 ∨ 2 ^ f.fractionBits * (den * 2 ^ k) ≤ num)
    (hhigh : num < 2 * (2 ^ f.fractionBits * (den * 2 ^ k))) :
    (num / den).log2 - f.fractionBits = k := by
  have hpower : 2 ^ f.fractionBits * (den * 2 ^ k) = 2 ^ (f.fractionBits + k) * den := by
    rw [Nat.pow_add]
    ring
  rw [hpower] at hlow hhigh
  rw [← Nat.mul_assoc, ← Nat.pow_succ'] at hhigh
  have hlt : num / den < 2 ^ (f.fractionBits + k + 1) := (Nat.div_lt_iff_lt_mul hd).2 hhigh
  have hle : (num / den).log2 ≤ f.fractionBits + k := by
    by_cases h0 : num / den = 0
    · simp [h0]
    · exact Nat.le_of_lt_succ ((Nat.log2_lt h0).2 hlt)
  obtain rfl | hlow := hlow
  · omega
  · have hge := (Nat.le_div_iff_mul_le hd).2 hlow
    have hne : num / den ≠ 0 := Nat.ne_of_gt (Nat.lt_of_lt_of_le (Nat.two_pow_pos _) hge)
    rw [(Nat.log2_eq_iff hne).2 ⟨hge, hlt⟩, Nat.add_sub_cancel_left]

/-- A quotient with as many bits as a significand in its place is rounded to the significand that
is nearest to it. -/
theorem round_eq (hd : 0 < den) (hinf : k * 2 ^ f.fractionBits + m ≤ f.infinity) {step : Nat}
    (hs : den * 2 ^ k = step) (hlow : k = 0 ∨ 2 ^ f.fractionBits * step ≤ num)
    (hhigh : num < 2 * (2 ^ f.fractionBits * step)) (hbelow : 2 * (m * step) ≤ 2 * num + step)
    (habove : 2 * num ≤ 2 * (m * step) + step)
    (hodd : m % 2 = 1 → 2 * (m * step) < 2 * num + step ∧ 2 * num < 2 * (m * step) + step) :
    f.round num den = k * 2 ^ f.fractionBits + m := by
  subst hs
  rw [round]
  simp only [pow2_eq, f.log2_sub_eq hd hlow hhigh]
  rw [roundHalfEven_eq (Nat.mul_pos hd (Nat.two_pow_pos k)) hbelow habove hodd,
    Nat.min_eq_left hinf]

/-- Above the least number of a size the steps on both sides are the same. -/
theorem round_inside (hd : 0 < den) (hm : m < 2 ^ (f.fractionBits + 1)) (hpos : 0 < m)
    (hk : k = 0 ∨ 2 ^ f.fractionBits < m) (hinf : k * 2 ^ f.fractionBits + m ≤ f.infinity)
    (hparity : (k * 2 ^ f.fractionBits + m) % 2 = m % 2)
    (h : f.Near (k * 2 ^ f.fractionBits + m) num den) :
    f.round num den = k * 2 ^ f.fractionBits + m := by
  obtain ⟨hlow, hhigh, hodd⟩ := h
  have hbelow := f.lowEnd_mul hpos (Nat.le_of_lt hm) hk den
  have habove := f.highEnd_mul hm (hk.imp_right Nat.le_of_lt) den
  have hstep : 0 < den * 2 ^ k := Nat.mul_pos hd (Nat.two_pow_pos k)
  have hbound := Nat.mul_le_mul_right (den * 2 ^ k) hm
  rw [Nat.succ_mul, Nat.pow_succ', Nat.mul_assoc] at hbound
  refine f.round_eq hd hinf rfl (hk.imp_right fun hk => ?_) (by omega) (by omega) (by omega)
    (by omega)
  have hleast := Nat.mul_le_mul_right (den * 2 ^ k) hk
  rw [Nat.succ_mul] at hleast
  omega

/-- At the least number of a size, a quotient below it has a smaller size and is rounded up. -/
theorem round_least (heven : 2 ^ f.fractionBits % 2 = 0) (hd : 0 < den)
    (hinf : (k + 1) * 2 ^ f.fractionBits + 2 ^ f.fractionBits ≤ f.infinity)
    (h : f.Near ((k + 1) * 2 ^ f.fractionBits + 2 ^ f.fractionBits) num den) :
    f.round num den = (k + 1) * 2 ^ f.fractionBits + 2 ^ f.fractionBits := by
  obtain ⟨hlow, hhigh, -⟩ := h
  have hsame : (k + 1) * 2 ^ f.fractionBits + 2 ^ f.fractionBits =
      k * 2 ^ f.fractionBits + 2 ^ (f.fractionBits + 1) := by ring
  have habove := f.highEnd_mul (k := k + 1) (Nat.pow_lt_pow_succ Nat.one_lt_two)
    (.inr (Nat.le_refl _)) den
  have hbelow := f.lowEnd_mul (k := k) (Nat.two_pow_pos _) (Nat.le_refl _)
    (.inr (Nat.pow_lt_pow_succ Nat.one_lt_two)) den
  rw [← hsame] at hbelow
  have hstep : den * 2 ^ (k + 1) = 2 * (den * 2 ^ k) := by ring
  have hmove : 2 ^ f.fractionBits * (2 * (den * 2 ^ k)) =
      2 * (2 ^ f.fractionBits * (den * 2 ^ k)) := Nat.mul_left_comm _ _ _
  have hpos : 0 < den * 2 ^ k := Nat.mul_pos hd (Nat.two_pow_pos k)
  have hsize := Nat.mul_le_mul_right (den * 2 ^ k) (Nat.one_le_two_pow (n := f.fractionBits))
  rw [Nat.pow_succ', Nat.mul_assoc] at hbelow
  rw [hstep, hmove] at habove
  by_cases hnum : 2 * (2 ^ f.fractionBits * (den * 2 ^ k)) ≤ num
  · refine f.round_eq hd hinf hstep (.inr ?_) ?_ ?_ ?_ ?_ <;> rw [hmove] <;> omega
  · rw [hsame] at hinf ⊢
    refine f.round_eq hd hinf rfl (.inr (by omega)) (by omega) ?_ ?_ ?_ <;>
      rw [Nat.pow_succ', Nat.mul_assoc] <;> omega

/-- What is nearest to a pattern is rounded to it. -/
theorem round_of_near (hf : 0 < f.fractionBits) (hp : 0 < p) (hp' : p < f.infinity) (hd : 0 < den)
    (h : f.Near p num den) : f.round num den = p := by
  obtain ⟨k, m, rfl, hm, hk⟩ := f.exists_significand p
  have heven : 2 ^ f.fractionBits % 2 = 0 := by
    obtain ⟨bits, hbits⟩ := Nat.exists_eq_succ_of_ne_zero (Nat.ne_of_gt hf)
    rw [hbits, Nat.pow_succ, Nat.mul_mod_left]
  by_cases hinside : k = 0 ∨ 2 ^ f.fractionBits < m
  · have hpos : 0 < m := by
      obtain rfl | hlt := hinside
      · simpa using hp
      · exact Nat.zero_lt_of_lt hlt
    refine f.round_inside hd hm hpos hinside (Nat.le_of_lt hp') ?_ h
    rw [Nat.add_mod, Nat.mul_mod, heven]
    simp
  · rw [not_or] at hinside
    obtain ⟨k, rfl⟩ := Nat.exists_eq_succ_of_ne_zero hinside.1
    obtain rfl : m = 2 ^ f.fractionBits :=
      Nat.le_antisymm (Nat.not_lt.1 hinside.2) (hk.resolve_left hinside.1)
    exact f.round_least heven hd (Nat.le_of_lt hp') h

end Format

end WireSchema
