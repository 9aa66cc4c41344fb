import WireSchema.Number.Decimal
import WireSchema.Proofs.Number.Nearest

/-! The shortest decimal of a double. The grid that it is taken from has a multiple that the
double is nearest to, and the grid before it has none, so that its digits fit in 64 bits. -/

namespace WireSchema

namespace Format

variable (f : Format) {p : Nat}

/-- A pattern is less than so many steps to the next one. -/
theorem exists_step (p : Nat) : ∃ step, 0 < step ∧ f.units (p + 1) = f.units p + step ∧
    f.units p < 2 ^ (f.fractionBits + 1) * step := by
  obtain ⟨k, m, rfl, hm, hk⟩ := f.exists_significand p
  have hpos := Nat.two_pow_pos k
  refine ⟨2 ^ k, hpos, ?_, ?_⟩
  · rw [Nat.add_assoc, f.units_eq hm (hk.imp_right Nat.le_succ_of_le),
      f.units_eq (Nat.le_of_lt hm) hk, Nat.succ_mul]
  · rw [f.units_eq (Nat.le_of_lt hm) hk]
    exact Nat.mul_lt_mul_of_pos_right hm hpos

theorem lowEnd_lt (hp : 0 < p) : f.lowEnd p < 2 * f.units p := by
  obtain ⟨before, rfl⟩ := Nat.exists_eq_succ_of_ne_zero (Nat.ne_of_gt hp)
  obtain ⟨step, hpos, hnext, -⟩ := f.exists_step before
  rw [lowEnd, Nat.succ_sub_one, Nat.succ_eq_add_one, hnext]
  omega

theorem lowEnd_pos (hp : 0 < p) : 0 < f.lowEnd p := by
  obtain ⟨before, rfl⟩ := Nat.exists_eq_succ_of_ne_zero (Nat.ne_of_gt hp)
  obtain ⟨step, hpos, hnext, -⟩ := f.exists_step before
  rw [lowEnd, Nat.succ_eq_add_one, hnext]
  omega

theorem lt_highEnd : 2 * f.units p < f.highEnd p := by
  obtain ⟨step, hpos, hnext, -⟩ := f.exists_step p
  rw [highEnd, hnext]
  omega

end Format

namespace Decimal

/-- The double nearest to a decimal. -/
def nearest (d : Decimal) : Nat :=
  Format.double.round (d.digits * pow10 d.exponent.toNat * pow2 Format.double.scale)
    (pow10 (-d.exponent).toNat)

variable {p digits step : Nat} {d : Decimal}

theorem coarsestStep_eq : coarsestStep = 2 * (pow10 topExponent * pow2 Format.double.scale) := by
  rw [coarsestStep, pow2_eq, pow2_eq, Nat.pow_succ]
  ring

theorem coarsestStep_pos : 0 < coarsestStep := by
  exact Nat.mul_pos (pow10_pos _) (pow2_pos _)

/-! ### One grid -/

theorem readsBack_iff {power : Nat} : readsBack p digits power ↔
    Format.double.Near p (digits * (pow10 topExponent * pow2 Format.double.scale)) power := by
  have hpoint : digits * coarsestStep =
      2 * (digits * (pow10 topExponent * pow2 Format.double.scale)) := by
    rw [coarsestStep_eq]
    ring
  simp only [readsBack, hpoint]
  generalize digits * (pow10 topExponent * pow2 Format.double.scale) = point
  split_ifs with heven
  · rw [Bool.and_eq_true, decide_eq_true_eq, decide_eq_true_eq]
    exact ⟨fun h => ⟨h.1, h.2, fun hodd => by omega⟩, fun h => ⟨h.low, h.high⟩⟩
  · rw [Bool.and_eq_true, decide_eq_true_eq, decide_eq_true_eq]
    exact ⟨fun h => ⟨Nat.le_of_lt h.1, Nat.le_of_lt h.2, fun _ => h⟩, fun h => h.odd (by omega)⟩

/-- What lies between the ends reads back, whether or not they do. -/
theorem readsBack_of_between {power : Nat} (hlow : Format.double.lowEnd p * power <
    digits * coarsestStep) (hhigh : digits * coarsestStep < Format.double.highEnd p * power) :
    readsBack p digits power := by
  rw [Format.lowEnd] at hlow
  rw [Format.highEnd] at hhigh
  simp only [readsBack]
  split_ifs
  · simp [Nat.le_of_lt hlow, Nat.le_of_lt hhigh]
  · simp [hlow, hhigh]

theorem roundHalfEven_near (num den : Nat) :
    roundHalfEven num den = num / den ∨ roundHalfEven num den = num / den + 1 := by
  simp only [roundHalfEven]
  split_ifs <;> omega

theorem onGrid?_eq_some (h : onGrid? p step = some d) :
    d.exponent = (topExponent : Int) - step ∧ readsBack p d.digits (pow10 step) ∧
      d.digits ≤ 2 * Format.double.units p * pow10 step / coarsestStep + 1 := by
  have hnear := roundHalfEven_near (2 * Format.double.units p * pow10 step) coarsestStep
  simp only [onGrid?] at h
  generalize 2 * Format.double.units p * pow10 step / coarsestStep = below at *
  split at h
  · next hbelow habove =>
    obtain rfl := Option.some.inj h
    obtain hnear | hnear := hnear <;> rw [hnear]
    · exact ⟨rfl, hbelow, Nat.le_succ _⟩
    · exact ⟨rfl, habove, Nat.le_refl _⟩
  · next hbelow _ =>
    obtain rfl := Option.some.inj h
    exact ⟨rfl, hbelow, Nat.le_succ _⟩
  · next _ habove =>
    obtain rfl := Option.some.inj h
    exact ⟨rfl, habove, Nat.le_refl _⟩
  · exact nomatch h

/-- A grid without a multiple that reads back has a step from one end to the other. -/
theorem onGrid?_eq_none (hp : 0 < p) (h : onGrid? p step = none) :
    Format.double.highEnd p * pow10 step ≤
      Format.double.lowEnd p * pow10 step + coarsestStep := by
  have hlow := Nat.mul_lt_mul_of_pos_right (Format.double.lowEnd_lt hp) (pow10_pos step)
  have hhigh := Nat.mul_lt_mul_of_pos_right (Format.double.lt_highEnd (p := p)) (pow10_pos step)
  have hfloor := Nat.div_mul_le_self (2 * Format.double.units p * pow10 step) coarsestStep
  have hceil := Nat.lt_mul_of_div_lt (Nat.lt_succ_self _) coarsestStep_pos
    (a := 2 * Format.double.units p * pow10 step)
  simp only [onGrid?] at h
  generalize 2 * Format.double.units p * pow10 step = exact at *
  split at h
  case h_4 hbelow habove =>
    have hbelow : exact / coarsestStep * coarsestStep ≤ Format.double.lowEnd p * pow10 step := by
      by_contra hlt
      have hread := readsBack_of_between (Nat.not_le.1 hlt) (Nat.lt_of_le_of_lt hfloor hhigh)
      simp [hread] at hbelow
    have habove : Format.double.highEnd p * pow10 step ≤
        (exact / coarsestStep + 1) * coarsestStep := by
      by_contra hlt
      have hread : readsBack p (exact / coarsestStep + 1) (pow10 step) :=
        readsBack_of_between (Nat.lt_trans hlow hceil) (Nat.not_le.1 hlt)
      simp [hread] at habove
    rw [Nat.succ_mul] at habove
    omega
  all_goals exact nomatch h

/-! ### All grids -/

/-- The factor is no more than the logarithm of two. -/
theorem pow10_le_pow2 (bits : Nat) : pow10 (bits * 30102 / 100000) ≤ 2 ^ bits := by
  have hratio : 10 ^ 59 ≤ 2 ^ 196 := by decide
  have hpowers : bits * 30102 / 100000 * 196 ≤ 59 * bits := by omega
  rw [pow10_eq, ← Nat.pow_le_pow_iff_left (show 196 ≠ 0 by decide)]
  calc (10 ^ (bits * 30102 / 100000)) ^ 196 = 10 ^ (bits * 30102 / 100000 * 196) :=
        (Nat.pow_mul ..).symm
    _ ≤ 10 ^ (59 * bits) := Nat.pow_le_pow_right (by decide) hpowers
    _ = (10 ^ 59) ^ bits := Nat.pow_mul ..
    _ ≤ (2 ^ 196) ^ bits := Nat.pow_le_pow_left hratio bits
    _ = (2 ^ bits) ^ 196 := by rw [← Nat.pow_mul, Nat.mul_comm, Nat.pow_mul]

theorem log2_coarsestStep : coarsestStep.log2 = 2098 := by decide +kernel

theorem log2_div_le (a b : Nat) : (a / b).log2 ≤ a.log2 := by
  by_cases hzero : a / b = 0
  · simp [hzero]
  · exact Nat.le_of_lt_succ ((Nat.log2_lt hzero).2
      (Nat.lt_of_le_of_lt (Nat.div_le_self a b) Nat.lt_log2_self))

theorem firstStep_lt (p : Nat) : firstStep p + 1 < gridCount := by
  have hlog := log2_div_le coarsestStep (4 * Format.double.units p)
  rw [log2_coarsestStep] at hlog
  rw [firstStep, gridCount]
  omega

theorem units_le_coarsestStep (hp : p < Format.double.infinity) :
    Format.double.units p ≤ coarsestStep := by
  obtain ⟨k, m, rfl, hm, hk⟩ := Format.double.exists_significand p
  have hbits : Format.double.fractionBits = 52 := rfl
  rw [Format.units_eq _ (Nat.le_of_lt hm) hk]
  rw [hbits] at hm hk hp
  rw [double_infinity] at hp
  by_contra hlt
  have hpower : coarsestStep < 2 ^ (53 + k) :=
    calc coarsestStep < m * 2 ^ k := Nat.not_le.1 hlt
      _ ≤ 2 ^ 53 * 2 ^ k := Nat.mul_le_mul_right _ (Nat.le_of_lt hm)
      _ = 2 ^ (53 + k) := (Nat.pow_add ..).symm
  have hlog := (Nat.log2_lt (Nat.ne_of_gt coarsestStep_pos)).2 hpower
  rw [log2_coarsestStep] at hlog
  omega

/-- On the first grid a double is at most one step. -/
theorem firstStep_le (hp : p < Format.double.infinity) :
    Format.double.units p * pow10 (firstStep p) ≤ coarsestStep := by
  rw [firstStep]
  by_cases hzero : coarsestStep / (4 * Format.double.units p) = 0
  · rw [hzero]
    exact Nat.le_trans (Nat.le_of_eq (Nat.mul_one _)) (units_le_coarsestStep hp)
  · have hpower := Nat.le_trans (pow10_le_pow2 _) (Nat.log2_self_le hzero)
    calc Format.double.units p * pow10 _
        ≤ Format.double.units p * (coarsestStep / (4 * Format.double.units p)) :=
          Nat.mul_le_mul_left _ hpower
      _ ≤ 4 * Format.double.units p * (coarsestStep / (4 * Format.double.units p)) :=
          Nat.mul_le_mul_right _ (by omega)
      _ ≤ coarsestStep := Nat.mul_div_le _ _

/-- The finest grid has a multiple that reads back. -/
theorem onGrid?_finest (hp : 0 < p) : onGrid? p (gridCount - 1) ≠ none := by
  intro h
  have hfine : coarsestStep < pow10 (gridCount - 1) := by decide +kernel
  have hnone := onGrid?_eq_none hp h
  have hends := Nat.mul_le_mul_right (pow10 (gridCount - 1))
    (Nat.le_trans (Format.double.lowEnd_lt hp) (Nat.le_of_lt Format.double.lt_highEnd))
  rw [Nat.succ_mul] at hends
  omega

/-- A grid gives the shortest decimal, and the one before it, unless it is the first, gives
none. -/
theorem shortest_onGrid (hp : 0 < p) : ∃ step < gridCount, onGrid? p step = some (shortest p) ∧
    (step = firstStep p ∨ ∃ before, step = before + 1 ∧ onGrid? p before = none) := by
  have hcount := firstStep_lt p
  cases hfound : (List.range' (firstStep p) (gridCount - firstStep p)).findSome? (onGrid? p) with
  | none =>
    refine absurd (List.findSome?_eq_none_iff.1 hfound _ ?_) (onGrid?_finest hp)
    rw [List.mem_range'_1]
    omega
  | some d =>
    obtain ⟨before, step, after, hsplit, hgrid, hnone⟩ := List.findSome?_eq_some_iff.1 hfound
    obtain ⟨k, hk, rfl, hstep⟩ := List.range'_eq_append_iff.1 hsplit
    obtain ⟨rfl, hlt, -⟩ := List.range'_eq_cons_iff.1 hstep.symm
    refine ⟨firstStep p + k * 1, by omega, ?_, ?_⟩
    · rw [shortest, hfound, hgrid, Option.getD_some]
    · cases k with
      | zero => exact .inl rfl
      | succ k =>
        refine .inr ⟨firstStep p + k, by omega, hnone _ ?_⟩
        rw [List.mem_range'_1]
        omega

/-- Before the grid of the shortest decimal a double was less than so many steps. -/
theorem before_lt {before : Nat} (hp : 0 < p) (h : onGrid? p before = none) :
    Format.double.units p * pow10 before < 2 ^ 53 * coarsestStep := by
  obtain ⟨step, hpos, hnext, hlt⟩ := Format.double.exists_step p
  have hnone := onGrid?_eq_none hp h
  have hlow := Nat.mul_le_mul_right (pow10 before) (Nat.le_of_lt (Format.double.lowEnd_lt hp))
  rw [Format.highEnd, hnext] at hnone
  have hstep : step * pow10 before ≤ coarsestStep := by
    simp only [Nat.add_mul, Nat.two_mul] at hnone hlow
    omega
  calc Format.double.units p * pow10 before < 2 ^ 53 * step * pow10 before :=
        Nat.mul_lt_mul_of_pos_right hlt (pow10_pos before)
    _ = 2 ^ 53 * (step * pow10 before) := Nat.mul_assoc ..
    _ ≤ 2 ^ 53 * coarsestStep := Nat.mul_le_mul_left _ hstep

/-- On the grid of the shortest decimal a double is less than so many steps. -/
theorem exact_lt (hp : 0 < p) (hp' : p < Format.double.infinity)
    (h : step = firstStep p ∨ ∃ before, step = before + 1 ∧ onGrid? p before = none) :
    2 * Format.double.units p * pow10 step < 2 ^ 60 * coarsestStep := by
  obtain rfl | ⟨before, rfl, hnone⟩ := h
  · have hfirst := firstStep_le hp'
    have hpos := coarsestStep_pos
    rw [Nat.mul_assoc]
    omega
  · have hbefore := before_lt hp hnone
    have hten : 2 * Format.double.units p * pow10 (before + 1) =
        20 * (Format.double.units p * pow10 before) := by
      rw [pow10_eq, pow10_eq]
      ring
    omega

/-! ### The shortest decimal -/

theorem digits_pos (hp : 0 < p) (h : readsBack p digits (pow10 step)) : 0 < digits := by
  refine Nat.pos_of_ne_zero fun hzero => ?_
  have hlow := (readsBack_iff.1 h).low
  rw [hzero, Nat.zero_mul, Nat.mul_zero, Nat.le_zero] at hlow
  exact absurd hlow (Nat.ne_of_gt (Nat.mul_pos (Format.double.lowEnd_pos hp) (pow10_pos step)))

/-- What reads back is a decimal that the pattern is nearest to. -/
theorem nearest_of_readsBack (hp : 0 < p) (hp' : p < Format.double.infinity)
    (h : readsBack p d.digits (pow10 step)) (he : d.exponent = (topExponent : Int) - step) :
    d.nearest = p := by
  have hround :=
    Format.double.round_of_near (by decide) hp hp' (pow10_pos step) (readsBack_iff.1 h)
  rw [nearest, ← hround]
  refine Format.double.round_congr (pow10_pos _) (pow10_pos step) (Eq.symm ?_)
  have hpowers : topExponent + (-d.exponent).toNat = d.exponent.toNat + step := by omega
  have hmoved : pow10 topExponent * pow10 (-d.exponent).toNat =
      pow10 d.exponent.toNat * pow10 step := by
    rw [pow10_eq, pow10_eq, pow10_eq, pow10_eq, ← Nat.pow_add, ← Nat.pow_add, hpowers]
  calc d.digits * (pow10 topExponent * pow2 Format.double.scale) * pow10 (-d.exponent).toNat
      = d.digits * (pow10 topExponent * pow10 (-d.exponent).toNat) *
          pow2 Format.double.scale := by ring
    _ = d.digits * (pow10 d.exponent.toNat * pow10 step) * pow2 Format.double.scale := by
        rw [hmoved]
    _ = d.digits * pow10 d.exponent.toNat * pow2 Format.double.scale * pow10 step := by ring

/-- The digits of the shortest decimal of a positive finite pattern, its exponent, and that the
pattern is nearest to it. -/
structure Fits (p : Nat) (d : Decimal) : Prop where
  pos : 0 < d.digits
  small : d.digits < 2 ^ 64
  low : -324 ≤ d.exponent
  high : d.exponent ≤ 308
  nearest : d.nearest = p

theorem shortest_fits (hp : 0 < p) (hp' : p < Format.double.infinity) : Fits p (shortest p) := by
  obtain ⟨step, hcount, hgrid, hfirst⟩ := shortest_onGrid hp
  obtain ⟨hexponent, hread, hdigits⟩ := onGrid?_eq_some hgrid
  have hsteps := (Nat.div_lt_iff_lt_mul coarsestStep_pos).2 (exact_lt hp hp' hfirst)
  have hnearest := nearest_of_readsBack hp hp' hread hexponent
  have hpos := digits_pos hp hread
  rw [gridCount] at hcount
  rw [topExponent] at hexponent
  exact ⟨hpos, by omega, by omega, by omega, hnearest⟩

end Decimal

end WireSchema
