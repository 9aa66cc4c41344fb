import Mathlib.Data.Nat.Log
import Mathlib.Tactic.Ring
import Mathlib.Tactic.SplitIfs
import WireSchema.Bytes.Varint
import WireSchema.Proofs.Number.Power

/-! Base-128 numbers are read as they are written, whatever bytes follow, and the number of
their bytes is known beforehand. Bytes that stop inside a number are too few, never a
number of their own and never one that is too large. -/

namespace WireSchema.Varint

/-! ### Writing -/

theorem encode_of_lt {n : Nat} (h : n < 128) : encode n = [UInt8.ofNat n] := by
  rw [encode, if_pos h]

theorem encode_of_le {n : Nat} (h : 128 ≤ n) :
    encode n = UInt8.ofNat (n % 128 + 128) :: encode (n / 128) := by
  rw [encode, if_neg (by omega)]

theorem encode_ne_nil (n : Nat) : encode n ≠ [] := by
  rw [encode]
  split <;> simp

theorem log2_div_of_le {n : Nat} (h : 128 ≤ n) : n.log2 = (n / 128).log2 + 7 := by
  have h2 : 2 ≤ n := by omega
  simp only [Nat.log2_eq_log_two]
  have hpow : n / 128 = n / 2 ^ 7 := rfl
  have hlog : 7 ≤ Nat.log 2 n := Nat.le_log_of_pow_le (by omega) (by omega)
  rw [hpow, Nat.log_div_base_pow]
  omega

/-- The number of bytes is computed before they are written. -/
theorem length_encode (n : Nat) : (encode n).length = length n := by
  induction n using Nat.strongRecOn with
  | ind n ih =>
    by_cases h : n < 128
    · have hlog : n.log2 < 7 := by
        by_cases h0 : n = 0
        · subst h0; decide
        · exact (Nat.log2_lt h0).2 (by omega)
      rw [encode_of_lt h, length, Nat.div_eq_of_lt hlog]
      rfl
    · rw [encode_of_le (by omega), List.length_cons, ih _ (by omega), length, length,
        log2_div_of_le (show 128 ≤ n by omega), Nat.add_div_right _ (by decide)]

/-! ### Reading -/

section Reading
variable {room scale sum n : Nat}

theorem readGroups_last {byte : UInt8} {rest : List UInt8} (hb : byte.toNat < 128)
    (hfit : sum + byte.toNat * scale < 2 ^ 64) :
    readGroups (room + 1) scale sum (byte :: rest) = (.ok (sum + byte.toNat * scale), 1) := by
  rw [readGroups]
  simp only [Nat.mod_eq_of_lt hb, pow2_eq]
  rw [if_neg (by omega), if_pos hb]

theorem readGroups_more {byte : UInt8} {rest : List UInt8} (hb : 128 ≤ byte.toNat)
    (hfit : sum + byte.toNat % 128 * scale < 2 ^ 64) :
    readGroups (room + 1) scale sum (byte :: rest) =
      ((readGroups room (scale * 128) (sum + byte.toNat % 128 * scale) rest).1,
        (readGroups room (scale * 128) (sum + byte.toNat % 128 * scale) rest).2 + 1) := by
  rw [readGroups]
  simp only [pow2_eq]
  rw [if_neg (by omega), if_neg (by omega)]

theorem toNat_low (h : n < 128) : (UInt8.ofNat n).toNat = n :=
  UInt8.toNat_ofNat_of_lt' (show n < 256 by omega)

theorem toNat_more (n : Nat) : (UInt8.ofNat (n % 128 + 128)).toNat = n % 128 + 128 :=
  UInt8.toNat_ofNat_of_lt' (show _ < 256 by omega)

/-- What the low group and the later ones add up to. -/
theorem groups_sum (n scale sum : Nat) :
    sum + (n % 128) * scale + (n / 128) * (scale * 128) = sum + n * scale := by
  have h : n % 128 + 128 * (n / 128) = n := Nat.mod_add_div n 128
  calc sum + (n % 128) * scale + (n / 128) * (scale * 128)
      = sum + (n % 128 + 128 * (n / 128)) * scale := by ring
    _ = sum + n * scale := by rw [h]

/-- The first byte of a number that takes more than one, the number fitting in what is left. -/
theorem readGroups_cons (rest : List UInt8) (hfit : sum + n * scale < 2 ^ 64) :
    readGroups (room + 1) scale sum (UInt8.ofNat (n % 128 + 128) :: rest) =
      ((readGroups room (scale * 128) (sum + n % 128 * scale) rest).1,
        (readGroups room (scale * 128) (sum + n % 128 * scale) rest).2 + 1) := by
  have hgroups := groups_sum n scale sum
  have hlow : (UInt8.ofNat (n % 128 + 128)).toNat % 128 = n % 128 := by
    rw [toNat_more]
    omega
  rw [readGroups_more (by rw [toNat_more]; omega) (by rw [hlow]; omega), hlow]

theorem div_lt_of_lt (hn : n < 128 ^ (room + 2)) : n / 128 < 128 ^ (room + 1) := by
  rw [Nat.div_lt_iff_lt_mul (by decide), ← Nat.pow_succ]
  exact hn

theorem readGroups_encode (room : Nat) : ∀ {scale sum n : Nat} (rest : List UInt8),
    n < 128 ^ (room + 1) → sum + n * scale < 2 ^ 64 →
      readGroups (room + 1) scale sum (encode n ++ rest) =
        (.ok (sum + n * scale), (encode n).length) := by
  induction room with
  | zero =>
    intro scale sum n rest hn hfit
    have hn : n < 128 := by simpa using hn
    rw [encode_of_lt hn, List.singleton_append,
      readGroups_last (by rwa [toNat_low hn]) (by rwa [toNat_low hn]), toNat_low hn]
    rfl
  | succ room ih =>
    intro scale sum n rest hn hfit
    by_cases h : n < 128
    · rw [encode_of_lt h, List.singleton_append,
        readGroups_last (by rwa [toNat_low h]) (by rwa [toNat_low h]), toNat_low h]
      rfl
    · have hgroups := groups_sum n scale sum
      rw [encode_of_le (by omega), List.cons_append, readGroups_cons _ hfit,
        ih rest (div_lt_of_lt hn) (by omega), hgroups]
      rfl

/-- A number is read whole, and what follows it stays. -/
theorem read_encode (rest : List UInt8) (hn : n < 2 ^ 64) :
    read (encode n ++ rest) = (.ok n, (encode n).length) := by
  have h := @readGroups_encode 9 1 0 n rest (Nat.lt_of_lt_of_le hn (by decide)) (by omega)
  rw [read, maxLength, h]
  simp

theorem readGroups_take (room : Nat) : ∀ {scale sum n m : Nat},
    n < 128 ^ (room + 1) → sum + n * scale < 2 ^ 64 → m < (encode n).length →
      readGroups (room + 1) scale sum ((encode n).take m) = (.error .truncated, m) := by
  induction room with
  | zero =>
    intro scale sum n m hn hfit hm
    have hn : n < 128 := by simpa using hn
    rw [encode_of_lt hn, List.length_singleton] at hm
    obtain rfl : m = 0 := by omega
    rfl
  | succ room ih =>
    intro scale sum n m hn hfit hm
    cases m with
    | zero => rfl
    | succ m =>
      by_cases h : n < 128
      · rw [encode_of_lt h, List.length_singleton] at hm
        omega
      · have hgroups := groups_sum n scale sum
        rw [encode_of_le (by omega), List.length_cons] at hm
        rw [encode_of_le (by omega), List.take_succ_cons, readGroups_cons _ hfit,
          ih (div_lt_of_lt hn) (by omega) (by omega)]

/-- A number that is cut off is short of bytes. -/
theorem read_take {m : Nat} (hn : n < 2 ^ 64) (hm : m < (encode n).length) :
    read ((encode n).take m) = (.error .truncated, m) :=
  readGroups_take 9 (Nat.lt_of_lt_of_le hn (by decide)) (by omega) hm

/-! ### Bytes of any kind -/

theorem readGroups_taken_le (room scale sum : Nat) (bytes : List UInt8) :
    (readGroups room scale sum bytes).2 ≤ bytes.length := by
  induction room generalizing scale sum bytes with
  | zero => simp [readGroups]
  | succ room ih =>
    cases bytes with
    | nil => simp [readGroups]
    | cons byte rest =>
      have hmore := ih (scale * 128) (sum + byte.toNat % 128 * scale) rest
      simp only [readGroups, List.length_cons]
      split
      · simp
      · split
        · simp
        · simpa using hmore

/-- No more bytes are taken than there are. -/
theorem read_taken_le (bytes : List UInt8) : (read bytes).2 ≤ bytes.length :=
  readGroups_taken_le maxLength 1 0 bytes

theorem readGroups_ok {bytes : List UInt8} {taken : Nat}
    (h : readGroups room scale sum bytes = (.ok n, taken)) :
    0 < taken ∧ taken ≤ bytes.length ∧
      (∀ rest, readGroups room scale sum (bytes.take taken ++ rest) = (.ok n, taken)) ∧
      ∀ m < taken, readGroups room scale sum (bytes.take m) = (.error .truncated, m) := by
  induction room generalizing scale sum bytes taken with
  | zero => cases h
  | succ room ih =>
    cases bytes with
    | nil => cases h
    | cons byte rest =>
      rw [readGroups] at h
      dsimp only at h
      split_ifs at h with hover hlast
      · cases h
      · obtain ⟨hn, rfl⟩ := Prod.mk.inj h
        refine ⟨Nat.one_pos, by simp, fun more => ?_, fun m hm => ?_⟩
        · simp [readGroups, hover, hlast, hn]
        · obtain rfl : m = 0 := by omega
          rfl
      · generalize hlater : readGroups room (scale * 128) (sum + byte.toNat % 128 * scale) rest =
          later at h
        obtain ⟨outcome, taken⟩ := later
        obtain ⟨rfl, rfl⟩ := Prod.mk.inj h
        obtain ⟨-, hle, hwhole, hcut⟩ := ih hlater
        refine ⟨Nat.succ_pos _, Nat.succ_le_succ hle, fun more => ?_, fun m hm => ?_⟩
        · rw [List.take_succ_cons, List.cons_append, readGroups]
          simp [hover, hlast, hwhole more]
        · cases m with
          | zero => rfl
          | succ m =>
            rw [List.take_succ_cons, readGroups]
            simp [hover, hlast, hcut m (Nat.lt_of_succ_lt_succ hm)]

/-- A number that was read, in however many bytes, is read from these bytes whatever follows them,
and cut off anywhere it is short of bytes. -/
theorem read_ok {bytes : List UInt8} {taken : Nat} (h : read bytes = (.ok n, taken)) :
    0 < taken ∧ taken ≤ bytes.length ∧
      (∀ rest, read (bytes.take taken ++ rest) = (.ok n, taken)) ∧
      ∀ m < taken, read (bytes.take m) = (.error .truncated, m) :=
  readGroups_ok h

end Reading

end WireSchema.Varint
