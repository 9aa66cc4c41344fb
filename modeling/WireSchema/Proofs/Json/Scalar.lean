import Mathlib.Tactic.SplitIfs
import WireSchema.Json.Parser
import WireSchema.Json.Printer
import WireSchema.Proofs.Number.Power
import WireSchema.Proofs.Outcome

/-! Integers and strings of JSON, read as they are written. The digits of an integer come to
an end where no digit follows and nothing that goes on with a number; a string ends with its
own quotation mark, whatever follows. -/

namespace WireSchema.Json

open Outcome

/-! ### Integers -/

/-- What follows does not go on with a number. -/
def EndsNumber (rest : List Char) : Prop :=
  ∀ c ∈ rest.head?, c.isDigit = false ∧ c ≠ '.' ∧ c ≠ 'e' ∧ c ≠ 'E'

/-- What follows does not go on with digits. -/
def EndsDigits (rest : List Char) : Prop := ∀ c ∈ rest.head?, c.isDigit = false

section Digits
variable {digits rest : List Char} {sum n : Nat}

theorem EndsNumber.endsDigits (h : EndsNumber rest) : EndsDigits rest := fun c hc => (h c hc).1

theorem EndsDigits.takeWhile (h : EndsDigits rest) : rest.takeWhile Char.isDigit = [] := by
  cases rest with
  | nil => rfl
  | cons c more => rw [List.takeWhile_cons_of_neg (by simp [h c rfl])]

theorem EndsDigits.skipDigits (h : EndsDigits rest) : skipDigits rest = rest := by
  cases rest with
  | nil => rfl
  | cons c more => rw [Json.skipDigits, List.dropWhile_cons_of_neg (by simp [h c rfl])]

/-- More digits never make a number smaller. -/
theorem le_ofDigitChars (digits : List Char) (sum : Nat) :
    sum ≤ Nat.ofDigitChars 10 digits sum := by
  induction digits generalizing sum with
  | nil => simp
  | cons c digits ih =>
    have h := ih (10 * sum + (c.toNat - '0'.toNat))
    rw [Nat.ofDigitChars_cons]
    omega

/-- Digits whose number has 64 bits are all gathered. -/
theorem gather_digits (hd : ∀ c ∈ digits, c.isDigit) (hr : EndsDigits rest)
    (hfit : Nat.ofDigitChars 10 digits sum < pow2 64) :
    gather sum (digits ++ rest) = (Nat.ofDigitChars 10 digits sum, digits.length, rest) := by
  induction digits generalizing sum with
  | nil =>
    cases rest with
    | nil => rfl
    | cons c more => simp [gather, hr c rfl]
  | cons c digits ih =>
    rw [List.forall_mem_cons] at hd
    rw [Nat.ofDigitChars_cons] at hfit ⊢
    have hsum : sum * 10 + Text.digitValue c = 10 * sum + (c.toNat - '0'.toNat) := by
      rw [Nat.mul_comm, Text.digitValue]
    have hle := le_ofDigitChars digits (10 * sum + (c.toNat - '0'.toNat))
    rw [List.cons_append, gather, hsum, if_pos ⟨hd.1, by omega⟩, ih hd.2 hfit]
    rfl

theorem isDigit_of_mem_natChars {c : Char} (h : c ∈ Text.natChars n) : c.isDigit :=
  Nat.isDigit_of_mem_toDigits (by decide) (by decide) h

/-- Only the number zero begins with the digit zero. -/
theorem natChars_head (hn : 0 < n) : ∃ c more, Text.natChars n = c :: more ∧ c ≠ '0' := by
  induction n using Nat.strongRecOn with
  | ind n ih =>
    rw [Text.natChars]
    by_cases h : n < 10
    · refine ⟨n.digitChar, [], Nat.toDigits_of_lt_base h, fun h0 => ?_⟩
      rw [Nat.digitChar_eq_zero] at h0
      omega
    · obtain ⟨c, more, hc, hne⟩ := ih (n / 10) (by omega) (by omega)
      rw [Text.natChars] at hc
      rw [Nat.toDigits_of_base_le (by decide) (by omega), hc]
      exact ⟨c, _, rfl, hne⟩

theorem afterWhole_ends (hr : EndsNumber rest) (n : Nat) :
    afterWhole n 0 rest = .ok (.whole n, rest) := by
  cases rest with
  | nil => rfl
  | cons c more =>
    obtain ⟨-, hpoint, he, hE⟩ := hr c rfl
    unfold afterWhole
    split <;> simp_all

/-- Digits that do not begin with zero, up to what comes after them. -/
theorem magnitude_digits {c : Char} {more : List Char} (hd : ∀ d ∈ c :: more, d.isDigit)
    (hne : c ≠ '0') (hr : EndsDigits rest) (hfit : Nat.ofDigitChars 10 (c :: more) 0 < 2 ^ 64) :
    magnitude (c :: more ++ rest) = afterWhole (Nat.ofDigitChars 10 (c :: more) 0) 0 rest := by
  have hgather := gather_digits hd hr hfit
  rw [List.cons_append] at hgather ⊢
  unfold magnitude
  split
  · next h => cases h
  · next h => exact absurd (List.cons.inj h).1 hne
  · next h =>
    obtain ⟨rfl, rfl⟩ := List.cons.inj h
    rw [if_pos (hd c List.mem_cons_self), hgather]
    simp only [hr.takeWhile, hr.skipDigits, List.length_nil]

theorem magnitude_natChars (hn : n < 2 ^ 64) (hr : EndsNumber rest) :
    magnitude (Text.natChars n ++ rest) = .ok (.whole n, rest) := by
  obtain rfl | hpos := Nat.eq_zero_or_pos n
  · rw [Text.natChars, Nat.toDigits_zero, List.singleton_append]
    cases rest with
    | nil => rfl
    | cons c more => simp [magnitude, (hr c rfl).1, afterWhole_ends hr]
  · obtain ⟨c, more, hchars, hne⟩ := natChars_head hpos
    have hdigits : ∀ d ∈ Text.natChars n, d.isDigit := fun d => isDigit_of_mem_natChars
    have hvalue : Nat.ofDigitChars 10 (Text.natChars n) 0 = n := Nat.ofDigitChars_ten_toDigits
    rw [hchars] at hdigits hvalue ⊢
    rw [magnitude_digits hdigits hne hr.endsDigits (hvalue.symm ▸ hn), hvalue, afterWhole_ends hr]

end Digits

/-- An integer as digits with a sign before them. -/
theorem number_intChars (n : Int64) {rest : List Char} (hr : EndsNumber rest) :
    (∃ digits, Text.intChars n.toInt = '-' :: digits ∧
      number true (digits ++ rest) = .ok (.int n, rest)) ∨
      ((∃ c digits, Text.intChars n.toInt = c :: digits ∧ c.isDigit) ∧
        number false (Text.intChars n.toInt ++ rest) = .ok (.int n, rest)) := by
  have hlow := n.le_toInt
  have hhigh := n.toInt_lt
  cases hn : n.toInt with
  | ofNat k =>
    rw [hn, Int.ofNat_eq_natCast] at hhigh
    right
    constructor
    · cases hchars : Text.natChars k with
      | nil => exact absurd hchars Nat.toDigits_ne_nil
      | cons c digits =>
        exact ⟨c, digits, hchars, isDigit_of_mem_natChars (hchars ▸ List.mem_cons_self)⟩
    · have hk : k < pow2 63 := by rw [pow2_eq]; omega
      rw [Text.intChars, number, magnitude_natChars (by omega) hr, ok_bind]
      simp only [signed, Bool.false_eq_true, if_false, if_pos hk]
      rw [← Int64.ofInt_eq_ofNat, ← Int.ofNat_eq_natCast, ← hn, Int64.ofInt_toInt]
  | negSucc k =>
    rw [hn, Int.negSucc_eq] at hlow
    left
    refine ⟨Text.natChars (k + 1), rfl, ?_⟩
    have hk : 0 < k + 1 ∧ k + 1 ≤ pow2 63 := ⟨by omega, by rw [pow2_eq]; omega⟩
    have hneg : -((k + 1 : Nat) : Int) = n.toInt := by rw [hn, Int.negSucc_eq]; simp
    rw [number, magnitude_natChars (by omega) hr, ok_bind]
    simp only [signed, if_true, if_pos hk, hneg, Int64.ofInt_toInt]

/-! ### Strings -/

theorem hexValue?_hexDigit : ∀ n < 16, hexValue? (Text.hexDigit n) = some n := by decide

theorem fourHex_low {n : Nat} (hn : n < 256) (rest : List Char) :
    fourHex ('0' :: '0' :: Text.hexDigit (n / 16) :: Text.hexDigit (n % 16) :: rest) =
      .ok (n, rest) := by
  have hzero : hexValue? '0' = some 0 := by decide
  simp only [fourHex, hzero, hexValue?_hexDigit (n / 16) (by omega),
    hexValue?_hexDigit (n % 16) (by omega)]
  congr 2
  omega

/-- A character below space is written as its code. -/
theorem escaped_low {c : Char} (hc : c.toNat < 32) (rest : List Char) :
    escaped ('u' :: '0' :: '0' :: Text.hexDigit (c.toNat / 16) :: Text.hexDigit (c.toNat % 16) ::
      rest) = .ok (c, rest) := by
  rw [escaped, fourHex_low (by omega), ok_bind]
  simp only [Char.ofNat_toNat]
  rw [if_pos (.inl (by omega))]

/-- A character of a string, as it is written, is read in one step. -/
theorem stringChars_escape (c : Char) (steps : Nat) (rest : List Char) :
    stringChars (steps + 1) (Text.escape c ++ rest) =
      (stringChars steps rest).map fun read => (c :: read.1, read.2) := by
  have hstep : ∀ letters, escaped (letters ++ rest) = .ok (c, rest) →
      stringChars (steps + 1) ('\\' :: (letters ++ rest)) =
        (stringChars steps rest).map fun read => (c :: read.1, read.2) := by
    intro letters h
    rw [stringChars, if_neg (by decide), if_pos rfl, h, ok_bind]
    dsimp only
    cases stringChars steps rest <;> rfl
  unfold Text.escape
  split_ifs with h1 h2 h3 h4 h5 h6 h7 h8
  · exact hstep ['"'] (by rw [h1]; rfl)
  · exact hstep ['\\'] (by rw [h2]; rfl)
  · exact hstep ['b'] (by rw [h3]; rfl)
  · exact hstep ['f'] (by rw [h4]; rfl)
  · exact hstep ['n'] (by rw [h5]; rfl)
  · exact hstep ['r'] (by rw [h6]; rfl)
  · exact hstep ['t'] (by rw [h7]; rfl)
  · exact hstep ['u', '0', '0', Text.hexDigit (c.toNat / 16), Text.hexDigit (c.toNat % 16)]
      (escaped_low h8 rest)
  · rw [List.singleton_append, stringChars, if_neg h1, if_neg h2, if_neg h8]
    cases stringChars steps rest <;> rfl

theorem stringChars_flatMap (text : List Char) {steps : Nat} (hs : text.length < steps)
    (rest : List Char) :
    stringChars steps (text.flatMap Text.escape ++ '"' :: rest) = .ok (text, rest) := by
  induction text generalizing steps with
  | nil =>
    obtain ⟨steps, rfl⟩ := Nat.exists_eq_succ_of_ne_zero (Nat.ne_of_gt hs)
    rfl
  | cons c text ih =>
    obtain ⟨steps, rfl⟩ := Nat.exists_eq_succ_of_ne_zero (Nat.ne_zero_of_lt hs)
    rw [List.flatMap_cons, List.append_assoc, stringChars_escape,
      ih (by simpa using hs), map_ok]

theorem length_le_flatMap_escape (text : List Char) :
    text.length ≤ (text.flatMap Text.escape).length := by
  induction text with
  | nil => simp
  | cons c text ih =>
    have hc : 0 < (Text.escape c).length := by
      unfold Text.escape
      split_ifs <;> simp
    rw [List.flatMap_cons, List.length_append, List.length_cons]
    omega

/-- A string is read up to its closing quotation mark. -/
theorem string_quoted (s : String) (rest : List Char) :
    string (s.toList.flatMap Text.escape ++ '"' :: rest) = .ok (s, rest) := by
  have hlength := length_le_flatMap_escape s.toList
  have hsteps : s.toList.length < (s.toList.flatMap Text.escape ++ '"' :: rest).length + 1 := by
    rw [List.length_append, List.length_cons]
    omega
  rw [string, stringChars_flatMap s.toList hsteps, ok_bind]
  simp only [String.ofList_toList]

end WireSchema.Json
