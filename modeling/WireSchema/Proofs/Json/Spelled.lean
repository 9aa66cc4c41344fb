import WireSchema.Proofs.Json.ReadBack
import WireSchema.Proofs.Number.Shortest

/-! Floats, read as they are written. In every notation the digits are gathered to one
significand, and the point and the exponent are put together to a power of ten. Positional
notation without a fraction has zeros up to the point and one after it, which are gathered with
the digits. -/

namespace WireSchema

/-- The significand and the power of ten that the text of a decimal spells out. -/
def Decimal.spelled (d : Decimal) : Decimal :=
  if 0 ≤ d.exponent ∧ d.digits * pow10 d.exponent.toNat < pow10 16 then
    ⟨d.digits * pow10 (d.exponent.toNat + 1), -1⟩
  else d

/-- What the text of a finite double spells out behind its sign. -/
def Binary64.spelled (x : Binary64) : Decimal :=
  if x.pattern = 0 then ⟨0, -1⟩ else (Decimal.shortest x.pattern).spelled

namespace Json

open Outcome

variable {digits front tail rest : List Char} {n k sum : Nat} {before : Int}

/-! ### Parts of a number -/

theorem isDigit_natChars (n : Nat) : ∀ c ∈ Text.natChars n, c.isDigit :=
  fun _ => isDigit_of_mem_natChars

theorem value_natChars (n : Nat) : Nat.ofDigitChars 10 (Text.natChars n) 0 = n :=
  Nat.ofDigitChars_ten_toDigits

theorem afterDigits_ends (hr : EndsNumber rest) (sum : Nat) (before : Int) :
    afterDigits sum before rest = finish sum before rest := by
  cases rest with
  | nil => rfl
  | cons c more =>
    obtain ⟨-, -, he, hE⟩ := hr c rfl
    unfold afterDigits
    split <;> simp_all

theorem fraction_digits (hd : ∀ c ∈ digits, c.isDigit) (hne : digits ≠ []) (hr : EndsDigits rest)
    (hfit : Nat.ofDigitChars 10 digits sum < 2 ^ 64) :
    fraction sum before (digits ++ rest) =
      afterDigits (Nat.ofDigitChars 10 digits sum) (before - digits.length) rest := by
  have hgather := gather_digits hd hr hfit
  cases digits with
  | nil => exact absurd rfl hne
  | cons c more =>
    rw [List.cons_append] at hgather ⊢
    rw [fraction, if_pos (hd c List.mem_cons_self), hgather]
    simp only [hr.skipDigits]

theorem exponentDigits_digits (hd : ∀ c ∈ digits, c.isDigit) (hr : EndsDigits rest)
    (hfit : Nat.ofDigitChars 10 digits sum < 2 ^ 31) :
    exponentDigits sum (digits ++ rest) = (.ok (Nat.ofDigitChars 10 digits sum), rest) := by
  induction digits generalizing sum with
  | nil =>
    cases rest with
    | nil => rfl
    | cons c more => simp [exponentDigits, hr c rfl]
  | cons c digits ih =>
    rw [List.forall_mem_cons] at hd
    rw [Nat.ofDigitChars_cons] at hfit ⊢
    have hsum : sum * 10 + Text.digitValue c = 10 * sum + (c.toNat - '0'.toNat) := by
      rw [Nat.mul_comm, Text.digitValue]
    have hle := le_ofDigitChars digits (10 * sum + (c.toNat - '0'.toNat))
    rw [List.cons_append, exponentDigits, if_pos hd.1]
    simp only [hsum, pow2_eq, if_pos (Nat.lt_of_le_of_lt hle hfit), ih hd.2 hfit]

theorem exponent_natChars (hk : k < 2 ^ 31) (hr : EndsDigits rest) (sum : Nat) (before : Int) :
    exponent sum before ('-' :: (Text.natChars k ++ rest)) = finish sum (before - k) rest ∧
      exponent sum before ('+' :: (Text.natChars k ++ rest)) = finish sum (before + k) rest := by
  have hread : exponentDigits 0 (Text.natChars k ++ rest) = _ :=
    exponentDigits_digits (isDigit_natChars k) hr (by rwa [value_natChars])
  have hdigits := isDigit_natChars k
  rw [value_natChars] at hread
  cases hchars : Text.natChars k with
  | nil => exact absurd hchars Nat.toDigits_ne_nil
  | cons c more =>
    rw [hchars] at hread hdigits
    have hc := hdigits c List.mem_cons_self
    simp only [List.cons_append] at hread ⊢
    simp only [exponent, hc, if_true, hread]
    simp

/-! ### Notations -/

theorem endsDigits_cons {c : Char} (hc : c.isDigit = false) (rest : List Char) :
    EndsDigits (c :: rest) := by
  rintro d ⟨⟩
  exact hc

/-- Digits with a point among them. -/
theorem magnitude_point (hd : ∀ c ∈ front ++ tail, c.isDigit)
    (hhead : ∃ c more, front = c :: more ∧ c ≠ '0') (hne : tail ≠ []) (hr : EndsDigits rest)
    (hfit : Nat.ofDigitChars 10 (front ++ tail) 0 < 2 ^ 64) :
    magnitude (front ++ '.' :: (tail ++ rest)) =
      afterDigits (Nat.ofDigitChars 10 (front ++ tail) 0) (-tail.length) rest := by
  obtain ⟨c, more, rfl, hzero⟩ := hhead
  rw [Nat.ofDigitChars_append] at hfit ⊢
  have hle := le_ofDigitChars tail (Nat.ofDigitChars 10 (c :: more) 0)
  rw [magnitude_digits (fun d h => hd d (List.mem_append_left _ h)) hzero
    (endsDigits_cons (by decide) _) (Nat.lt_of_le_of_lt hle hfit), afterWhole,
    fraction_digits (fun d h => hd d (List.mem_append_right _ h)) hne hr hfit]
  simp

theorem isDigit_padded (n k : Nat) :
    ∀ c ∈ Text.natChars n ++ List.replicate k '0', c.isDigit := by
  intro c hc
  obtain hc | hc := List.mem_append.1 hc
  · exact isDigit_natChars n c hc
  · rw [List.eq_of_mem_replicate hc]
    rfl

theorem value_padded (n k : Nat) :
    Nat.ofDigitChars 10 (Text.natChars n ++ List.replicate k '0') 0 = n * 10 ^ k := by
  rw [Nat.ofDigitChars_append, value_natChars, Nat.ofDigitChars_replicate_zero, Nat.mul_comm]

theorem magnitude_whole (hpos : 0 < n) (hfit : n * 10 ^ (k + 1) < 2 ^ 64) (hr : EndsNumber rest) :
    magnitude (Text.natChars n ++ List.replicate k '0' ++ ['.', '0'] ++ rest) =
      finish (n * 10 ^ (k + 1)) (-1) rest := by
  obtain ⟨c, more, hchars, hne⟩ := natChars_head hpos
  have hpadded : Text.natChars n ++ List.replicate k '0' ++ ['0'] =
      Text.natChars n ++ List.replicate (k + 1) '0' := by
    rw [List.append_assoc, List.replicate_succ']
  have hpoint := magnitude_point (hpadded ▸ isDigit_padded n (k + 1))
    ⟨c, more ++ List.replicate k '0', by rw [hchars, List.cons_append], hne⟩ (by decide)
    hr.endsDigits (by rwa [hpadded, value_padded])
  rw [hpadded, value_padded, afterDigits_ends hr] at hpoint
  rw [List.append_assoc (_ ++ _)]
  exact hpoint

theorem magnitude_inside (hpos : 0 < n) (hn : n < 2 ^ 64) (hk : 0 < k)
    (hk' : k < (Text.natChars n).length) (hr : EndsNumber rest) :
    magnitude ((Text.natChars n).take k ++ ['.'] ++ (Text.natChars n).drop k ++ rest) =
      finish n (-((Text.natChars n).length - k : Nat)) rest := by
  obtain ⟨c, more, hchars, hne⟩ := natChars_head hpos
  obtain ⟨k, rfl⟩ := Nat.exists_eq_succ_of_ne_zero (Nat.ne_of_gt hk)
  have hwhole := List.take_append_drop (k + 1) (Text.natChars n)
  have hpoint := magnitude_point (hwhole.symm ▸ isDigit_natChars n)
    ⟨c, more.take k, by rw [hchars, List.take_succ_cons], hne⟩
    (fun hnil => Nat.not_le.2 hk' (List.drop_eq_nil_iff.1 hnil)) hr.endsDigits
    (by rwa [hwhole, value_natChars])
  rw [hwhole, value_natChars, afterDigits_ends hr, List.length_drop] at hpoint
  rw [List.append_assoc, List.append_assoc]
  exact hpoint

theorem magnitude_below (hn : n < 2 ^ 64) (hr : EndsNumber rest) :
    magnitude (['0', '.'] ++ List.replicate k '0' ++ Text.natChars n ++ rest) =
      finish n (-(k + (Text.natChars n).length : Nat)) rest := by
  have hd : ∀ c ∈ List.replicate k '0' ++ Text.natChars n, c.isDigit := fun c hc =>
    isDigit_padded n k c (List.mem_append.2 (List.mem_append.1 hc).symm)
  have hvalue : Nat.ofDigitChars 10 (List.replicate k '0' ++ Text.natChars n) 0 = n := by
    rw [Nat.ofDigitChars_append, Nat.ofDigitChars_replicate_zero, Nat.mul_zero, value_natChars]
  have hpoint : fraction 0 0 (List.replicate k '0' ++ Text.natChars n ++ rest) = _ :=
    fraction_digits hd (by simp [Text.natChars]) hr.endsDigits (by rwa [hvalue])
  rw [hvalue, afterDigits_ends hr] at hpoint
  simpa [magnitude, afterWhole] using hpoint

/-- The digits of the other notation, with the exponent that belongs to the first of them. -/
theorem magnitude_scientific {e : List Char} (hpos : 0 < n) (hn : n < 2 ^ 64) (sign : Char) :
    magnitude ((Text.natChars n).take 1 ++ (match (Text.natChars n).tail with
      | [] => []
      | more => '.' :: more) ++ ['e', sign] ++ e) =
      exponent n (-((Text.natChars n).length - 1 : Nat)) (sign :: e) := by
  obtain ⟨c, more, hchars, hne⟩ := natChars_head hpos
  have hd := isDigit_natChars n
  have hvalue := value_natChars n
  rw [hchars] at hd hvalue ⊢
  cases more with
  | nil =>
    have hread : magnitude ([c] ++ 'e' :: sign :: e) = _ :=
      magnitude_digits hd hne (endsDigits_cons (by decide) _) (by rwa [hvalue])
    rw [hvalue] at hread
    exact hread
  | cons d more =>
    have hread : magnitude ([c] ++ '.' :: (d :: more ++ 'e' :: sign :: e)) = _ :=
      magnitude_point hd ⟨c, [], rfl, hne⟩ (List.cons_ne_nil d more)
        (endsDigits_cons (by decide) _) (by rwa [List.singleton_append, hvalue])
    rw [List.singleton_append, List.singleton_append, hvalue] at hread
    simpa [afterDigits] using hread

/-- Whole numbers are in positional notation below ten quadrillion. -/
theorem whole_iff (hpos : 0 < n) (k : Nat) :
    k + (Text.natChars n).length ≤ 16 ↔ n * 10 ^ k < 10 ^ 16 := by
  have hlength : 0 < (Text.natChars n).length := Nat.length_toDigits_pos
  by_cases hk : k < 16
  · have hdigits : (Text.natChars n).length ≤ 16 - k ↔ n < 10 ^ (16 - k) :=
      Nat.length_toDigits_le_iff (by decide) (by omega)
    have hpower : 10 ^ 16 = 10 ^ (16 - k) * 10 ^ k := by
      rw [← Nat.pow_add, Nat.sub_add_cancel (Nat.le_of_lt hk)]
    rw [hpower, Nat.mul_lt_mul_right (Nat.pow_pos (by decide)), ← hdigits]
    omega
  · have hpower := Nat.pow_le_pow_right (show 0 < 10 by decide) (Nat.not_lt.1 hk)
    have hle : 10 ^ k ≤ n * 10 ^ k := Nat.le_mul_of_pos_left _ hpos
    omega

/-- The text of a decimal is read as what it spells out. -/
theorem magnitude_chars {d : Decimal} (hpos : 0 < d.digits) (hsmall : d.digits < 2 ^ 64)
    (hexponent : d.exponent.natAbs < 2 ^ 30) (hr : EndsNumber rest) :
    magnitude (d.chars Decimal.jsonStyle ++ rest) =
      finish d.spelled.digits d.spelled.exponent rest := by
  obtain ⟨n, e⟩ := d
  dsimp only at hpos hsmall hexponent
  have hwhole := whole_iff hpos e.toNat
  have hlength : 0 < (Text.natChars n).length := Nat.length_toDigits_pos
  have hlength' : (Text.natChars n).length ≤ 20 :=
    (Nat.length_toDigits_le_iff (by decide) (by decide)).2 (Nat.lt_trans hsmall (by decide))
  simp only [Decimal.chars, Decimal.jsonStyle, Decimal.spelled, pow10_eq, ← hwhole]
  by_cases hspelled : 0 ≤ e ∧ e.toNat + (Text.natChars n).length ≤ 16
  · have hfit : n * 10 ^ (e.toNat + 1) < 2 ^ 64 := by
      have hlt := hwhole.1 hspelled.2
      rw [Nat.pow_succ, ← Nat.mul_assoc]
      omega
    rw [if_pos hspelled, if_pos (by omega), if_pos hspelled.1]
    exact magnitude_whole hpos hfit hr
  rw [if_neg hspelled]
  dsimp only
  generalize hleading : e + (Text.natChars n).length - 1 = leading
  split_ifs with hpositional hnonneg hinside hsign
  · omega
  · rw [magnitude_inside hpos hsmall (by omega) (by omega) hr]
    congr 1
    omega
  · rw [magnitude_below hsmall hr]
    congr 1
    omega
  · rw [List.append_assoc]
    refine (magnitude_scientific hpos hsmall '-').trans ?_
    rw [(exponent_natChars (by omega) hr.endsDigits n _).1]
    congr 1
    omega
  · rw [List.append_assoc]
    refine (magnitude_scientific hpos hsmall '+').trans ?_
    rw [(exponent_natChars (by omega) hr.endsDigits n _).2]
    congr 1
    omega

/-! ### Floats -/

theorem chars_head (style : Decimal.Style) (d : Decimal) :
    ∃ c more, d.chars style = c :: more ∧ c.isDigit := by
  have hdigits := isDigit_natChars d.digits
  simp only [Decimal.chars]
  cases hchars : Text.natChars d.digits with
  | nil => exact absurd hchars Nat.toDigits_ne_nil
  | cons c more =>
    rw [hchars] at hdigits
    have hc := hdigits c List.mem_cons_self
    split_ifs
    · exact ⟨c, _, rfl, hc⟩
    · exact ⟨c, _, rfl, hc⟩
    · exact ⟨'0', _, rfl, rfl⟩
    · exact ⟨c, _, rfl, hc⟩
    · exact ⟨c, _, rfl, hc⟩

/-- The text of a finite double is its sign, and digits that are read as what it spells out. -/
theorem chars_float {x : Binary64} (hx : x.isFinite) (hr : EndsNumber rest) :
    ∃ c more, c.isDigit ∧
      chars (.float x) = (if x.negative then '-' :: c :: more else c :: more) ∧
      magnitude (c :: more ++ rest) = finish x.spelled.digits x.spelled.exponent rest := by
  rw [chars, floatChars, if_pos hx, Binary64.chars, Binary64.spelled]
  by_cases hzero : x.pattern = 0
  · rw [if_pos hzero, if_pos hzero]
    refine ⟨'0', ['.', '0'], rfl, rfl, ?_⟩
    have hpoint : fraction 0 0 (['0'] ++ rest) = _ :=
      fraction_digits (by decide) (by decide) hr.endsDigits (by decide)
    rw [afterDigits_ends hr] at hpoint
    exact hpoint
  · rw [if_neg hzero, if_neg hzero]
    have hfits := Decimal.shortest_fits (Nat.pos_of_ne_zero hzero) (of_decide_eq_true hx)
    obtain ⟨c, more, hchars, hc⟩ := chars_head Decimal.jsonStyle (Decimal.shortest x.pattern)
    have hread := magnitude_chars hfits.pos hfits.small
      (by have hlow := hfits.low; have hhigh := hfits.high; omega) hr
    rw [hchars] at hread ⊢
    exact ⟨c, more, hc, rfl, hread⟩

theorem valueWith_float (item : Option (Reader Value)) {x : Binary64} (hx : x.isFinite)
    (hr : EndsNumber rest) :
    valueWith item (chars (.float x) ++ rest) =
      (finish x.spelled.digits x.spelled.exponent rest).map fun read =>
        (signed x.negative read.1, read.2) := by
  obtain ⟨c, more, hc, hchars, hread⟩ := chars_float hx hr
  have hnumber (negative : Bool) : number negative (c :: more ++ rest) =
      (magnitude (c :: more ++ rest)).map fun read => (signed negative read.1, read.2) := by
    rw [number]
    cases magnitude (c :: more ++ rest) <;> rfl
  rw [hchars, ← hread]
  cases x.negative with
  | true =>
    rw [if_pos rfl, List.cons_append, valueWith, skipSpaces_cons (by decide)]
    exact hnumber true
  | false =>
    rw [if_neg Bool.false_ne_true, List.cons_append, valueWith_digit item hc]
    exact hnumber false

end Json

namespace Value

variable {x : Binary64}

/-- The text of a finite double is read as the double that the reader makes of the significand
and the power of ten, and refused where that would not be finite. -/
theorem ofJson_float (hx : x.isFinite) :
    (∀ pattern, Json.scaled x.spelled.digits x.spelled.exponent = some pattern →
      ofJson (Value.float x).toJson = .ok (.float (.ofPattern x.negative pattern))) ∧
    (Json.scaled x.spelled.digits x.spelled.exponent = none →
      ∃ position, ofJson (Value.float x).toJson = .error ⟨.numberOutOfRange, position⟩) := by
  have hread := @Json.valueWith_float [] (some (Json.value 126)) x hx nofun
  have hvalue : Json.value Json.maxDepth = Json.valueWith (some (Json.value 126)) := rfl
  rw [List.append_nil] at hread
  rw [ofJson, toJson, String.toList_ofList, Json.parse, Json.document, hvalue, hread, Json.finish]
  constructor
  · intro pattern h
    rw [h]
    rfl
  · intro h
    rw [h]
    exact ⟨_, rfl⟩

end Value

end WireSchema
