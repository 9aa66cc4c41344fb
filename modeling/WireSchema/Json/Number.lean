import WireSchema.Json.Fault
import WireSchema.Number.Binary
import WireSchema.Text.Integer

/-! Reading numbers. The digits are gathered in a 64-bit significand; those that do not
fit are dropped, and the dropped ones before the point count as powers of ten. The
value is then the significand rounded to a double and multiplied or divided by the
double nearest to a power of ten, each step rounded, so that it need not be the
double nearest to what is written. -/

namespace WireSchema.Json

/-- The largest power of ten that is a finite double. -/
def topPower : Nat := 308

def powerOfTen (k : Nat) : Nat := Format.double.ofNat (pow10 k)

/-- A pattern divided by a power of ten, at most `topPower` at a time. -/
def scaleDown : (steps : Nat) → (pattern k : Nat) → Nat
  | 0, pattern, _ => pattern
  | steps + 1, pattern, k =>
    if k ≤ topPower then Format.double.div pattern (powerOfTen k)
    else if pattern = 0 then 0
    else scaleDown steps (Format.double.div pattern (powerOfTen topPower)) (k - topPower)

/-- The pattern for a significand times a power of ten, if it is finite. -/
def scaled (significand : Nat) (exponent : Int) : Option Nat :=
  let pattern := Format.double.ofNat significand
  if 0 ≤ exponent then
    if exponent ≤ topPower then
      let product := Format.double.mul pattern (powerOfTen exponent.toNat)
      if product < Format.double.infinity then some product else none
    else if pattern = 0 then some 0
    else none
  else
    let k := (-exponent).toNat
    some (scaleDown (k / topPower + 1) pattern k)

/-- Adds the digits at the front to a significand as long as they fit: the sum, how many fitted,
and what follows. -/
def gather : (significand : Nat) → List Char → Nat × Nat × List Char
  | significand, [] => (significand, 0, [])
  | significand, c :: rest =>
    if c.isDigit ∧ significand * 10 + Text.digitValue c < pow2 64 then
      let (sum, count, after) := gather (significand * 10 + Text.digitValue c) rest
      (sum, count + 1, after)
    else (significand, 0, c :: rest)

def skipDigits (text : List Char) : List Char := text.dropWhile Char.isDigit

inductive Magnitude where
  /-- Digits alone. -/
  | whole (n : Nat)
  /-- A pattern. -/
  | scaled (pattern : Nat)

def finish (significand : Nat) (exponent : Int) : Reader Magnitude := fun rest =>
  match scaled significand exponent with
  | some pattern => .ok (.scaled pattern, rest)
  | none => failAt .numberOutOfRange rest

/-- The digits of an exponent after the first ones, which make `sum`. Past 31 bits the rest is
not read as a number. -/
def exponentDigits : (sum : Nat) → List Char → Except (List Char) Nat × List Char
  | sum, [] => (.ok sum, [])
  | sum, c :: rest =>
    if c.isDigit then
      let next := sum * 10 + Text.digitValue c
      if next < pow2 31 then exponentDigits next rest else (.error rest, skipDigits rest)
    else (.ok sum, c :: rest)

/-- What follows the letter of an exponent. -/
def exponent (significand : Nat) (before : Int) : Reader Magnitude := fun text =>
  let (negative, digits) : Bool × List Char := match text with
    | '+' :: rest => (false, rest)
    | '-' :: rest => (true, rest)
    | rest => (false, rest)
  match digits with
  | [] => failAt .endInValue []
  | c :: _ =>
    if c.isDigit then
      match exponentDigits 0 digits with
      | (.ok e, rest) => finish significand (if negative then before - e else before + e) rest
      | (.error noticed, rest) =>
        if significand ≠ 0 ∧ !negative then failAt .numberOutOfRange noticed
        else .ok (.scaled 0, rest)
    else failPast .invalidNumber digits

/-- What follows the digits: nothing more, or an exponent. -/
def afterDigits (significand : Nat) (before : Int) : Reader Magnitude
  | 'e' :: rest | 'E' :: rest => exponent significand before rest
  | rest => finish significand before rest

/-- What follows the point. -/
def fraction (significand : Nat) (before : Int) : Reader Magnitude
  | [] => failPast .endInValue []
  | c :: more =>
    if c.isDigit then
      let (sum, count, rest) := gather significand (c :: more)
      afterDigits sum (before - count) (skipDigits rest)
    else failPast .invalidNumber (c :: more)

/-- What follows the digits before the point, `dropped` of them left out of the significand. -/
def afterWhole (significand dropped : Nat) : Reader Magnitude
  | '.' :: rest => fraction significand dropped rest
  | 'e' :: rest | 'E' :: rest => exponent significand dropped rest
  | rest => if dropped = 0 then .ok (.whole significand, rest) else finish significand dropped rest

/-- A number without its sign. A zero in front stands alone. -/
def magnitude : Reader Magnitude
  | [] => failAt .endInValue []
  | '0' :: rest =>
    match rest with
    | c :: _ => if c.isDigit then failPast .invalidNumber rest else afterWhole 0 0 rest
    | [] => afterWhole 0 0 rest
  | c :: more =>
    if c.isDigit then
      let (sum, _, rest) := gather 0 (c :: more)
      afterWhole sum (rest.takeWhile Char.isDigit).length (skipDigits rest)
    else failPast .invalidNumber (c :: more)

end WireSchema.Json
