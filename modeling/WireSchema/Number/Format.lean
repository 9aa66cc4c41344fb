import WireSchema.Number.Power

/-! Binary floating-point numbers by their bit patterns, in exact arithmetic. A
nonnegative number is a pattern: exponent field, then fraction. Read as a natural
number the pattern grows with the number, so the next number is the next pattern.
Every finite number is a natural multiple of the least positive one, its unit, and
an operation rounds the exact result, a quotient of units, to the nearest pattern,
of two equally near the even one. -/

namespace WireSchema

/-- The nearest natural number to a quotient, and of two the even one. -/
def roundHalfEven (num den : Nat) : Nat :=
  let floor := num / den
  let twice := 2 * (num % den)
  if twice < den then floor
  else if den < twice then floor + 1
  else floor + floor % 2

structure Format where
  exponentBits : Nat
  fractionBits : Nat

namespace Format

def double : Format := ⟨11, 52⟩

def single : Format := ⟨8, 23⟩

variable (f : Format)

/-- The pattern of infinity. Finite numbers lie below it, and what lies above is no number. -/
def infinity : Nat := (pow2 f.exponentBits - 1) * pow2 f.fractionBits

/-- One is `pow2 scale` units. -/
def scale : Nat := pow2 (f.exponentBits - 1) - 2 + f.fractionBits

/-- The value of a finite pattern, in units. -/
def units (pattern : Nat) : Nat :=
  let exponent := pattern / pow2 f.fractionBits
  let fraction := pattern % pow2 f.fractionBits
  if exponent = 0 then fraction else (pow2 f.fractionBits + fraction) * pow2 (exponent - 1)

/-- The pattern nearest to a number of units given as a quotient. A carry out of the fraction
moves into the exponent field by itself. -/
def round (num den : Nat) : Nat :=
  let shift := (num / den).log2 - f.fractionBits
  min (shift * pow2 f.fractionBits + roundHalfEven num (den * pow2 shift)) f.infinity

def ofNat (n : Nat) : Nat := f.round (n * pow2 f.scale) 1

def mul (a b : Nat) : Nat := f.round (f.units a * f.units b) (pow2 f.scale)

def div (a b : Nat) : Nat := f.round (f.units a * pow2 f.scale) (f.units b)

end Format

end WireSchema
