import WireSchema.Number.Format

/-! Double and single precision numbers: a sign bit over a pattern. -/

namespace WireSchema

structure Binary64 where
  bits : UInt64
  deriving DecidableEq, Repr

structure Binary32 where
  bits : UInt32
  deriving DecidableEq, Repr

namespace Binary64

def ofPattern (negative : Bool) (pattern : Nat) : Binary64 :=
  ⟨UInt64.ofNat ((if negative then pow2 63 else 0) + pattern)⟩

def negative (x : Binary64) : Bool := decide (pow2 63 ≤ x.bits.toNat)

/-- The bits without the sign. -/
def pattern (x : Binary64) : Nat := x.bits.toNat % pow2 63

def isNaN (x : Binary64) : Bool := decide (Format.double.infinity < x.pattern)

def isFinite (x : Binary64) : Bool := decide (x.pattern < Format.double.infinity)

/-- What is no number, in its usual form. -/
def quietNaN : Binary64 := ⟨0x7ff8000000000000⟩

/-- The nearest number to an integer. -/
def ofInt64 (n : Int64) : Binary64 :=
  ofPattern (decide (n < 0)) (Format.double.ofNat n.toInt.natAbs)

/-- Equality of numbers: the two zeros are equal, and what is no number equals nothing. -/
def equal (x y : Binary64) : Bool :=
  !x.isNaN && !y.isNaN && (x == y || (x.pattern == 0 && y.pattern == 0))

/-- The value in units, of a finite number. -/
def signedUnits (x : Binary64) : Int :=
  if x.negative then -(Format.double.units x.pattern : Int) else Format.double.units x.pattern

/-- The integer that a number is exactly, if it is one of 64 bits. -/
def toInt64? (x : Binary64) : Option Int64 :=
  let unit : Int := pow2 Format.double.scale
  let whole := x.signedUnits / unit
  if x.isFinite ∧ x.signedUnits % unit = 0 ∧ -(pow2 63 : Int) ≤ whole ∧ whole < pow2 63 then
    some (Int64.ofInt whole)
  else none

end Binary64

namespace Binary32

def ofPattern (negative : Bool) (pattern : Nat) : Binary32 :=
  ⟨UInt32.ofNat ((if negative then pow2 31 else 0) + pattern)⟩

def negative (x : Binary32) : Bool := decide (pow2 31 ≤ x.bits.toNat)

def pattern (x : Binary32) : Nat := x.bits.toNat % pow2 31

def isNaN (x : Binary32) : Bool := decide (Format.single.infinity < x.pattern)

/-- Units of the double format in one unit of the single format, as a power of two. -/
def unitShift : Nat := Format.double.scale - Format.single.scale

end Binary32

/-- To the nearest single. What is too large becomes infinite; what is no number stays none,
made quiet, with the upper part of its fraction. -/
def Binary64.narrow (x : Binary64) : Binary32 :=
  if x.isNaN then
    let payload := x.pattern % pow2 52 / pow2 29
    .ofPattern x.negative (Format.single.infinity + pow2 22 + payload % pow2 22)
  else if x.isFinite then
    .ofPattern x.negative
      (Format.single.round (Format.double.units x.pattern) (pow2 Binary32.unitShift))
  else .ofPattern x.negative Format.single.infinity

/-- The same number as a double. What is no number becomes the quiet one with its payload. -/
def Binary32.widen (x : Binary32) : Binary64 :=
  if x.isNaN then
    let payload := x.pattern % pow2 23
    .ofPattern x.negative (Binary64.quietNaN.pattern + payload % pow2 22 * pow2 29)
  else if x.pattern < Format.single.infinity then
    .ofPattern x.negative (Format.double.round (Format.single.units x.pattern * pow2 unitShift) 1)
  else .ofPattern x.negative Format.double.infinity

end WireSchema
