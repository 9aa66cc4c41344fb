import WireSchema.Number.Binary
import WireSchema.Text.Integer

/-! The shortest decimal of a double, and its text. The numbers that read back as a
given double form an interval that reaches half way to its two neighbours; the ends
belong to it when the pattern is even. Going from coarse powers of ten to fine ones,
the first that has a multiple inside gives the fewest digits, and of the multiples
just below and just above the double the nearer is taken, or the even one if both are
equally near. -/

namespace WireSchema

/-- The number `digits * 10 ^ exponent`. -/
structure Decimal where
  digits : Nat
  exponent : Int
  deriving DecidableEq, Repr

namespace Decimal

/-- Powers of ten count down from this one, above all finite doubles. -/
def topExponent : Nat := 308

/-- One more than the steps down to the power of ten below the least positive double. -/
def gridCount : Nat := 633

/-- Half units in `10 ^ topExponent`, so that a grid's step is this over a power of ten. -/
def coarsestStep : Nat := pow10 topExponent * pow2 (Format.double.scale + 1)

/-- Whether `digits` steps of the grid read back as the pattern. Both sides are scaled by the
same power of ten. -/
def readsBack (pattern digits power : Nat) : Bool :=
  let point := digits * coarsestStep
  let here := Format.double.units pattern
  let low := (Format.double.units (pattern - 1) + here) * power
  let high := (here + Format.double.units (pattern + 1)) * power
  if pattern % 2 = 0 then low ≤ point && point ≤ high else low < point && point < high

/-- The multiple on one grid that reads back and is nearest, if any does. -/
def onGrid? (pattern step : Nat) : Option Decimal :=
  let power := pow10 step
  let exponent : Int := (topExponent : Int) - step
  let exact := 2 * Format.double.units pattern * power
  let below := exact / coarsestStep
  let above := below + 1
  match readsBack pattern below power, readsBack pattern above power with
  | true, true => some ⟨roundHalfEven exact coarsestStep, exponent⟩
  | true, false => some ⟨below, exponent⟩
  | false, true => some ⟨above, exponent⟩
  | false, false => none

/-- Where to start: a grid with steps of twice the double or more has no multiple that reads
back. The factor is a little less than the logarithm of two. -/
def firstStep (pattern : Nat) : Nat :=
  (coarsestStep / (4 * Format.double.units pattern)).log2 * 30102 / 100000

/-- The shortest decimal of a positive finite pattern. -/
def shortest (pattern : Nat) : Decimal :=
  let start := firstStep pattern
  ((List.range' start (gridCount - start)).findSome? (onGrid? pattern)).getD ⟨0, 0⟩

/-- Where positional notation starts and ends, as powers of ten: from `lowest` on, below
`limit`. -/
structure Style where
  lowest : Int
  limit : Int

/-- Positional from a hundred-thousandth to below ten quadrillion. -/
def jsonStyle : Style := ⟨-5, 16⟩

/-- Positional notation has a digit on either side of the point. In the other notation one digit
stands before the point, the point is left out when nothing follows, and the exponent has a
sign. -/
def chars (style : Style) (d : Decimal) : List Char :=
  let digits := Text.natChars d.digits
  let leading : Int := d.exponent + digits.length - 1
  if style.lowest ≤ leading ∧ leading < style.limit then
    if 0 ≤ d.exponent then digits ++ List.replicate d.exponent.toNat '0' ++ ['.', '0']
    else if 0 ≤ leading then
      digits.take (leading.toNat + 1) ++ ['.'] ++ digits.drop (leading.toNat + 1)
    else ['0', '.'] ++ List.replicate ((-leading).toNat - 1) '0' ++ digits
  else
    let fraction := match digits.tail with
      | [] => []
      | more => '.' :: more
    let sign := if leading < 0 then '-' else '+'
    digits.take 1 ++ fraction ++ ['e', sign] ++ Text.natChars leading.natAbs

end Decimal

/-- A finite double, the zeros with one digit after the point. -/
def Binary64.chars (x : Binary64) : List Char :=
  let magnitude :=
    if x.pattern = 0 then ['0', '.', '0']
    else (Decimal.shortest x.pattern).chars Decimal.jsonStyle
  if x.negative then '-' :: magnitude else magnitude

end WireSchema
