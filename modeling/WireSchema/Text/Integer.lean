import WireSchema.Number.Power
import WireSchema.Text.Digit

/-! Integers in decimal: their text, and reading them within the bounds of a width. -/

namespace WireSchema.Text

def natChars (n : Nat) : List Char := Nat.toDigits 10 n

def intChars : Int → List Char
  | .ofNat n => natChars n
  | .negSucc n => '-' :: natChars (n + 1)

def natText (n : Nat) : String := String.ofList (natChars n)

def intText (n : Int64) : String := String.ofList (intChars n.toInt)

/-- The value of a nonempty run of ASCII digits. -/
def nat? (text : List Char) : Option Nat :=
  if text ≠ [] ∧ text.all Char.isDigit then
    some (text.foldl (fun sum c => sum * 10 + digitValue c) 0)
  else none

/-- An optional sign and ASCII digits, when the value has 64 bits. -/
def int64? (text : List Char) : Option Int64 :=
  let value : Option Int :=
    match text with
    | '-' :: digits => (nat? digits).map fun n => -(n : Int)
    | '+' :: digits => (nat? digits).map fun n => (n : Int)
    | digits => (nat? digits).map fun n => (n : Int)
  value.bind fun n => if -(pow2 63 : Int) ≤ n ∧ n < pow2 63 then some (Int64.ofInt n) else none

end WireSchema.Text
