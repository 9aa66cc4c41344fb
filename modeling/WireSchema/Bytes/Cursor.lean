import WireSchema.Bytes.LittleEndian
import WireSchema.Bytes.Varint
import WireSchema.Number.Binary

/-! Reading bytes from an index on. A cursor may stand past the end, where nothing is
left to read. Every read gives an outcome and the cursor after it: a failed read
leaves the cursor where it was, but for a base-128 number, which keeps the bytes it
has looked at. -/

namespace WireSchema

structure Cursor where
  data : List UInt8
  index : Nat
  deriving DecidableEq, Repr

namespace Cursor

inductive Fault where
  /-- Fewer bytes are left than were asked for. -/
  | short
  /-- No bytes were asked for at a place past the end, where there is no such slice. -/
  | pastEnd
  deriving DecidableEq, Repr

def ofBytes (data : List UInt8) : Cursor := ⟨data, 0⟩

def unread (c : Cursor) : List UInt8 := c.data.drop c.index

def remaining (c : Cursor) : Nat := c.data.length - c.index

def atEnd (c : Cursor) : Bool := decide (c.data.length ≤ c.index)

def advance (c : Cursor) (n : Nat) : Cursor := { c with index := c.index + n }

/-- The next `n` bytes. -/
def take (c : Cursor) (n : Nat) : Except Fault (List UInt8) × Cursor :=
  if c.remaining < n then (.error .short, c)
  else if c.data.length < c.index then (.error .pastEnd, c)
  else (.ok (c.unread.take n), c.advance n)

/-- A word of `width` bytes. -/
def word (c : Cursor) (width : Nat) : Except Fault Nat × Cursor :=
  let (outcome, after) := c.take width
  (outcome.map LittleEndian.decode, after)

/-- A word of `width` bytes in two's complement. -/
def signedWord (c : Cursor) (width : Nat) : Except Fault Int × Cursor :=
  let (outcome, after) := c.word width
  (outcome.map (LittleEndian.signed width), after)

def float32 (c : Cursor) : Except Fault Binary32 × Cursor :=
  let (outcome, after) := c.word 4
  (outcome.map fun n => ⟨UInt32.ofNat n⟩, after)

def float64 (c : Cursor) : Except Fault Binary64 × Cursor :=
  let (outcome, after) := c.word 8
  (outcome.map fun n => ⟨UInt64.ofNat n⟩, after)

def varint (c : Cursor) : Except Varint.Fault Nat × Cursor :=
  let (outcome, taken) := Varint.read c.unread
  (outcome, c.advance taken)

end Cursor

end WireSchema
