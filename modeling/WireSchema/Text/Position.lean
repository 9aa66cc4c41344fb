import WireSchema.Text.Utf8

/-! Lines and columns of byte offsets. -/

namespace WireSchema

/-- A place in a text. Lines count from one, columns are bytes. -/
structure Position where
  line : Nat
  column : Nat
  deriving DecidableEq, Repr

namespace Position

def start : Position := ⟨1, 0⟩

/-- Past one more byte. A line feed ends its line. -/
def next (p : Position) (byte : UInt8) : Position :=
  if byte = 10 then ⟨p.line + 1, 0⟩ else ⟨p.line, p.column + 1⟩

/-- The place after some bytes, its column being the number of them on its line. -/
def after (bytes : List UInt8) : Position := bytes.foldl next start

/-- The place of the byte at an offset, columns counting from one. Past the end is the end. -/
def ofOffset (text : List Char) (offset : Nat) : Position :=
  let p := after ((Utf8.encode text).take offset)
  ⟨p.line, p.column + 1⟩

end Position

end WireSchema
