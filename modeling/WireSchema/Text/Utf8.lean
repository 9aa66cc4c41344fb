/-! UTF-8 on lists of bytes. Reading cuts the bytes into pieces: a character, or the
longest start of one that the next byte, or the end, keeps from being completed.
Strict reading refuses the first piece that is no character and says where it is;
lenient reading puts a replacement character for each. -/

namespace WireSchema.Utf8

def encode (text : List Char) : List UInt8 := text.flatMap String.utf8EncodeChar

/-- The number of bytes of a text. -/
def size : List Char → Nat
  | [] => 0
  | c :: text => c.utf8Size + size text

@[simp] theorem size_nil : size [] = 0 := rfl

@[simp] theorem size_cons (c : Char) (text : List Char) :
    size (c :: text) = c.utf8Size + size text := rfl

@[simp] theorem size_append (a b : List Char) : size (a ++ b) = size a + size b := by
  induction a with
  | nil => simp
  | cons c a ih => simp [ih, Nat.add_assoc]

theorem length_encode (text : List Char) : (encode text).length = size text := by
  induction text with
  | nil => rfl
  | cons c text ih => simpa [encode] using ih

inductive Piece where
  | char (c : Char)
  /-- A byte follows that cannot. -/
  | invalid (length : Nat)
  /-- The bytes end. -/
  | incomplete (length : Nat)
  deriving DecidableEq, Repr

/-- The rest of a character of which `seen` bytes are read: `more` bytes, the next of them
from `low` to `high`, the later ones any continuation. -/
def tailPiece : (more low high seen code : Nat) → List UInt8 → Piece × List UInt8
  | 0, _, _, _, code, rest => (.char (Char.ofNat code), rest)
  | _ + 1, _, _, seen, _, [] => (.incomplete seen, [])
  | more + 1, low, high, seen, code, byte :: rest =>
    if low ≤ byte.toNat ∧ byte.toNat ≤ high then
      tailPiece more 0x80 0xbf (seen + 1) (code * 64 + byte.toNat % 64) rest
    else (.invalid seen, byte :: rest)

/-- The piece that starts with a byte, and the bytes after it. The bounds of the second byte rule
out spellings that are too long, surrogates and numbers past the last character. -/
def piece (lead : UInt8) (rest : List UInt8) : Piece × List UInt8 :=
  let b := lead.toNat
  if b < 0x80 then (.char (Char.ofNat b), rest)
  else if b < 0xc2 then (.invalid 1, rest)
  else if b < 0xe0 then tailPiece 1 0x80 0xbf 1 (b % 32) rest
  else if b = 0xe0 then tailPiece 2 0xa0 0xbf 1 (b % 16) rest
  else if b = 0xed then tailPiece 2 0x80 0x9f 1 (b % 16) rest
  else if b < 0xf0 then tailPiece 2 0x80 0xbf 1 (b % 16) rest
  else if b = 0xf0 then tailPiece 3 0x90 0xbf 1 (b % 8) rest
  else if b < 0xf4 then tailPiece 3 0x80 0xbf 1 (b % 8) rest
  else if b = 0xf4 then tailPiece 3 0x80 0x8f 1 (b % 8) rest
  else (.invalid 1, rest)

theorem tailPiece_length_le (more low high seen code : Nat) (bytes : List UInt8) :
    (tailPiece more low high seen code bytes).2.length ≤ bytes.length := by
  induction more generalizing low high seen code bytes with
  | zero => simp [tailPiece]
  | succ more ih =>
    cases bytes with
    | nil => simp [tailPiece]
    | cons byte rest =>
      rw [tailPiece]
      split
      · exact Nat.le_succ_of_le (ih ..)
      · exact Nat.le_refl _

theorem piece_length_le (lead : UInt8) (rest : List UInt8) :
    (piece lead rest).2.length ≤ rest.length := by
  unfold piece
  dsimp only
  repeat' split
  all_goals first | exact Nat.le_refl _ | exact tailPiece_length_le ..

def pieces : List UInt8 → List Piece
  | [] => []
  | lead :: rest => (piece lead rest).1 :: pieces (piece lead rest).2
termination_by bytes => bytes.length
decreasing_by exact Nat.lt_succ_of_le (piece_length_le lead rest)

def replacement : Char := '\ufffd'

def decodeLenient (bytes : List UInt8) : List Char :=
  (pieces bytes).map fun
    | .char c => c
    | .invalid _ | .incomplete _ => replacement

inductive Fault where
  | invalid (length index : Nat)
  | incomplete (index : Nat)
  deriving DecidableEq, Repr

/-- The characters of the pieces, `index` bytes being before them. -/
def charsFrom : Nat → List Piece → Except Fault (List Char)
  | _, [] => .ok []
  | index, .char c :: more => (charsFrom (index + c.utf8Size) more).map (c :: ·)
  | index, .invalid length :: _ => .error (.invalid length index)
  | index, .incomplete _ :: _ => .error (.incomplete index)

def decode (bytes : List UInt8) : Except Fault (List Char) := charsFrom 0 (pieces bytes)

def Fault.message : Fault → String
  | .invalid length index => s!"invalid utf-8 sequence of {length} bytes from index {index}"
  | .incomplete index => s!"incomplete utf-8 byte sequence from index {index}"

end WireSchema.Utf8
