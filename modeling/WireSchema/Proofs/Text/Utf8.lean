import WireSchema.Text.Utf8

/-! Both ways of reading UTF-8 give back every text that was written in it. The bytes of a
character are one piece, whatever follows: its first byte says how many there are, and
the bounds on the second byte leave out no character. -/

namespace WireSchema.Utf8

/-- One more byte of a character. -/
theorem tailPiece_cons {more low high seen code b : Nat} {rest : List UInt8} (hb : b < 256)
    (hlow : low ≤ b) (hhigh : b ≤ high) :
    tailPiece (more + 1) low high seen code (UInt8.ofNat b :: rest) =
      tailPiece more 0x80 0xbf (seen + 1) (code * 64 + b % 64) rest := by
  have ht : (UInt8.ofNat b).toNat = b := UInt8.toNat_ofNat_of_lt' hb
  rw [tailPiece, if_pos ⟨by omega, by omega⟩, ht]

theorem tailPiece_zero {low high seen : Nat} {c : Char} {code : Nat} {rest : List UInt8}
    (h : code = c.toNat) : tailPiece 0 low high seen code rest = (.char c, rest) := by
  rw [tailPiece, h, Char.ofNat_toNat]

section Character
variable {c : Char}

theorem piece_one (h : c.toNat < 0x80) (rest : List UInt8) :
    piece (UInt8.ofNat c.toNat) rest = (.char c, rest) := by
  rw [piece, UInt8.toNat_ofNat_of_lt' (show _ < 256 by omega)]
  rw [if_pos h, Char.ofNat_toNat]

theorem piece_two (hlow : 0x80 ≤ c.toNat) (hhigh : c.toNat < 0x800) (rest : List UInt8) :
    piece (UInt8.ofNat (c.toNat / 64 % 0x20 + 0xc0))
      (UInt8.ofNat (c.toNat % 0x40 + 0x80) :: rest) = (.char c, rest) := by
  rw [piece, UInt8.toNat_ofNat_of_lt' (show _ < 256 by omega)]
  rw [if_neg (by omega), if_neg (by omega), if_pos (by omega),
    tailPiece_cons (by omega) (by omega) (by omega)]
  exact tailPiece_zero (by omega)

/-- The characters that take three bytes, whose first byte bounds the second. -/
theorem tail_three (hhigh : c.toNat < 0x10000) (low high : Nat)
    (hl : low ≤ c.toNat / 64 % 0x40 + 0x80) (hh : c.toNat / 64 % 0x40 + 0x80 ≤ high)
    (rest : List UInt8) :
    tailPiece 2 low high 1 ((c.toNat / 4096 % 0x10 + 0xe0) % 16)
      (UInt8.ofNat (c.toNat / 64 % 0x40 + 0x80) :: UInt8.ofNat (c.toNat % 0x40 + 0x80) :: rest) =
        (.char c, rest) := by
  rw [tailPiece_cons (by omega) hl hh, tailPiece_cons (by omega) (by omega) (by omega)]
  exact tailPiece_zero (by omega)

theorem piece_three (hlow : 0x800 ≤ c.toNat) (hhigh : c.toNat < 0x10000) (rest : List UInt8) :
    piece (UInt8.ofNat (c.toNat / 4096 % 0x10 + 0xe0))
      (UInt8.ofNat (c.toNat / 64 % 0x40 + 0x80) :: UInt8.ofNat (c.toNat % 0x40 + 0x80) :: rest) =
        (.char c, rest) := by
  have hvalid : c.toNat < 0xd800 ∨ 0xdfff < c.toNat ∧ c.toNat < 0x110000 := c.valid
  rw [piece, UInt8.toNat_ofNat_of_lt' (show _ < 256 by omega)]
  rw [if_neg (by omega), if_neg (by omega), if_neg (by omega)]
  by_cases h0 : c.toNat < 0x1000
  · rw [if_pos (by omega)]
    exact tail_three hhigh _ _ (by omega) (by omega) rest
  · rw [if_neg (by omega)]
    by_cases hd : 0xd000 ≤ c.toNat ∧ c.toNat < 0xe000
    · rw [if_pos (by omega)]
      exact tail_three hhigh _ _ (by omega) (by omega) rest
    · rw [if_neg (by omega), if_pos (by omega)]
      exact tail_three hhigh _ _ (by omega) (by omega) rest

/-- The characters that take four bytes, whose first byte bounds the second. -/
theorem tail_four (hhigh : c.toNat < 0x110000) (low high : Nat)
    (hl : low ≤ c.toNat / 4096 % 0x40 + 0x80) (hh : c.toNat / 4096 % 0x40 + 0x80 ≤ high)
    (rest : List UInt8) :
    tailPiece 3 low high 1 ((c.toNat / 262144 % 0x08 + 0xf0) % 8)
      (UInt8.ofNat (c.toNat / 4096 % 0x40 + 0x80) :: UInt8.ofNat (c.toNat / 64 % 0x40 + 0x80) ::
        UInt8.ofNat (c.toNat % 0x40 + 0x80) :: rest) = (.char c, rest) := by
  rw [tailPiece_cons (by omega) hl hh, tailPiece_cons (by omega) (by omega) (by omega),
    tailPiece_cons (by omega) (by omega) (by omega)]
  exact tailPiece_zero (by omega)

theorem piece_four (hlow : 0x10000 ≤ c.toNat) (rest : List UInt8) :
    piece (UInt8.ofNat (c.toNat / 262144 % 0x08 + 0xf0))
      (UInt8.ofNat (c.toNat / 4096 % 0x40 + 0x80) :: UInt8.ofNat (c.toNat / 64 % 0x40 + 0x80) ::
        UInt8.ofNat (c.toNat % 0x40 + 0x80) :: rest) = (.char c, rest) := by
  have hvalid : c.toNat < 0xd800 ∨ 0xdfff < c.toNat ∧ c.toNat < 0x110000 := c.valid
  have hhigh : c.toNat < 0x110000 := by omega
  rw [piece, UInt8.toNat_ofNat_of_lt' (show _ < 256 by omega)]
  rw [if_neg (by omega), if_neg (by omega), if_neg (by omega), if_neg (by omega),
    if_neg (by omega), if_neg (by omega)]
  by_cases h0 : c.toNat < 0x40000
  · rw [if_pos (by omega)]
    exact tail_four hhigh _ _ (by omega) (by omega) rest
  · rw [if_neg (by omega)]
    by_cases h4 : c.toNat < 0x100000
    · rw [if_pos (by omega)]
      exact tail_four hhigh _ _ (by omega) (by omega) rest
    · rw [if_neg (by omega), if_pos (by omega)]
      exact tail_four hhigh _ _ (by omega) (by omega) rest

theorem pieces_encodeChar (c : Char) (rest : List UInt8) :
    pieces (String.utf8EncodeChar c ++ rest) = .char c :: pieces rest := by
  have hstep {lead : UInt8} {tail : List UInt8} (h : piece lead tail = (.char c, rest)) :
      pieces (lead :: tail) = .char c :: pieces rest := by rw [pieces, h]
  have hv : c.val.toNat = c.toNat := rfl
  rw [String.utf8EncodeChar, hv]
  split
  · exact hstep (piece_one (by omega) rest)
  · split
    · exact hstep (piece_two (by omega) (by omega) rest)
    · split
      · exact hstep (piece_three (by omega) (by omega) rest)
      · exact hstep (piece_four (by omega) rest)

end Character

theorem pieces_encode (text : List Char) : pieces (encode text) = text.map .char := by
  induction text with
  | nil => rw [encode, List.flatMap_nil, pieces, List.map_nil]
  | cons c text ih =>
    have h : encode (c :: text) = String.utf8EncodeChar c ++ encode text := List.flatMap_cons
    rw [h, pieces_encodeChar, ih, List.map_cons]

theorem decodeLenient_encode (text : List Char) : decodeLenient (encode text) = text := by
  rw [decodeLenient, pieces_encode, List.map_map]
  exact List.map_id text

theorem charsFrom_map (index : Nat) (text : List Char) :
    charsFrom index (text.map .char) = .ok text := by
  induction text generalizing index with
  | nil => rfl
  | cons c text ih =>
    rw [List.map_cons, charsFrom, ih]
    rfl

theorem decode_encode (text : List Char) : decode (encode text) = .ok text := by
  rw [decode, pieces_encode, charsFrom_map]

end WireSchema.Utf8
