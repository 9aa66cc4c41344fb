import WireSchema.Text.Utf8

/-! What the bytes of a text say about its characters. A byte below 128 is a character of its own,
and no byte of any other character is that small. -/

namespace WireSchema.Utf8

variable {c : Char} {text : List Char} {i : Nat} {b : UInt8}

@[simp] theorem encode_cons (c : Char) (text : List Char) :
    encode (c :: text) = String.utf8EncodeChar c ++ encode text := List.flatMap_cons

@[simp] theorem encode_append (text more : List Char) :
    encode (text ++ more) = encode text ++ encode more := List.flatMap_append

theorem encodeChar_of_lt (h : c.toNat < 128) :
    String.utf8EncodeChar c = [UInt8.ofNat c.toNat] := by
  have hv : c.val.toNat = c.toNat := rfl
  rw [String.utf8EncodeChar, hv]
  exact if_pos (by omega)

/-- The bytes of a character that is not small are not small either. -/
theorem le_of_mem_encodeChar (h : 128 ≤ c.toNat) (hb : b ∈ String.utf8EncodeChar c) :
    128 ≤ b.toNat := by
  have hv : c.val.toNat = c.toNat := rfl
  have hlarge {n : Nat} (hlow : 128 ≤ n) (hhigh : n < 256) : 128 ≤ (UInt8.ofNat n).toNat := by
    rwa [UInt8.toNat_ofNat_of_lt' hhigh]
  rw [String.utf8EncodeChar, hv] at hb
  rw [if_neg (by omega)] at hb
  split at hb
  · simp only [List.mem_cons, List.not_mem_nil, or_false] at hb
    obtain rfl | rfl := hb <;> exact hlarge (by omega) (by omega)
  · split at hb
    · simp only [List.mem_cons, List.not_mem_nil, or_false] at hb
      obtain rfl | rfl | rfl := hb <;> exact hlarge (by omega) (by omega)
    · simp only [List.mem_cons, List.not_mem_nil, or_false] at hb
      obtain rfl | rfl | rfl | rfl := hb <;> exact hlarge (by omega) (by omega)

/-- A small byte is all of its character. -/
theorem encodeChar_of_mem (hb : b ∈ String.utf8EncodeChar c) (h : b.toNat < 128) :
    c = Char.ofNat b.toNat ∧ String.utf8EncodeChar c = [b] := by
  by_cases hc : c.toNat < 128
  · have hsingle := encodeChar_of_lt hc
    rw [hsingle, List.mem_singleton] at hb
    rw [hb, UInt8.toNat_ofNat_of_lt' (show _ < 256 by omega), Char.ofNat_toNat]
    exact ⟨rfl, hsingle⟩
  · exact absurd h (Nat.not_lt.2 (le_of_mem_encodeChar (Nat.not_lt.1 hc) hb))

/-- Where a small byte stands, its character does. -/
theorem exists_char_of_byte (h : (encode text)[i]? = some b) (hb : b.toNat < 128) :
    ∃ before after, text = before ++ Char.ofNat b.toNat :: after ∧ size before = i := by
  induction text generalizing i with
  | nil => cases h
  | cons c text ih =>
    rw [encode_cons, List.getElem?_append] at h
    split at h
    · next hi =>
      obtain ⟨hc, hsingle⟩ := encodeChar_of_mem (List.mem_of_getElem? h) hb
      rw [hsingle, List.length_singleton] at hi
      exact ⟨[], text, congrArg (· :: text) hc, by rw [size_nil]; omega⟩
    · next hi =>
      obtain ⟨before, after, rfl, hsize⟩ := ih h
      rw [String.length_utf8EncodeChar] at hi hsize
      exact ⟨c :: before, after, rfl, by rw [size_cons]; omega⟩

end WireSchema.Utf8
