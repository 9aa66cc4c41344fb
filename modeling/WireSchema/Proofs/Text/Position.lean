import WireSchema.Text.Position

/-! Places grow with the offset. Each byte moves the place on, to the next column or to the next
line, so that two offsets of a text never have one place. -/

namespace WireSchema.Position

/-- One place comes before another: on an earlier line, or before it on the same line. -/
def Before (p q : Position) : Prop := p.line < q.line ∨ p.line = q.line ∧ p.column < q.column

variable {p q r : Position}

theorem Before.trans (h : p.Before q) (h' : q.Before r) : p.Before r := by
  unfold Before at *
  omega

theorem Before.ne (h : p.Before q) : p ≠ q := by
  rintro rfl
  unfold Before at h
  omega

theorem before_next (p : Position) (byte : UInt8) : p.Before (p.next byte) := by
  unfold next
  split
  · exact .inl (Nat.lt_succ_self _)
  · exact .inr ⟨rfl, Nat.lt_succ_self _⟩

theorem before_foldl {bytes : List UInt8} (h : bytes ≠ []) (p : Position) :
    p.Before (bytes.foldl next p) := by
  induction bytes generalizing p with
  | nil => exact absurd rfl h
  | cons byte more ih =>
    cases more with
    | nil => exact before_next p byte
    | cons second more => exact (before_next p byte).trans (ih (List.cons_ne_nil _ _) _)

/-- A later offset has a later place. -/
theorem ofOffset_before {text : List Char} {i j : Nat} (h : i < j) (hj : j ≤ Utf8.size text) :
    (ofOffset text i).Before (ofOffset text j) := by
  have hlength := Utf8.length_encode text
  have hsplit := List.take_append_drop i ((Utf8.encode text).take j)
  rw [List.take_take, Nat.min_eq_left (Nat.le_of_lt h)] at hsplit
  have hne : ((Utf8.encode text).take j).drop i ≠ [] := by
    rw [ne_eq, List.drop_eq_nil_iff, List.length_take]
    omega
  have hafter : (after ((Utf8.encode text).take i)).Before (after ((Utf8.encode text).take j)) := by
    rw [← hsplit, after, after, List.foldl_append]
    exact before_foldl hne _
  unfold Before at hafter ⊢
  dsimp only [ofOffset]
  omega

/-- Offsets up to the end of a text have different places. -/
theorem ofOffset_inj {text : List Char} {i j : Nat} (hi : i ≤ Utf8.size text)
    (hj : j ≤ Utf8.size text) (h : ofOffset text i = ofOffset text j) : i = j := by
  rcases Nat.lt_trichotomy i j with hlt | heq | hlt
  · exact absurd h (ofOffset_before hlt hj).ne
  · exact heq
  · exact absurd h.symm (ofOffset_before hlt hi).ne

end WireSchema.Position
