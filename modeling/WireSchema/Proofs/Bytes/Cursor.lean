import WireSchema.Bytes.Cursor
import WireSchema.Proofs.Bytes.Varint

/-! What a cursor reads where known bytes are left. Bytes that were written are taken whole
and the cursor then stands before the bytes behind them; bytes that stop too early are
found short, and never taken for something else. Of bytes of any kind no read takes more
than there are. -/

namespace WireSchema.Cursor

theorem length_unread (c : Cursor) : c.unread.length = c.remaining := List.length_drop

theorem remaining_advance (c : Cursor) (n : Nat) :
    (c.advance n).remaining = c.remaining - n := by
  simp only [remaining, advance]
  omega

theorem remaining_ofBytes (bytes : List UInt8) : (ofBytes bytes).remaining = bytes.length := rfl

/-- The cursor stands within its data, and these bytes are left. -/
structure At (c : Cursor) (bytes : List UInt8) : Prop where
  within : c.index ≤ c.data.length
  unread : c.unread = bytes

theorem advance_advance (c : Cursor) (m n : Nat) : (c.advance m).advance n = c.advance (m + n) := by
  simp [advance, Nat.add_assoc]

theorem ofBytes_at (bytes : List UInt8) : (ofBytes bytes).At bytes :=
  ⟨Nat.zero_le _, rfl⟩

namespace At

variable {c : Cursor} {bytes rest : List UInt8} {n : Nat}

theorem remaining (h : c.At bytes) : c.remaining = bytes.length := by
  rw [← h.unread, length_unread]

theorem atEnd (h : c.At bytes) : c.atEnd = bytes.isEmpty := by
  have hlength : c.data.length - c.index = bytes.length := h.remaining
  rw [Cursor.atEnd, Bool.eq_iff_iff, decide_eq_true_eq, List.isEmpty_iff_length_eq_zero]
  omega

theorem advance (h : c.At (bytes ++ rest)) : (c.advance bytes.length).At rest := by
  have hlength : c.data.length - c.index = (bytes ++ rest).length := h.remaining
  have hwithin := h.within
  rw [List.length_append] at hlength
  constructor
  · simp only [Cursor.advance]
    omega
  · have hunread : c.data.drop c.index = bytes ++ rest := h.unread
    simp only [Cursor.unread, Cursor.advance]
    rw [← List.drop_drop, hunread, List.drop_left]

theorem take (h : c.At (bytes ++ rest)) :
    c.take bytes.length = (.ok bytes, c.advance bytes.length) := by
  have hrem := h.remaining
  have hwithin := h.within
  rw [List.length_append] at hrem
  rw [Cursor.take, if_neg (by omega), if_neg (by omega), h.unread, List.take_left]

theorem take_short (h : c.At bytes) (hn : bytes.length < n) : c.take n = (.error .short, c) := by
  rw [Cursor.take, if_pos (by rwa [h.remaining])]

theorem varint (h : c.At (Varint.encode n ++ rest)) (hn : n < 2 ^ 64) :
    c.varint = (.ok n, c.advance (Varint.encode n).length) := by
  rw [Cursor.varint, h.unread, Varint.read_encode rest hn]

theorem varint_cut {m : Nat} (h : c.At ((Varint.encode n).take m)) (hn : n < 2 ^ 64)
    (hm : m < (Varint.encode n).length) : c.varint = (.error .truncated, c.advance m) := by
  rw [Cursor.varint, h.unread, Varint.read_take hn hm]

end At

/-! ### Reading bytes of any kind -/

/-- The cursor does not stand past the end of its data. -/
def Within (c : Cursor) : Prop := c.index ≤ c.data.length

/-- A cursor on the same data, further on, and past the end only if it was there before. -/
structure Reaches (c after : Cursor) : Prop where
  data : after.data = c.data
  onward : c.index ≤ after.index
  bound : after.index ≤ max c.index c.data.length

theorem within_of_atEnd {c : Cursor} (h : ¬c.atEnd) : c.Within := by
  rw [atEnd, decide_eq_true_eq] at h
  unfold Within
  omega

namespace Reaches

variable {c after last : Cursor}

theorem rfl : c.Reaches c := ⟨Eq.refl _, Nat.le_refl _, Nat.le_max_left _ _⟩

theorem within (h : c.Reaches after) (hc : c.Within) : after.Within := by
  have hbound := h.bound
  unfold Within at *
  rw [h.data]
  omega

theorem trans (h : c.Reaches after) (hl : after.Reaches last) : c.Reaches last := by
  have hbound := h.bound
  have hlast := hl.bound
  rw [h.data] at hlast
  exact ⟨hl.data.trans h.data, Nat.le_trans h.onward hl.onward, by omega⟩

theorem advance {n : Nat} (h : n ≤ c.remaining) : c.Reaches (c.advance n) := by
  rw [remaining] at h
  refine ⟨Eq.refl _, Nat.le_add_right _ _, ?_⟩
  simp only [Cursor.advance]
  omega

end Reaches

/-- A read of `n` bytes: they are all taken, or there are too few and the cursor stays. -/
inductive Taken {α : Type} (c : Cursor) (n : Nat) : Except Fault α × Cursor → Prop
  | whole (a : α) (h : n ≤ c.remaining) : Taken c n (.ok a, c.advance n)
  | short (h : c.remaining < n) : Taken c n (.error .short, c)

theorem Taken.map {α β : Type} {c : Cursor} {n : Nat} {read : Except Fault α × Cursor} (f : α → β)
    (h : Taken c n read) : Taken c n (read.1.map f, read.2) := by
  cases h with
  | whole a h => exact .whole (f a) h
  | short h => exact .short h

section Taking
variable {c : Cursor}

/-- Only past the end is a read of no bytes refused. -/
theorem take_taken (hc : c.Within) (n : Nat) : Taken c n (c.take n) := by
  rw [take]
  split
  · next h => exact .short h
  · next h => rw [if_neg (Nat.not_lt.2 hc)]; exact .whole _ (Nat.not_lt.1 h)

theorem word_taken (hc : c.Within) (width : Nat) : Taken c width (c.word width) :=
  (take_taken hc width).map LittleEndian.decode

theorem float32_taken (hc : c.Within) : Taken c 4 c.float32 :=
  (word_taken hc 4).map fun n => (⟨UInt32.ofNat n⟩ : Binary32)

theorem float64_taken (hc : c.Within) : Taken c 8 c.float64 :=
  (word_taken hc 8).map fun n => (⟨UInt64.ofNat n⟩ : Binary64)

theorem varint_reaches (c : Cursor) : c.Reaches c.varint.2 := by
  have h := Varint.read_taken_le c.unread
  rw [length_unread] at h
  exact .advance h

/-- A number takes a byte at least, of those that are left. -/
theorem varint_eq_ok {mid : Cursor} {n : Nat} (h : c.varint = (.ok n, mid)) :
    c.index < mid.index ∧ mid.index - c.index + mid.remaining = c.remaining := by
  rw [varint] at h
  generalize hread : Varint.read c.unread = read at h
  obtain ⟨outcome, taken⟩ := read
  obtain ⟨rfl, rfl⟩ := Prod.mk.inj h
  obtain ⟨hpos, hle, -⟩ := Varint.read_ok hread
  rw [length_unread] at hle
  rw [remaining_advance]
  simp only [advance]
  omega

end Taking

end WireSchema.Cursor
