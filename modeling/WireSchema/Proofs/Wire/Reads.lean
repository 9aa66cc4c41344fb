import WireSchema.Proofs.Bytes.Cursor
import WireSchema.Proofs.Bytes.LittleEndian
import WireSchema.Proofs.Outcome
import WireSchema.Wire.Decode

/-! Reads that take back what was written. Each knows bytes that it takes for a result,
whatever follows them. Of the same bytes cut off anywhere it says that they are too few,
and never that they are malformed or too long. -/

namespace WireSchema.Decode

/-- A read at a path takes these bytes for a result, and finds any part of them cut off short. -/
structure Reads {α : Type} (read : Cursor → Except Fault (α × Cursor)) (path : String)
    (bytes : List UInt8) (a : α) : Prop where
  whole : ∀ c rest, c.At (bytes ++ rest) → read c = .ok (a, c.advance bytes.length)
  cut : ∀ c m, m < bytes.length → c.At (bytes.take m) →
    ∃ needed remaining, read c = .error (.truncated path needed remaining)

variable {α β : Type} {path : String} {bytes : List UInt8}

namespace Reads

/-- One read after another, the second knowing what the first gave. -/
theorem bind {first : Cursor → Except Fault (α × Cursor)}
    (second : α → Cursor → Except Fault (β × Cursor)) {more : List UInt8} {a : α} {b : β}
    (ha : Reads first path bytes a) (hb : Reads (second a) path more b) :
    Reads (fun c => first c >>= fun (a, c) => second a c) path (bytes ++ more) b := by
  constructor
  · intro c rest hc
    rw [List.append_assoc] at hc
    have hsecond := hb.whole _ rest hc.advance
    rw [Cursor.advance_advance, ← List.length_append] at hsecond
    simpa only [ha.whole c _ hc, Outcome.ok_bind] using hsecond
  · intro c m hm hc
    rw [List.length_append] at hm
    rw [List.take_append] at hc
    by_cases hfirst : m < bytes.length
    · rw [show m - bytes.length = 0 by omega, List.take_zero, List.append_nil] at hc
      obtain ⟨needed, remaining, hcut⟩ := ha.cut c m hfirst hc
      exact ⟨needed, remaining, by simp only [hcut]; rfl⟩
    · rw [List.take_of_length_le (by omega)] at hc
      obtain ⟨needed, remaining, hcut⟩ := hb.cut _ (m - bytes.length) (by omega) hc.advance
      exact ⟨needed, remaining, by simpa only [ha.whole c _ hc, Outcome.ok_bind] using hcut⟩

/-- What is made of a result, once it is read, reads nothing more. -/
theorem andThen {read : Cursor → Except Fault (α × Cursor)} {a : α} {b : β}
    {f : α → Except Fault β} (ha : Reads read path bytes a) (hf : f a = .ok b) :
    Reads (fun c => do let (a, c) ← read c; let b ← f a; .ok (b, c)) path bytes b := by
  have hb : Reads (fun c => f a >>= fun b => .ok (b, c)) path [] b :=
    ⟨fun c rest _ => by rw [hf]; rfl, fun c m hm => absurd hm (Nat.not_lt_zero m)⟩
  rw [← List.append_nil bytes]
  exact ha.bind (fun a c => f a >>= fun b => .ok (b, c)) hb

end Reads

/-- A read of a fixed number of bytes. -/
theorem reads_expect {width : Nat} {f : List UInt8 → α}
    {taken : Cursor → Except Cursor.Fault α × Cursor}
    (ht : ∀ c, taken c = ((c.take width).1.map f, (c.take width).2))
    (hb : bytes.length = width) :
    Reads (fun c => expect c width path (taken c)) path bytes (f bytes) := by
  subst hb
  constructor
  · intro c rest hc
    simp only [ht, hc.take]
    rfl
  · intro c m hm hc
    have hshort : (bytes.take m).length < bytes.length := by
      rw [List.length_take]
      omega
    simp only [ht, hc.take_short hshort]
    exact ⟨_, _, rfl⟩

theorem reads_word {width : Nat} (hb : bytes.length = width) :
    Reads (fun c => expect c width path (c.word width)) path bytes (LittleEndian.decode bytes) :=
  reads_expect (fun _ => rfl) hb

/-- A number that fits in its word, taken for what it stands for. -/
theorem reads_bits {width n : Nat} {f : Nat → α} {taken : Cursor → Except Cursor.Fault α × Cursor}
    (ht : ∀ c, taken c = ((c.word width).1.map f, (c.word width).2)) (hn : n < 256 ^ width) :
    Reads (fun c => expect c width path (taken c)) path (LittleEndian.encode width n) (f n) := by
  have hword (c : Cursor) :
      taken c = ((c.take width).1.map (f ∘ LittleEndian.decode), (c.take width).2) := by
    rw [ht, Cursor.word]
    obtain ⟨outcome, after⟩ := c.take width
    cases outcome <;> rfl
  have h := @reads_expect _ path _ width _ _ hword (LittleEndian.length_encode width n)
  rwa [Function.comp_apply, LittleEndian.decode_encode, Nat.mod_eq_of_lt hn] at h

theorem reads_float32 (x : Binary32) :
    Reads (fun c => expect c 4 path c.float32) path (LittleEndian.encode 4 x.bits.toNat) x := by
  have h := @reads_bits _ path 4 _ _ Cursor.float32 (fun _ => rfl) x.bits.toNat_lt
  rwa [UInt32.ofNat_toNat] at h

theorem reads_float64 (x : Binary64) :
    Reads (fun c => expect c 8 path c.float64) path (LittleEndian.encode 8 x.bits.toNat) x := by
  have h := @reads_bits _ path 8 _ _ Cursor.float64 (fun _ => rfl) x.bits.toNat_lt
  rwa [UInt64.ofNat_toNat] at h

theorem reads_varint {n : Nat} (hn : n < 2 ^ 64) :
    Reads (fun c => varint c path) path (Varint.encode n) n := by
  constructor
  · intro c rest hc
    simp only [varint, hc.varint hn]
  · intro c m hm hc
    simp only [varint, hc.varint_cut hn hm]
    exact ⟨_, _, rfl⟩

/-- Bytes behind their length. The length may be cut off, or be there with too few bytes. -/
theorem reads_payload {limits : Limits} (hl : bytes.length ≤ limits.maxLength.toNat) :
    Reads (fun c => payload limits c path) path (Varint.encode bytes.length ++ bytes) bytes := by
  have hlength : Reads (fun c => varint c path) path (Varint.encode bytes.length) bytes.length :=
    reads_varint (Nat.lt_of_le_of_lt hl limits.maxLength.toNat_lt)
  have hbytes :
      Reads (fun c => expect c bytes.length path (c.take bytes.length)) path bytes bytes :=
    reads_expect (fun c => by rw [Except.map_id]) rfl
  refine hlength.bind (fun declared c =>
    if limits.maxLength.toNat < declared then
      .error (.tooLong path declared limits.maxLength.toNat)
    else expect c declared path (c.take declared)) ?_
  simpa only [if_neg (Nat.not_lt.2 hl)] using hbytes

end WireSchema.Decode
