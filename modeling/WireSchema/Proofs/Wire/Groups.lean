import Mathlib.Algebra.BigOperators.Ring.Finset
import WireSchema.Bytes.Item
import WireSchema.Proofs.Bytes.Cursor
import WireSchema.Proofs.Bytes.Item
import WireSchema.Wire.Decode

/-! Base-128 numbers in bytes of any kind. A number ends at the first byte without the high bit, and
is read just when this is one of the first ten and the groups up to it add up to 64 bits or less.
All other bytes are refused, ten of them as too large and fewer as too short. What is written is
the one shortest spelling. -/

namespace WireSchema

namespace Varint

/-! ### Groups -/

/-- Where a number ends: the first byte without the high bit. -/
def last? (bytes : List UInt8) : Option Nat := bytes.findIdx? fun byte => byte.toNat < 128

/-- What the groups up to a byte add up to. -/
def groups (bytes : List UInt8) (k : Nat) : Nat :=
  ∑ i ∈ Finset.range (k + 1), (bytes.getD i 0).toNat % 128 * 128 ^ i

variable {byte : UInt8} {bytes rest : List UInt8} {k n room scale sum taken : Nat} {fault : Fault}

theorem last?_cons_of_lt (h : byte.toNat < 128) : last? (byte :: rest) = some 0 := by
  simp [last?, List.findIdx?_cons, h]

theorem last?_cons_of_le (h : 128 ≤ byte.toNat) :
    last? (byte :: rest) = (last? rest).map (· + 1) := by
  simp [last?, List.findIdx?_cons, Nat.not_lt.2 h]

theorem groups_zero (byte : UInt8) (rest : List UInt8) :
    groups (byte :: rest) 0 = byte.toNat % 128 := by
  simp [groups]

theorem groups_succ (byte : UInt8) (rest : List UInt8) (k : Nat) :
    groups (byte :: rest) (k + 1) = byte.toNat % 128 + 128 * groups rest k := by
  rw [groups, Finset.sum_range_succ', Nat.add_comm, groups, Finset.mul_sum]
  congr 1
  · simp
  · refine Finset.sum_congr rfl fun i _ => ?_
    rw [List.getD_cons_succ]
    ring

/-! ### Reading -/

/-- Where a reading stands with room for so many bytes: the weight of the next group, and earlier
groups that add up to less. -/
structure Standing (room scale sum : Nat) : Prop where
  weight : scale * 128 ^ room = 128 ^ 10
  below : sum < scale

theorem standing_start : Standing maxLength 1 0 := ⟨by decide, Nat.one_pos⟩

theorem Standing.next (h : Standing (room + 1) scale sum) (byte : UInt8) :
    Standing room (scale * 128) (sum + byte.toNat % 128 * scale) := by
  have hbelow := h.below
  have hgroup : byte.toNat % 128 * scale ≤ 127 * scale :=
    Nat.mul_le_mul_right scale (Nat.le_of_lt_succ (Nat.mod_lt _ (by decide)))
  refine ⟨?_, by omega⟩
  rw [← h.weight, Nat.pow_succ]
  ring

/-- Only with the last byte that there is room for may a number become too large. -/
theorem Standing.room_eq_zero (h : Standing room scale sum) (hlarge : 2 ^ 64 ≤ sum) : room = 0 := by
  have hbelow := h.below
  cases room with
  | zero => rfl
  | succ more =>
    have hweight : scale * 128 ≤ 128 ^ 10 :=
      h.weight ▸ Nat.mul_le_mul_left scale (Nat.le_self_pow (Nat.succ_ne_zero more) 128)
    omega

/-- How bytes may be read: whole, as too large or as too short. -/
inductive Reads (room scale sum : Nat) (bytes : List UInt8) : Except Fault Nat × Nat → Prop
  | whole {k : Nat} (hk : k < room) (ends : last? bytes = some k)
      (fits : sum + scale * groups bytes k < 2 ^ 64) :
      Reads room scale sum bytes (.ok (sum + scale * groups bytes k), k + 1)
  | large (enough : room ≤ bytes.length)
      (exceeds : ∀ k < room, last? bytes = some k → 2 ^ 64 ≤ sum + scale * groups bytes k) :
      Reads room scale sum bytes (.error .overflow, room)
  | short (few : bytes.length < room) (endless : last? bytes = none) :
      Reads room scale sum bytes (.error .truncated, bytes.length)

theorem readGroups_reads (h : Standing room scale sum) (bytes : List UInt8) :
    Reads room scale sum bytes (readGroups room scale sum bytes) := by
  induction room generalizing scale sum bytes with
  | zero => exact .large (Nat.zero_le _) fun k hk => absurd hk (Nat.not_lt_zero k)
  | succ room ih =>
    cases bytes with
    | nil => exact .short (Nat.succ_pos room) rfl
    | cons byte rest =>
      have hnext := h.next byte
      by_cases hover : 2 ^ 64 ≤ sum + byte.toNat % 128 * scale
      · obtain rfl := hnext.room_eq_zero hover
        rw [readGroups, if_pos (by rwa [pow2_eq])]
        refine .large (by simp) fun k hk _ => ?_
        obtain rfl : k = 0 := by omega
        rwa [groups_zero, Nat.mul_comm]
      by_cases hbyte : byte.toNat < 128
      · have hread : Reads (room + 1) scale sum (byte :: rest) _ :=
          .whole (Nat.succ_pos room) (last?_cons_of_lt hbyte)
            (by rw [groups_zero, Nat.mul_comm]; omega)
        rw [groups_zero, Nat.mod_eq_of_lt hbyte, Nat.mul_comm] at hread
        rw [Nat.mod_eq_of_lt hbyte] at hover
        rwa [readGroups_last hbyte (Nat.not_le.1 hover)]
      · rw [Nat.not_lt] at hbyte
        have hlast : last? (byte :: rest) = (last? rest).map (· + 1) := last?_cons_of_le hbyte
        have hsum (k : Nat) : sum + byte.toNat % 128 * scale + scale * 128 * groups rest k =
            sum + scale * groups (byte :: rest) (k + 1) := by
          rw [groups_succ]
          ring
        rw [readGroups_more hbyte (Nat.not_le.1 hover)]
        have hrest := ih hnext rest
        generalize readGroups room (scale * 128) (sum + byte.toNat % 128 * scale) rest = read
          at hrest
        cases hrest with
        | @whole k hk ends fits =>
          rw [hsum] at fits ⊢
          exact .whole (Nat.succ_lt_succ hk) (by rw [hlast, ends, Option.map_some]) fits
        | large enough exceeds =>
          refine .large (Nat.succ_le_succ enough) fun k hk hends => ?_
          rw [hlast, Option.map_eq_some_iff] at hends
          obtain ⟨k, hends, rfl⟩ := hends
          rw [← hsum]
          exact exceeds k (Nat.lt_of_succ_lt_succ hk) hends
        | short few endless =>
          exact .short (Nat.succ_lt_succ few) (by rw [hlast, endless, Option.map_none])

theorem read_reads (bytes : List UInt8) : Reads maxLength 1 0 bytes (read bytes) :=
  readGroups_reads standing_start bytes

/-- A number is read just when it ends within ten bytes and fits. -/
theorem read_eq_ok : read bytes = (.ok n, taken) ↔
    ∃ k ≤ 9, last? bytes = some k ∧ n = groups bytes k ∧ n < 2 ^ 64 ∧ taken = k + 1 := by
  have hread := read_reads bytes
  constructor
  · intro h
    rw [h] at hread
    cases hread with
    | whole hk ends fits =>
      refine ⟨_, Nat.le_of_lt_succ hk, ends, ?_, fits, rfl⟩
      rw [Nat.zero_add, Nat.one_mul]
  · rintro ⟨k, hk, hends, rfl, hfits, rfl⟩
    generalize read bytes = result at hread
    cases hread with
    | whole hk' ends fits =>
      obtain rfl := Option.some.inj (hends.symm.trans ends)
      rw [Nat.zero_add, Nat.one_mul]
    | large enough exceeds =>
      have hlarge := exceeds k (Nat.lt_succ_of_le hk) hends
      omega
    | short few endless => rw [endless] at hends; cases hends

/-- What is refused takes ten bytes if there are as many, and else all. -/
theorem read_eq_error (h : read bytes = (.error fault, taken)) :
    (maxLength ≤ bytes.length ∧ fault = .overflow ∧ taken = maxLength) ∨
      (bytes.length < maxLength ∧ fault = .truncated ∧ taken = bytes.length) := by
  have hread := read_reads bytes
  rw [h] at hread
  cases hread with
  | large enough exceeds => exact .inl ⟨enough, rfl, rfl⟩
  | short few endless => exact .inr ⟨few, rfl, rfl⟩

/-! ### The shortest spelling -/

/-- No spelling of a number is shorter than the one that is written, and none as short differs. -/
theorem encode_groups (h : last? bytes = some k) :
    (encode (groups bytes k)).length ≤ k + 1 ∧
      ((encode (groups bytes k)).length = k + 1 →
        bytes.take (k + 1) = encode (groups bytes k)) := by
  induction bytes generalizing k with
  | nil => cases h
  | cons byte rest ih =>
    by_cases hbyte : byte.toNat < 128
    · rw [last?_cons_of_lt hbyte] at h
      obtain rfl := Option.some.inj h
      rw [groups_zero, Nat.mod_eq_of_lt hbyte, encode_of_lt hbyte, UInt8.ofNat_toNat]
      exact ⟨Nat.le_refl _, fun _ => rfl⟩
    · rw [last?_cons_of_le (Nat.not_lt.1 hbyte)] at h
      obtain ⟨k, hends, rfl⟩ := Option.map_eq_some_iff.1 h
      obtain ⟨hle, heq⟩ := ih hends
      have hbyte' := byte.toNat_lt
      rw [groups_succ]
      by_cases hsmall : byte.toNat % 128 + 128 * groups rest k < 128
      · rw [encode_of_lt hsmall]
        exact ⟨by simp, fun h => by simp at h⟩
      · have hdiv : (byte.toNat % 128 + 128 * groups rest k) / 128 = groups rest k := by omega
        have hbyte'' : (byte.toNat % 128 + 128 * groups rest k) % 128 + 128 = byte.toNat := by omega
        rw [encode_of_le (Nat.not_lt.1 hsmall), hdiv, hbyte'', UInt8.ofNat_toNat, List.length_cons,
          List.take_succ_cons]
        exact ⟨Nat.succ_le_succ hle, fun h => congrArg _ (heq (Nat.succ.inj h))⟩

theorem encode_shortest (h : (read bytes).1 = .ok n) :
    (encode n).length ≤ bytes.length ∧ (bytes.length = (encode n).length → bytes = encode n) := by
  generalize htaken : (read bytes).2 = taken
  have hread : read bytes = (.ok n, taken) := Prod.ext h htaken
  obtain ⟨-, hle, -⟩ := read_ok hread
  obtain ⟨k, -, hends, rfl, -, rfl⟩ := read_eq_ok.1 hread
  obtain ⟨hshort, hsame⟩ := encode_groups hends
  refine ⟨hshort.trans hle, fun hlength => ?_⟩
  rw [← hsame (by omega), List.take_of_length_le (by omega)]

end Varint

namespace Cursor

/-- A cursor moves by what is taken of the unread bytes. -/
theorem varint_eq {c after : Cursor} {outcome : Except Varint.Fault Nat} :
    c.varint = (outcome, after) ↔
      ∃ taken, Varint.read c.unread = (outcome, taken) ∧ after = c.advance taken := by
  rw [varint, Prod.mk.injEq]
  constructor
  · rintro ⟨rfl, rfl⟩
    exact ⟨_, rfl, rfl⟩
  · rintro ⟨taken, hread, rfl⟩
    exact ⟨congrArg Prod.fst hread, congrArg (c.advance ·.2) hread⟩

/-- Behind what was written before. -/
theorem At.written (before bytes : List UInt8) : At ⟨before ++ bytes, before.length⟩ bytes :=
  ⟨by simp, List.drop_left⟩

/-- A number is read from a cursor just when one of the next ten bytes is the first without the high
bit and the groups up to it add up to 64 bits or less, and then so many bytes are taken. Otherwise
ten bytes are taken where there are as many, which is reported as a number too large, and else all,
which is reported as a byte too few. A number that is written takes the bytes that were computed
for it, is read back from them whatever follows, and has no other spelling that is as short. -/
theorem varint_exact (c : Cursor) :
    (∀ n after, c.varint = (.ok n, after) ↔
      ∃ k ≤ 9, (c.unread.findIdx? fun byte => byte.toNat < 128) = some k ∧
        n = ∑ i ∈ Finset.range (k + 1), (c.unread.getD i 0).toNat % 128 * 128 ^ i ∧
          n < 2 ^ 64 ∧ after = c.advance (k + 1)) ∧
    (∀ fault after, c.varint = (.error fault, after) → ∀ path,
      (10 ≤ c.remaining → after = c.advance 10 ∧
        Decode.varint c path = .error (.malformed path .varintOverflow)) ∧
      (c.remaining < 10 → after = c.advance c.remaining ∧
        Decode.varint c path = .error (.truncated path (c.remaining + 1) c.remaining))) ∧
    ∀ n : UInt64,
      (∀ items, Item.encodeAll (items ++ [.varint n]) =
        Item.encodeAll items ++ Varint.encode n.toNat) ∧
      (Varint.encode n.toNat).length = Varint.length n.toNat ∧
      (∀ before rest, varint ⟨before ++ Varint.encode n.toNat ++ rest, before.length⟩ =
        (.ok n.toNat, ⟨before ++ Varint.encode n.toNat ++ rest,
          (before ++ Varint.encode n.toNat).length⟩)) ∧
      ∀ bytes, (Varint.read bytes).1 = .ok n.toNat →
        (Varint.encode n.toNat).length ≤ bytes.length ∧
          (bytes.length = (Varint.encode n.toNat).length → bytes = Varint.encode n.toNat) := by
  refine ⟨fun n after => ?_, fun fault after h path => ?_, fun n => ⟨fun items => ?_,
    Varint.length_encode n.toNat, fun before rest => ?_, fun bytes => Varint.encode_shortest⟩⟩
  · rw [varint_eq]
    simp only [Varint.read_eq_ok]
    constructor
    · rintro ⟨_, ⟨k, hk, hends, hn, hfits, rfl⟩, rfl⟩
      exact ⟨k, hk, hends, hn, hfits, rfl⟩
    · rintro ⟨k, hk, hends, hn, hfits, rfl⟩
      exact ⟨k + 1, ⟨k, hk, hends, hn, hfits, rfl⟩, rfl⟩
  · obtain ⟨taken, hread, rfl⟩ := varint_eq.1 h
    have hrefused := Varint.read_eq_error hread
    rw [length_unread] at hrefused
    refine ⟨fun henough => ?_, fun hfew => ?_⟩
    · obtain ⟨-, rfl, rfl⟩ | ⟨hlt, -, -⟩ := hrefused
      · exact ⟨rfl, by rw [Decode.varint, h]⟩
      · exact absurd henough (Nat.not_le.2 hlt)
    · obtain ⟨hle, -, -⟩ | ⟨-, rfl, rfl⟩ := hrefused
      · exact absurd hfew (Nat.not_lt.2 hle)
      · exact ⟨rfl, by rw [Decode.varint, h]⟩
  · rw [Item.encodeAll_append, Item.encodeAll_cons, Item.encodeAll_nil, List.append_nil]
    rfl
  · have hat := At.written before (Varint.encode n.toNat ++ rest)
    rw [← List.append_assoc] at hat
    rw [hat.varint n.toNat_lt, List.length_append]
    rfl

/-- Three hundred behind another byte, bytes that end inside a number, eleven bytes that announce
another one, and the one shortest spelling of three hundred. -/
theorem varint_exact_sample :
    varint ⟨[7, 172, 2, 9], 1⟩ = (.ok 300, ⟨[7, 172, 2, 9], 3⟩) ∧
      Decode.varint ⟨[172, 130], 0⟩ "S.e" = .error (.truncated "S.e" 3 2) ∧
      Decode.varint ⟨List.replicate 11 128, 0⟩ "S.e" = .error (.malformed "S.e" .varintOverflow) ∧
      [172, 2] = Varint.encode 300 := by
  refine ⟨?_, ?_, ?_, ?_⟩
  · exact ((varint_exact ⟨[7, 172, 2, 9], 1⟩).1 300 ⟨[7, 172, 2, 9], 3⟩).2
      ⟨1, by decide, by decide, by decide, by decide, rfl⟩
  · exact (((varint_exact ⟨[172, 130], 0⟩).2.1 .truncated ⟨[172, 130], 2⟩ (by decide) "S.e").2
      (by decide)).2
  · exact (((varint_exact ⟨List.replicate 11 128, 0⟩).2.1 .overflow ⟨List.replicate 11 128, 10⟩
      (by decide) "S.e").1 (by decide)).2
  · obtain ⟨-, hlength, -, hshortest⟩ := (varint_exact (.ofBytes [])).2.2 300
    exact (hshortest [172, 2] (by decide)).2 (hlength.symm ▸ by decide)

end Cursor

end WireSchema
