import Mathlib.Algebra.BigOperators.Ring.Finset
import Mathlib.Tactic.SplitIfs
import WireSchema.Proofs.Bytes.Cursor
import WireSchema.Proofs.Bytes.LittleEndian
import WireSchema.Proofs.Number.Power
import WireSchema.Proofs.Outcome

/-! Reads of every kind, one after another. All but a base-128 number take a number of bytes that
is known beforehand, or none at all, and give what these bytes spell. Wherever a cursor started,
no run of reads changes its data, moves it back or takes it past the end; and only where it
started past the end is there a read that has no bytes to look at. -/

namespace WireSchema

open Outcome

/-- The sizes of integers, in bytes. -/
inductive Width where
  | one
  | two
  | four
  deriving DecidableEq, Repr

def Width.bytes : Width → Nat
  | one => 1
  | two => 2
  | four => 4

/-- What can be read, one thing at a time. -/
inductive Read where
  | byte
  | bytes (n : Nat)
  | varint
  | unsigned (width : Width)
  | signed (width : Width)
  | float32
  | float64
  deriving DecidableEq, Repr

/-- What a read gives. -/
inductive Reading where
  | natural (n : Nat)
  | integer (n : Int)
  | bytes (bytes : List UInt8)
  | float32 (x : Binary32)
  | float64 (x : Binary64)
  deriving DecidableEq, Repr

/-- Why a read gives nothing. -/
inductive Read.Fault where
  | cursor (fault : Cursor.Fault)
  | varint (fault : Varint.Fault)
  deriving DecidableEq, Repr

namespace Cursor

/-- A read of one kind as a read of any kind. -/
def report {ε α : Type} (fault : ε → Read.Fault) (reading : α → Reading)
    (read : Except ε α × Cursor) : Except Read.Fault Reading × Cursor :=
  ((read.1.map reading).mapError fault, read.2)

def read (c : Cursor) : Read → Except Read.Fault Reading × Cursor
  | .byte => report .cursor .natural (c.word 1)
  | .bytes n => report .cursor .bytes (c.take n)
  | .varint => report .varint .natural c.varint
  | .unsigned width => report .cursor .natural (c.word width.bytes)
  | .signed width => report .cursor .integer (c.signedWord width.bytes)
  | .float32 => report .cursor .float32 c.float32
  | .float64 => report .cursor .float64 c.float64

/-- The cursor after some reads, whatever they give. -/
def run (c : Cursor) (reads : List Read) : Cursor := reads.foldl (fun c op => (c.read op).2) c

end Cursor

/-! ### Words -/

namespace LittleEndian

/-- What bytes add up to, the first being the least significant. -/
def sum (bytes : List UInt8) : Nat :=
  ∑ i ∈ Finset.range bytes.length, (bytes.getD i 0).toNat * 256 ^ i

theorem decode_eq_sum (bytes : List UInt8) : decode bytes = sum bytes := by
  induction bytes with
  | nil => rfl
  | cons byte rest ih =>
    rw [decode, ih, sum, sum, List.length_cons, Finset.sum_range_succ', Nat.add_comm,
      Finset.mul_sum]
    congr 1
    · refine Finset.sum_congr rfl fun i _ => ?_
      rw [List.getD_cons_succ]
      ring
    · simp

theorem signed_eq_bmod (width : Width) {word : Nat} (h : word < 256 ^ width.bytes) :
    signed width.bytes word = (word : Int).bmod (2 ^ (8 * width.bytes)) := by
  cases width <;> simp only [Width.bytes, signed, pow2_eq, Int.bmod] at h ⊢ <;> omega

end LittleEndian

/-! ### What bytes spell -/

/-- The bytes of a read, and what it gives for them. A base-128 number has no fixed size and is left
out. -/
inductive Read.Spelled : Read → List UInt8 → Reading → Prop
  | byte (b : UInt8) : Spelled .byte [b] (.natural b.toNat)
  | bytes (bytes : List UInt8) : Spelled (.bytes bytes.length) bytes (.bytes bytes)
  | unsigned {width : Width} {bytes : List UInt8} (size : bytes.length = width.bytes) :
      Spelled (.unsigned width) bytes (.natural (LittleEndian.sum bytes))
  | signed {width : Width} {bytes : List UInt8} (size : bytes.length = width.bytes) :
      Spelled (.signed width) bytes
        (.integer ((LittleEndian.sum bytes : Int).bmod (2 ^ (8 * width.bytes))))
  | float32 {x : Binary32} {bytes : List UInt8} (size : bytes.length = 4)
      (bits : x.bits.toNat = LittleEndian.sum bytes) : Spelled .float32 bytes (.float32 x)
  | float64 {x : Binary64} {bytes : List UInt8} (size : bytes.length = 8)
      (bits : x.bits.toNat = LittleEndian.sum bytes) : Spelled .float64 bytes (.float64 x)

namespace Read

/-- The number of bytes that a read takes and what it makes of them, unless the number depends on
the bytes. -/
def fixed? : Read → Option (Nat × (List UInt8 → Reading))
  | byte => some (1, fun bs => .natural (LittleEndian.decode bs))
  | bytes n => some (n, .bytes)
  | varint => none
  | unsigned width => some (width.bytes, fun bs => .natural (LittleEndian.decode bs))
  | signed width =>
    some (width.bytes, fun bs =>
      .integer (LittleEndian.signed width.bytes (LittleEndian.decode bs)))
  | float32 => some (4, fun bs => .float32 ⟨UInt32.ofNat (LittleEndian.decode bs)⟩)
  | float64 => some (8, fun bs => .float64 ⟨UInt64.ofNat (LittleEndian.decode bs)⟩)

variable {op : Read} {bs : List UInt8} {value : Reading} {n : Nat} {reading : List UInt8 → Reading}

theorem Spelled.fixed (h : Spelled op bs value) :
    ∃ reading, op.fixed? = some (bs.length, reading) ∧ value = reading bs := by
  have hlt := LittleEndian.decode_lt bs
  cases h with
  | byte b => exact ⟨_, rfl, by simp [LittleEndian.decode]⟩
  | bytes => exact ⟨_, rfl, rfl⟩
  | unsigned size =>
    rw [size, ← LittleEndian.decode_eq_sum]
    exact ⟨_, rfl, rfl⟩
  | @signed width _ size =>
    rw [size] at hlt ⊢
    rw [← LittleEndian.decode_eq_sum, ← LittleEndian.signed_eq_bmod width hlt]
    exact ⟨_, rfl, rfl⟩
  | @float32 x _ size bits =>
    rw [size]
    exact ⟨_, rfl, by rw [LittleEndian.decode_eq_sum, ← bits, UInt32.ofNat_toNat]⟩
  | @float64 x _ size bits =>
    rw [size]
    exact ⟨_, rfl, by rw [LittleEndian.decode_eq_sum, ← bits, UInt64.ofNat_toNat]⟩

theorem spelled_of_fixed (h : op.fixed? = some (bs.length, reading)) :
    Spelled op bs (reading bs) := by
  have hlt := LittleEndian.decode_lt bs
  cases op with
  | byte =>
    obtain ⟨hsize, rfl⟩ := Prod.mk.inj (Option.some.inj h)
    obtain ⟨b, rfl⟩ := List.length_eq_one_iff.1 hsize.symm
    exact .byte b
  | bytes n =>
    obtain ⟨rfl, rfl⟩ := Prod.mk.inj (Option.some.inj h)
    exact .bytes bs
  | varint => cases h
  | unsigned width =>
    obtain ⟨hsize, rfl⟩ := Prod.mk.inj (Option.some.inj h)
    dsimp only
    rw [LittleEndian.decode_eq_sum]
    exact .unsigned hsize.symm
  | signed width =>
    obtain ⟨hsize, rfl⟩ := Prod.mk.inj (Option.some.inj h)
    rw [← hsize] at hlt
    dsimp only
    rw [LittleEndian.signed_eq_bmod width hlt, LittleEndian.decode_eq_sum]
    exact .signed hsize.symm
  | float32 =>
    obtain ⟨hsize, rfl⟩ := Prod.mk.inj (Option.some.inj h)
    refine .float32 hsize.symm ?_
    rw [UInt32.toNat_ofNat_of_lt' (show _ < 2 ^ 32 by rw [← hsize] at hlt; omega),
      LittleEndian.decode_eq_sum]
  | float64 =>
    obtain ⟨hsize, rfl⟩ := Prod.mk.inj (Option.some.inj h)
    refine .float64 hsize.symm ?_
    rw [UInt64.toNat_ofNat_of_lt' (show _ < 2 ^ 64 by rw [← hsize] at hlt; omega),
      LittleEndian.decode_eq_sum]

theorem exists_fixed (h : op ≠ varint) : ∃ n reading, op.fixed? = some (n, reading) := by
  cases op with
  | varint => exact absurd rfl h
  | _ => exact ⟨_, _, rfl⟩

/-- Every read of a fixed size asks for a byte at least, unless it is told to ask for none. -/
theorem eq_bytes_of_fixed (h : op.fixed? = some (0, reading)) : op = .bytes 0 := by
  cases op with
  | bytes n => rw [(Prod.mk.inj (Option.some.inj h)).1]
  | unsigned width | signed width => cases width <;> cases h
  | byte | varint | float32 | float64 => cases h

end Read

namespace Cursor

variable {c after : Cursor} {op : Read} {bs rest : List UInt8} {value : Reading} {n : Nat}
  {fault : Read.Fault} {reading : List UInt8 → Reading}

/-! ### One read -/

/-- Every read of a fixed size takes its bytes first. -/
theorem read_eq (c : Cursor) (h : op.fixed? = some (n, reading)) :
    c.read op = report .cursor reading (c.take n) := by
  cases op <;> cases h <;>
    simp only [read, word, signedWord, float32, float64, report] <;>
    generalize c.take _ = taken <;> obtain ⟨outcome, after⟩ := taken <;> cases outcome <;> rfl

/-- What comes of asking for some bytes: too few are left, or none are asked for past the end, or
they are there. -/
inductive Taking (c : Cursor) (n : Nat) : Except Fault (List UInt8) × Cursor → Prop
  | short (h : c.remaining < n) : Taking c n (.error .short, c)
  | pastEnd (hn : n = 0) (h : c.data.length < c.index) : Taking c n (.error .pastEnd, c)
  | whole {bs : List UInt8} {rest : List UInt8} (hn : bs.length = n) (h : c.At (bs ++ rest)) :
      Taking c n (.ok bs, c.advance n)

theorem taking (c : Cursor) (n : Nat) : Taking c n (c.take n) := by
  rw [take]
  split_ifs with hshort hpast
  · exact .short hshort
  · refine .pastEnd ?_ hpast
    rw [remaining] at hshort
    omega
  · refine .whole ?_ ⟨Nat.not_lt.1 hpast, (List.take_append_drop n c.unread).symm⟩
    rw [List.length_take, length_unread]
    omega

theorem At.exists_before (h : c.At bs) :
    ∃ before, c.data = before ++ bs ∧ before.length = c.index := by
  refine ⟨c.data.take c.index, ?_, List.length_take_of_le h.within⟩
  have hunread : c.data.drop c.index = bs := h.unread
  rw [← hunread, List.take_append_drop]

theorem at_of_before {before : List UInt8} (hdata : c.data = before ++ bs)
    (hindex : before.length = c.index) : c.At bs := by
  constructor
  · rw [hdata, List.length_append, hindex]
    exact Nat.le_add_right _ _
  · rw [unread, hdata, List.drop_left' hindex]

/-- Where the bytes of a read are left it gives what they spell. -/
theorem At.read (h : c.At (bs ++ rest)) (hs : op.Spelled bs value) :
    c.read op = (.ok value, c.advance bs.length) := by
  obtain ⟨reading, hsize, rfl⟩ := hs.fixed
  rw [read_eq c hsize, h.take]
  rfl

/-- A read of a fixed size that gives something has taken its bytes from the data, and these spell
it. -/
theorem read_eq_ok (hop : op ≠ .varint) (h : c.read op = (.ok value, after)) :
    ∃ before bytes rest, c.data = before ++ (bytes ++ rest) ∧ before.length = c.index ∧
      op.Spelled bytes value ∧ after = c.advance bytes.length := by
  obtain ⟨n, reading, hsize⟩ := Read.exists_fixed hop
  rw [read_eq c hsize] at h
  have htaking := taking c n
  generalize c.take n = taken at h htaking
  cases htaking with
  | short => cases h
  | pastEnd => cases h
  | @whole bytes rest hn hat =>
    subst hn
    obtain ⟨before, hdata, hindex⟩ := hat.exists_before
    cases h
    exact ⟨before, bytes, rest, hdata, hindex, Read.spelled_of_fixed hsize, rfl⟩

theorem read_eq_error (hop : op ≠ .varint) (h : c.read op = (.error fault, after)) : after = c := by
  obtain ⟨n, reading, hsize⟩ := Read.exists_fixed hop
  rw [read_eq c hsize] at h
  have htaking := taking c n
  generalize c.take n = taken at h htaking
  cases htaking with
  | short => cases h; rfl
  | pastEnd => cases h; rfl
  | whole => cases h

/-- Only where no bytes are asked for past the end is there no slice to take them from. -/
theorem read_pastEnd :
    (c.read op).1 = .error (.cursor .pastEnd) ↔ op = .bytes 0 ∧ c.data.length < c.index := by
  by_cases hop : op = .varint
  · subst hop
    refine iff_of_false (fun h => ?_) fun h => by cases h.1
    simp only [Cursor.read, report] at h
    generalize c.varint.1 = outcome at h
    cases outcome <;> cases h
  obtain ⟨n, reading, hsize⟩ := Read.exists_fixed hop
  rw [read_eq c hsize]
  have htaking := taking c n
  generalize c.take n = taken at htaking
  constructor
  · intro h
    cases htaking with
    | short => cases h
    | pastEnd hn hpast =>
      subst hn
      exact ⟨Read.eq_bytes_of_fixed hsize, hpast⟩
    | whole => cases h
  · rintro ⟨rfl, hpast⟩
    obtain rfl : 0 = n := (Prod.mk.inj (Option.some.inj hsize)).1
    cases htaking with
    | short hshort => exact absurd hshort (Nat.not_lt_zero _)
    | pastEnd => rfl
    | whole _ hat => exact absurd hat.within (Nat.not_le.2 hpast)

theorem read_reaches (c : Cursor) (op : Read) : c.Reaches (c.read op).2 := by
  by_cases hop : op = .varint
  · subst hop
    exact varint_reaches c
  obtain ⟨n, reading, hsize⟩ := Read.exists_fixed hop
  rw [read_eq c hsize]
  have htaking := taking c n
  generalize c.take n = taken at htaking
  cases htaking with
  | short | pastEnd => exact .rfl
  | @whole bytes rest hn hat =>
    refine .advance ?_
    rw [hat.remaining, ← hn, List.length_append]
    exact Nat.le_add_right _ _

/-! ### Runs -/

theorem run_reaches (c : Cursor) (reads : List Read) : c.Reaches (c.run reads) := by
  induction reads generalizing c with
  | nil => exact .rfl
  | cons op reads ih => exact (read_reaches c op).trans (ih _)

/-- Whatever was read before, wherever the reading started, and whatever is read next: the data is
as it was, the place has not moved back and is past the end only if it was there from the start,
and what remains is what lies between it and the end. A read of a fixed size that fails leaves the
place as it is. It gives what the bytes behind the place spell, if there are so many, and has then
moved it by these. There is no slice to take only where no bytes are asked for past the end. -/
theorem reads_invariant (data : List UInt8) (start : Nat) (reads : List Read) (next : Read) :
    let c := run ⟨data, start⟩ reads
    let after := (c.read next).2
    c.data = data ∧ start ≤ c.index ∧ c.index ≤ max start data.length ∧
    (c.index ≤ data.length → c.index + c.remaining = data.length) ∧
    (data.length ≤ c.index → c.remaining = 0) ∧ (c.atEnd ↔ c.remaining = 0) ∧
    c.index ≤ after.index ∧
    (next ≠ .varint →
      (∀ fault, (c.read next).1 = .error fault → after.index = c.index) ∧
      ∀ value, (c.read next).1 = .ok value ↔ ∃ before bytes rest,
        data = before ++ (bytes ++ rest) ∧ before.length = c.index ∧ next.Spelled bytes value ∧
          after.index = c.index + bytes.length) ∧
    ((c.read next).1 = .error (.cursor .pastEnd) ↔ next = .bytes 0 ∧ data.length < c.index) := by
  intro c after
  obtain ⟨hdata, honward, hbound⟩ := run_reaches ⟨data, start⟩ reads
  have hdata : c.data = data := hdata
  have hremaining : c.remaining = data.length - c.index := by rw [remaining, hdata]
  refine ⟨hdata, honward, hbound, by omega, by omega, ?_, (read_reaches c next).onward,
    fun hop => ⟨fun fault h => ?_, fun value => ⟨fun h => ?_, fun h => ?_⟩⟩,
    by rw [← hdata]; exact read_pastEnd⟩
  · rw [atEnd, decide_eq_true_eq, hdata]
    omega
  · rw [read_eq_error hop (Prod.ext h rfl : c.read next = (.error fault, after))]
  · obtain ⟨before, bytes, rest, hsplit, hindex, hspelled, hafter⟩ :=
      read_eq_ok hop (Prod.ext h rfl : c.read next = (.ok value, after))
    exact ⟨before, bytes, rest, hdata ▸ hsplit, hindex, hspelled, by rw [hafter]; rfl⟩
  · obtain ⟨before, bytes, rest, hsplit, hindex, hspelled, -⟩ := h
    rw [(at_of_before (hdata.trans hsplit) hindex).read hspelled]

/-- Behind a byte two more are read as a negative integer; then four are asked for where one is
left, and elsewhere none are asked for past the end. -/
theorem reads_invariant_sample :
    (∃ before bytes rest, [7, 254, 255, 9] = before ++ (bytes ++ rest) ∧ before.length = 1 ∧
      Read.Spelled (.signed .two) bytes (.integer (-2)) ∧
        (read ⟨[7, 254, 255, 9], 1⟩ (.signed .two)).2.index = 1 + bytes.length) ∧
      (read ⟨[7, 254, 255, 9], 3⟩ (.unsigned .four)).2.index = 3 ∧
      (read ⟨[7, 254], 5⟩ (.bytes 0)).1 = .error (.cursor .pastEnd) := by
  refine ⟨?_, ?_, ?_⟩
  · obtain ⟨-, -, -, -, -, -, -, hfixed, -⟩ :=
      reads_invariant [7, 254, 255, 9] 0 [.byte] (.signed .two)
    exact ((hfixed (by decide)).2 (.integer (-2))).1 rfl
  · obtain ⟨-, -, -, -, -, -, -, hfixed, -⟩ :=
      reads_invariant [7, 254, 255, 9] 0 [.byte, .signed .two] (.unsigned .four)
    exact (hfixed (by decide)).1 (.cursor .short) rfl
  · obtain ⟨-, -, -, -, -, -, -, -, hpast⟩ := reads_invariant [7, 254] 5 [.varint] (.bytes 0)
    exact hpast.2 (by decide)

end Cursor

end WireSchema
