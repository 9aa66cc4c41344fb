import WireSchema.Proofs.Bytes.Item
import WireSchema.Proofs.Bytes.Read
import WireSchema.Proofs.Wire.Word

/-! Items are read back as they were written. Each item has the reads that match it, and a run of
matching reads goes over the bytes of the items one by one, whatever bytes follow them. -/

namespace WireSchema

/-- A read that matches an item, and what it gives: the value that was written, of an integer what
is left of it in its width. -/
inductive Recovers : Item → Read → Reading → Prop
  | bool (b : Bool) : Recovers (.bool b) .byte (.natural b.toNat)
  | byte (b : UInt8) : Recovers (.byte b) .byte (.natural b.toNat)
  | bytes (bytes : List UInt8) : Recovers (.bytes bytes) (.bytes bytes.length) (.bytes bytes)
  | varint (n : UInt64) : Recovers (.varint n) .varint (.natural n.toNat)
  | unsigned (n : Int64) (width : Width) :
      Recovers (.fixed n width.bytes) (.unsigned width)
        (.natural (n.toInt % 2 ^ (8 * width.bytes)).toNat)
  | signed (n : Int64) (width : Width) :
      Recovers (.fixed n width.bytes) (.signed width)
        (.integer (n.toInt.bmod (2 ^ (8 * width.bytes))))
  | float32 (x : Binary32) : Recovers (.float32 x) .float32 (.float32 x)
  | float64 (x : Binary64) : Recovers (.float64 x) .float64 (.float64 x)

/-! ### One item -/

theorem min_width (width : Width) : min width.bytes 8 = width.bytes := by
  cases width <;> rfl

theorem length_fixed (n : Int64) (width : Width) :
    (Item.fixed n width.bytes).encode.length = width.bytes := by
  rw [Item.length_encode, Item.size, min_width]

/-- The low bytes of an integer add up to what is left of it in their number. -/
theorem sum_fixed (n : Int64) (width : Width) :
    (LittleEndian.sum (Item.fixed n width.bytes).encode : Int) =
      n.toInt % (2 ^ (8 * width.bytes) : Nat) := by
  have hn := toInt_eq_toNat n
  rw [← LittleEndian.decode_eq_sum, Item.encode, min_width, LittleEndian.decode_encode]
  cases width <;> simp only [Width.bytes] <;> omega

/-- What fits in its bytes is what they add up to. -/
theorem sum_encode {width n : Nat} (h : n < 256 ^ width) :
    LittleEndian.sum (LittleEndian.encode width n) = n := by
  rw [← LittleEndian.decode_eq_sum, LittleEndian.decode_encode, Nat.mod_eq_of_lt h]

section Matching
variable {item : Item} {op : Read} {value : Reading} {c : Cursor} {rest : List UInt8}

/-- The bytes of an item spell what the matching read gives. -/
theorem Recovers.spelled (h : Recovers item op value) (hop : op ≠ .varint) :
    op.Spelled item.encode value := by
  cases h with
  | bool b => cases b <;> exact .byte _
  | byte b => exact .byte b
  | bytes bytes => exact .bytes bytes
  | varint => exact absurd rfl hop
  | unsigned n width =>
    have hspelled := Read.Spelled.unsigned (length_fixed n width)
    rwa [← Int.toNat_natCast (LittleEndian.sum _), sum_fixed, Nat.cast_pow, Nat.cast_ofNat]
      at hspelled
  | signed n width =>
    have hspelled := Read.Spelled.signed (length_fixed n width)
    rwa [sum_fixed, Int.emod_bmod] at hspelled
  | float32 x =>
    exact .float32 (LittleEndian.length_encode 4 _) (sum_encode x.bits.toNat_lt).symm
  | float64 x =>
    exact .float64 (LittleEndian.length_encode 8 _) (sum_encode x.bits.toNat_lt).symm

/-- Where the bytes of an item are left, the matching read takes just these. -/
theorem Recovers.read (h : Recovers item op value) (hc : c.At (item.encode ++ rest)) :
    c.read op = (.ok value, c.advance item.encode.length) := by
  by_cases hop : op = .varint
  · subst hop
    cases h with
    | varint n =>
      rw [Cursor.read, hc.varint n.toNat_lt]
      rfl
  · exact hc.read (h.spelled hop)

end Matching

/-! ### Sequences of items -/

/-- Integers are written in the sizes that they are read in. -/
def Item.Sized : Item → Prop
  | .fixed _ size => ∃ width : Width, width.bytes = size
  | _ => True

/-- An item and a read that matches it. -/
structure Exchange where
  item : Item
  read : Read
  value : Reading
  recovers : Recovers item read value

namespace Exchange

theorem encodeAll_cons (x : Exchange) (exchanges : List Exchange) :
    Item.encodeAll ((x :: exchanges).map (·.item)) =
      x.item.encode ++ Item.encodeAll (exchanges.map (·.item)) := Item.encodeAll_cons ..

theorem encodeAll_append (before after : List Exchange) :
    Item.encodeAll ((before ++ after).map (·.item)) =
      Item.encodeAll (before.map (·.item)) ++ Item.encodeAll (after.map (·.item)) := by
  rw [List.map_append, Item.encodeAll_append]

/-- The reads that match some items go over the bytes of these items. -/
theorem run_reads {exchanges : List Exchange} {c : Cursor} {rest : List UInt8}
    (hc : c.At (Item.encodeAll (exchanges.map (·.item)) ++ rest)) :
    c.run (exchanges.map (·.read)) =
      c.advance (Item.encodeAll (exchanges.map (·.item))).length := by
  induction exchanges generalizing c with
  | nil => rfl
  | cons x more ih =>
    rw [encodeAll_cons, List.append_assoc] at hc
    have hread := x.recovers.read hc
    have hstep : c.run ((x :: more).map (·.read)) = (c.read x.read).2.run (more.map (·.read)) := rfl
    rw [hstep, hread, ih hc.advance, Cursor.advance_advance, encodeAll_cons, List.length_append]

theorem exists_exchange {item : Item} (h : item.Sized) : ∃ x : Exchange, x.item = item := by
  cases item with
  | bool b => exact ⟨⟨_, _, _, .bool b⟩, rfl⟩
  | byte b => exact ⟨⟨_, _, _, .byte b⟩, rfl⟩
  | bytes bs => exact ⟨⟨_, _, _, .bytes bs⟩, rfl⟩
  | varint n => exact ⟨⟨_, _, _, .varint n⟩, rfl⟩
  | fixed n size =>
    obtain ⟨width, rfl⟩ := h
    exact ⟨⟨_, _, _, .unsigned n width⟩, rfl⟩
  | float32 x => exact ⟨⟨_, _, _, .float32 x⟩, rfl⟩
  | float64 x => exact ⟨⟨_, _, _, .float64 x⟩, rfl⟩

/-- There are reads that match whatever is written. -/
theorem exists_exchanges {items : List Item} (h : ∀ item ∈ items, item.Sized) :
    ∃ exchanges : List Exchange, exchanges.map (·.item) = items := by
  induction items with
  | nil => exact ⟨[], rfl⟩
  | cons item items ih =>
    rw [List.forall_mem_cons] at h
    obtain ⟨x, rfl⟩ := exists_exchange h.1
    obtain ⟨exchanges, rfl⟩ := ih h.2
    exact ⟨x :: exchanges, rfl⟩

/-- Items of any kind are written one after the other and other bytes come behind them. There are
reads that match the items, and whichever these are they succeed one by one and give what was
written, each leaves the cursor behind as many bytes as had been written with its item, and the last
one leaves the other bytes. -/
theorem written_reads_back :
    (∀ items : List Item, (∀ item ∈ items, item.Sized) →
      ∃ exchanges : List Exchange, exchanges.map (·.item) = items) ∧
    ∀ (exchanges : List Exchange) (suffix : List UInt8),
      let data := Item.encodeAll (exchanges.map (·.item)) ++ suffix
      (∀ before x after, exchanges = before ++ x :: after →
        (Cursor.run (.ofBytes data) (before.map (·.read))).read x.read =
          (.ok x.value, ⟨data, (Item.encodeAll ((before ++ [x]).map (·.item))).length⟩)) ∧
      (Cursor.run (.ofBytes data) (exchanges.map (·.read))).unread = suffix := by
  refine ⟨fun _ => exists_exchanges, ?_⟩
  intro exchanges suffix data
  have hstart : (Cursor.ofBytes data).At data := Cursor.ofBytes_at data
  constructor
  · rintro before x after rfl
    have hdata : data = Item.encodeAll (before.map (·.item)) ++
        (x.item.encode ++ (Item.encodeAll (after.map (·.item)) ++ suffix)) := by
      simp only [data, encodeAll_append, encodeAll_cons, List.append_assoc]
    have hbefore := hdata ▸ hstart
    rw [hdata, run_reads hbefore, x.recovers.read hbefore.advance, Cursor.advance_advance,
      encodeAll_append, encodeAll_cons, List.length_append, List.length_append]
    simp [Cursor.advance, Cursor.ofBytes]
  · rw [run_reads hstart]
    exact hstart.advance.unread

/-- Three hundred, minus two in two bytes (read without and with the sign) and no bytes at all. -/
theorem written_reads_back_sample :
    (∃ exchanges : List Exchange,
      exchanges.map (·.item) = [.varint 300, .fixed (-2) 2, .fixed (-2) 2, .bytes []]) ∧
      ((Cursor.ofBytes [172, 2, 254, 255, 254, 255, 7]).run [.varint, .unsigned .two]).read
        (.signed .two) = (.ok (.integer (-2)), ⟨[172, 2, 254, 255, 254, 255, 7], 6⟩) ∧
      ((Cursor.ofBytes [172, 2, 254, 255, 254, 255, 7]).run
        [.varint, .unsigned .two, .signed .two, .bytes 0]).unread = [7] := by
  have hreads := written_reads_back.2
    [⟨_, _, _, .varint 300⟩, ⟨_, _, _, .unsigned (-2) .two⟩, ⟨_, _, _, .signed (-2) .two⟩,
      ⟨_, _, _, .bytes []⟩] [7]
  have hdata : Item.encodeAll [.varint 300, .fixed (-2) 2, .fixed (-2) 2, .bytes []] ++ [7] =
      [172, 2, 254, 255, 254, 255, 7] := by decide +kernel
  have hlength : (Item.encodeAll [.varint 300, .fixed (-2) 2, .fixed (-2) 2]).length = 6 := by
    decide +kernel
  obtain ⟨heach, hlast⟩ := hreads
  have hthird := heach [⟨_, _, _, .varint 300⟩, ⟨_, _, _, .unsigned (-2) .two⟩]
    ⟨_, _, _, .signed (-2) .two⟩ [⟨_, _, _, .bytes []⟩] rfl
  have hsized : ∀ item ∈ [Item.varint 300, .fixed (-2) 2, .fixed (-2) 2, .bytes []],
      item.Sized := by
    simp only [List.forall_mem_cons, Item.Sized, true_and]
    exact ⟨⟨.two, rfl⟩, ⟨.two, rfl⟩, fun _ h => absurd h List.not_mem_nil⟩
  rw [← hdata, ← hlength]
  exact ⟨written_reads_back.1 _ hsized, hthird, hlast⟩

end Exchange

end WireSchema
