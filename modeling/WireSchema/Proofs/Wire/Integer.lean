import WireSchema.Proofs.Number.Exact
import WireSchema.Proofs.Wire.ReadsBack
import WireSchema.Proofs.Wire.Refused

/-! Fields of integers. A value is accepted for such a field exactly if it is an integer within the
bounds of the field, be it one as such or a double that denotes it. The bytes of the field are
those of the integer in two's complement, and since declared bounds keep within the width of
their kind, no bit of it is lost: what is read from the bytes is the integer again. -/

namespace WireSchema

open Outcome

namespace IntKind

/-- An integer in two's complement, as many bytes as the kind has. -/
def bytes (kind : IntKind) (n : ℤ) : List UInt8 :=
  LittleEndian.encode kind.width (n % 256 ^ kind.width).toNat

/-- The integer that bytes of the kind stand for. -/
def ofBytes (kind : IntKind) (bytes : List UInt8) : ℤ :=
  if kind.signed then LittleEndian.signed kind.width (LittleEndian.decode bytes)
  else LittleEndian.decode bytes

/-- The low bytes of an integer of 64 bits are those of its two's complement. -/
theorem bytes_toInt (kind : IntKind) (n : Int64) :
    kind.bytes n.toInt = LittleEndian.encode kind.width n.toUInt64.toNat := by
  have hn := toInt_eq_toNat n
  have hlow : (n.toInt % 256 ^ kind.width).toNat = n.toUInt64.toNat % 256 ^ kind.width := by
    cases kind <;> simp only [width] <;> omega
  rw [bytes, hlow, LittleEndian.encode_mod]

/-- Within the bounds of the kind no bit is lost. -/
theorem ofBytes_bytes {kind : IntKind} {n : Int64} (h : kind.bounds.contains n) :
    kind.ofBytes (kind.bytes n.toInt) = n.toInt := by
  have hpos : 0 < 256 ^ kind.width := Nat.pow_pos (by decide)
  have hword := Decode.toInt_intOfWord (Nat.mod_lt n.toUInt64.toNat hpos)
  rw [Decode.intOfWord_mod h] at hword
  rw [bytes_toInt, ofBytes, LittleEndian.decode_encode, hword]

end IntKind

/-- What a field of integers accepts, in terms of what its bounds are. -/
theorem ResolvedType.accepts_int_iff {kind : IntKind} {bounds : Option Bounds} {v : Value} :
    (int kind bounds).accepts v ↔ ∃ n : Int64, v.rational? = some (n.toInt : ℚ) ∧
      (effective kind bounds).min.toInt ≤ n.toInt ∧
        n.toInt ≤ (effective kind bounds).max.toInt := by
  rw [accepts, Option.any_eq_true]
  simp only [Value.int?_eq_some, Bounds.contains, Bool.and_eq_true, decide_eq_true_eq,
    Int64.le_iff_toInt_le]

/-- An integer between two of 64 bits is one of them. -/
theorem exists_toInt {n : ℤ} {low high : Int64} (hlow : low.toInt ≤ n) (hhigh : n ≤ high.toInt) :
    ∃ m : Int64, m.toInt = n :=
  ⟨Int64.ofInt n, Int64.toInt_ofInt_of_le (le_trans low.le_toInt hlow)
    (lt_of_le_of_lt hhigh high.toInt_lt)⟩

section Field
variable {d : Document} {limits : Limits} {s : StructDef} {f : Field} {kind : IntKind}
  {bounds : Option Bounds} {path : String}

theorem Encode.field_int
    {nested : StructDef → Value → String → Array Item → Except Fault Plan} {members : Table Value}
    {x : Value} {n : Int64} {items : Array Item}
    (htype : d.resolve (some s) f.type = .ok (.int kind bounds))
    (hm : members.find? f.name = some x) (ha : (ResolvedType.int kind bounds).accepts x)
    (hn : x.int? = some n) :
    field d limits nested s members path f items = .ok (item (.fixed n kind.width) items) := by
  simp only [field, fieldValue?, hm, htype, ok_bind, ResolvedType.validate_eq_ok.2 ha, value, hn]

theorem encode_fixed (kind : IntKind) (n : Int64) :
    (Item.fixed n kind.width).encode = kind.bytes n.toInt := by
  rw [IntKind.bytes_toInt, Item.encode]
  cases kind <;> rfl

/-- Where the bytes of an integer are left, the field is read as the integer. -/
theorem Decode.fields_int
    {nested : StructDef → Cursor → String → Except Fault (Value × Cursor)} {n : Int64}
    (htype : d.resolve (some s) f.type = .ok (.int kind bounds)) (hb : kind.bounds.contains n)
    (more : List Field) (members : Table Value) {c : Cursor} {rest : List UInt8}
    (hc : c.At (kind.bytes n.toInt ++ rest)) :
    fields d limits nested s path (f :: more) members c =
      fields d limits nested s path more (Table.insert members f.name (.int n))
        (c.advance kind.width) := by
  rw [IntKind.bytes_toInt] at hc
  have hlength := LittleEndian.length_encode kind.width n.toUInt64.toNat
  have hword : Reads (fun c => expect c kind.width (path ++ "." ++ f.name) (c.word kind.width))
      (path ++ "." ++ f.name) (LittleEndian.encode kind.width n.toUInt64.toNat) _ :=
    reads_word hlength
  have hread := hword.whole c rest hc
  have hinside : c.atEnd = false := by
    rw [hc.atEnd]
    cases kind <;> rfl
  rw [fields, hinside, htype, ok_bind, if_neg Bool.false_ne_true]
  simp only [value, hread, ok_bind, LittleEndian.decode_encode, intOfWord_mod hb, hlength]

end Field

namespace Document

variable {text key : String} {d : Document} {s : StructDef} {f : Field} {kind : IntKind}
  {bounds : Option Bounds}

/-- A field of integers accepts what is exactly an integer within its bounds and nothing else. The
integer is written in two's complement, as wide as its kind is, and its bytes stand for it and are
read as it, wherever they are and whatever follows them. -/
theorem int_field_exact (hc : compile text = .ok d) (hs : d.struct? key = some s)
    (hf : f ∈ s.fields) (htype : f.type = .int kind bounds) (x : Value) :
    d.resolve (some s) f.type = .ok (.int kind bounds) ∧
      (∀ path, (ResolvedType.int kind bounds).validate x path = .ok () ↔
        ∃ n : ℤ, x.rational? = some (n : ℚ) ∧
          (ResolvedType.effective kind bounds).min.toInt ≤ n ∧
            n ≤ (ResolvedType.effective kind bounds).max.toInt) ∧
      ∀ n : ℤ, x.rational? = some (n : ℚ) → (ResolvedType.effective kind bounds).min.toInt ≤ n →
        n ≤ (ResolvedType.effective kind bounds).max.toInt →
          kind.ofBytes (kind.bytes n) = n ∧
          (∀ limits nested members path items, members.find? f.name = some x →
            ∃ item, Encode.field d limits nested s members path f items =
              .ok (Encode.item item items) ∧ item.encode = kind.bytes n) ∧
          ∃ m : Int64, m.toInt = n ∧
            ∀ limits nested path more members c rest, c.At (kind.bytes n ++ rest) →
              Decode.fields d limits nested s path (f :: more) members c =
                Decode.fields d limits nested s path more
                  (Table.insert members f.name (.int m)) (c.advance kind.width) := by
  obtain ⟨-, hbounds⟩ := compile_inBounds hc
  have hresolve : d.resolve (some s) f.type = .ok (.int kind bounds) := by rw [htype]; rfl
  have haccepts (m : Int64) (hx : x.rational? = some (m.toInt : ℚ))
      (hlow : (ResolvedType.effective kind bounds).min.toInt ≤ m.toInt)
      (hhigh : m.toInt ≤ (ResolvedType.effective kind bounds).max.toInt) :
      (ResolvedType.int kind bounds).accepts x :=
    ResolvedType.accepts_int_iff.2 ⟨m, hx, hlow, hhigh⟩
  refine ⟨hresolve, fun path => ?_, fun n hx hlow hhigh => ?_⟩
  · rw [ResolvedType.validate_eq_ok]
    constructor
    · intro ha
      obtain ⟨m, hm⟩ := ResolvedType.accepts_int_iff.1 ha
      exact ⟨m.toInt, hm⟩
    · rintro ⟨n, hx, hlow, hhigh⟩
      obtain ⟨m, rfl⟩ := exists_toInt hlow hhigh
      exact haccepts m hx hlow hhigh
  · obtain ⟨m, rfl⟩ := exists_toInt hlow hhigh
    have ha := haccepts m hx hlow hhigh
    have hm : x.int? = some m := Value.int?_eq_some.2 hx
    have hcontains : kind.bounds.contains m := by
      refine Decode.contains_of_accepts (d := d) ?_ ha hm
      cases bounds with
      | none => trivial
      | some b => exact hbounds key s hs f hf kind b htype
    exact ⟨IntKind.ofBytes_bytes hcontains,
      fun limits nested members path items hfind =>
        ⟨.fixed m kind.width, Encode.field_int hresolve hfind ha hm, encode_fixed kind m⟩,
      m, rfl, fun limits nested path more members c rest hat =>
        Decode.fields_int hresolve hcontains more members hat⟩

/-- A struct of an integer with bounds, and a document with it. -/
def gauge : StructDef := ⟨"S", [⟨"x", .int .int16 (some ⟨-300, 300⟩), none⟩], .empty⟩

def gauges : Document := ⟨Table.ofList [("S", gauge)], .empty⟩

/-- A double that is a negative integer is accepted, written in two bytes and read as the
integer. -/
theorem int_field_exact_double :
    (ResolvedType.int .int16 (some ⟨-300, 300⟩)).validate (.float ⟨0xC070400000000000⟩) "S.x" =
        .ok () ∧
      IntKind.int16.ofBytes [252, 254] = -260 ∧
      (∃ item, Encode.field gauges {} (Encode.struct gauges {} 64) gauge
        (Table.ofList [("x", .float ⟨0xC070400000000000⟩)]) "S"
          ⟨"x", .int .int16 (some ⟨-300, 300⟩), none⟩ #[] = .ok (Encode.item item #[]) ∧
        item.encode = [252, 254]) ∧
      ∃ m : Int64, m.toInt = -260 ∧
        Decode.fields gauges {} (Decode.struct gauges {} 64) gauge "S" gauge.fields .empty
          (.ofBytes [252, 254, 7]) =
            .ok (Table.insert .empty "x" (.int m), (Cursor.ofBytes [252, 254, 7]).advance 2) := by
  have hcompile : compile "struct S \x7b int16[-300, 300] x; \x7d" = .ok gauges := by decide +kernel
  have hexact : (Value.float ⟨0xC070400000000000⟩).rational? = some (((-260 : ℤ) : ℚ)) :=
    Value.int?_eq_some.1 (by decide +kernel : _ = some (-260 : Int64))
  obtain ⟨-, hvalid, hfield⟩ := int_field_exact hcompile (rfl : gauges.struct? "S" = some gauge)
    List.mem_cons_self rfl (.float ⟨0xC070400000000000⟩)
  obtain ⟨hbytes, hwritten, m, hm, hread⟩ := hfield (-260) hexact (by decide) (by decide)
  exact ⟨(hvalid "S.x").2 ⟨-260, hexact, by decide, by decide⟩, hbytes,
    hwritten _ _ _ "S" #[] rfl, m, hm, hread _ _ "S" [] .empty _ [7] (Cursor.ofBytes_at _)⟩

end Document

end WireSchema
