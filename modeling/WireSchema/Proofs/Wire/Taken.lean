import WireSchema.Proofs.Wire.RoundTrip

/-! The bytes that a read took. Whatever bytes a value was read from, in whatever spelling, they
are a piece at the front of those that were left, the same value is read from that piece in
any other place, and the piece cut off is short of bytes. So a struct that was read falls
into the pieces of its fields, and stops where its fields do or where the bytes do. -/

namespace WireSchema.Decode

open Outcome

/-- From this cursor the read took these bytes, and it takes them for the result wherever they
stand. -/
structure Took {α : Type} (read : Cursor → Except Fault (α × Cursor)) (path : String) (c : Cursor)
    (bytes : List UInt8) (a : α) (after : Cursor) : Prop where
  here : ∃ rest, c.At (bytes ++ rest)
  after : after = c.advance bytes.length
  reads : Reads read path bytes a

variable {α β : Type} {path : String} {c mid after : Cursor} {bytes : List UInt8}

namespace Took

theorem bind {first : Cursor → Except Fault (α × Cursor)}
    (second : α → Cursor → Except Fault (β × Cursor)) {more : List UInt8} {a : α} {b : β}
    (ha : Took first path c bytes a mid) (hb : Took (second a) path mid more b after) :
    Took (fun c => first c >>= fun (a, c) => second a c) path c (bytes ++ more) b after := by
  obtain ⟨rest, hc⟩ := ha.here
  obtain ⟨later, hmid⟩ := hb.here
  have hrest : rest = more ++ later := by
    rw [← hmid.unread, ha.after, hc.advance.unread]
  refine ⟨⟨later, ?_⟩, ?_, ha.reads.bind second hb.reads⟩
  · rwa [List.append_assoc, ← hrest]
  · rw [hb.after, ha.after, Cursor.advance_advance, List.length_append]

theorem andThen {read : Cursor → Except Fault (α × Cursor)} {a : α} {b : β}
    {f : α → Except Fault β} (ha : Took read path c bytes a after) (hf : f a = .ok b) :
    Took (fun c => do let (a, c) ← read c; let b ← f a; .ok (b, c)) path c bytes b after :=
  ⟨ha.here, ha.after, ha.reads.andThen hf⟩

end Took

/-! ### Words, numbers and payloads -/

theorem expect_eq_ok {needed : Nat} {read : Except Cursor.Fault α × Cursor} {a : α} :
    expect c needed path read = .ok (a, after) ↔ read = (.ok a, after) := by
  obtain ⟨outcome, mid⟩ := read
  cases outcome with
  | ok b => simp [expect]
  | error fault => cases fault <;> simp [expect]

theorem varint_eq_ok {n : Nat} : varint c path = .ok (n, after) ↔ c.varint = (.ok n, after) := by
  unfold varint
  split <;> simp_all

theorem take_eq_ok {n : Nat} (h : c.take n = (.ok bytes, after)) :
    bytes.length = n ∧ (∃ rest, c.At (bytes ++ rest)) ∧ after = c.advance n := by
  rw [Cursor.take] at h
  split_ifs at h with hshort hpast
  · cases h
  · cases h
  · obtain ⟨hbytes, rfl⟩ := Prod.mk.inj h
    obtain rfl := Except.ok.inj hbytes
    refine ⟨?_, ⟨c.unread.drop n, Nat.not_lt.1 hpast, (List.take_append_drop n _).symm⟩, rfl⟩
    rw [List.length_take, Cursor.length_unread]
    omega

/-- A read of a fixed number of bytes took that many. -/
theorem took_expect {width : Nat} {f : List UInt8 → α}
    {taken : Cursor → Except Cursor.Fault α × Cursor} {a : α}
    (ht : ∀ c, taken c = ((c.take width).1.map f, (c.take width).2))
    (h : expect c width path (taken c) = .ok (a, after)) :
    ∃ bytes, bytes.length = width ∧
      Took (fun c => expect c width path (taken c)) path c bytes a after := by
  rw [expect_eq_ok, ht] at h
  obtain ⟨houtcome, rfl⟩ := Prod.mk.inj h
  obtain ⟨bytes, hbytes, rfl⟩ := Outcome.map_eq_ok.1 houtcome
  obtain ⟨hlength, hhere, hafter⟩ := take_eq_ok (Prod.ext hbytes rfl)
  exact ⟨bytes, hlength, hhere, hafter.trans (by rw [hlength]), reads_expect ht hlength⟩

theorem took_word {width word : Nat}
    (h : expect c width path (c.word width) = .ok (word, after)) :
    ∃ bytes, bytes.length = width ∧
      Took (fun c => expect c width path (c.word width)) path c bytes word after :=
  took_expect (fun _ => rfl) h

/-- A word taken for what it stands for. -/
theorem took_bits {width : Nat} {f : Nat → α} {taken : Cursor → Except Cursor.Fault α × Cursor}
    {a : α} (ht : ∀ c, taken c = ((c.word width).1.map f, (c.word width).2))
    (h : expect c width path (taken c) = .ok (a, after)) :
    ∃ bytes, bytes.length = width ∧
      Took (fun c => expect c width path (taken c)) path c bytes a after := by
  refine took_expect (f := f ∘ LittleEndian.decode) (fun c => ?_) h
  rw [ht, Cursor.word]
  obtain ⟨outcome, after⟩ := c.take width
  cases outcome <;> rfl

theorem took_varint {n : Nat} (h : varint c path = .ok (n, after)) :
    ∃ bytes, bytes ≠ [] ∧ Took (fun c => varint c path) path c bytes n after := by
  have hread : ∃ taken, Varint.read c.unread = (.ok n, taken) ∧ after = c.advance taken := by
    rw [varint_eq_ok, Cursor.varint] at h
    obtain ⟨hn, rfl⟩ := Prod.mk.inj h
    exact ⟨_, Prod.ext hn rfl, rfl⟩
  obtain ⟨taken, hread, rfl⟩ := hread
  obtain ⟨hpos, hle, hwhole, hcut⟩ := Varint.read_ok hread
  have hlength : (c.unread.take taken).length = taken := by
    rw [List.length_take, Nat.min_eq_left hle]
  have hwithin : c.index ≤ c.data.length := by
    rw [Cursor.unread, List.length_drop] at hle
    omega
  refine ⟨c.unread.take taken, ?_, ⟨c.unread.drop taken, hwithin, ?_⟩, by rw [hlength], ?_, ?_⟩
  · exact List.ne_nil_of_length_pos (by omega)
  · exact (List.take_append_drop taken _).symm
  · intro c' rest hc
    rw [varint, Cursor.varint, hc.unread, hwhole rest, hlength]
  · intro c' m hm hc
    rw [hlength] at hm
    rw [varint, Cursor.varint, hc.unread, List.take_take, Nat.min_eq_left (Nat.le_of_lt hm),
      hcut m hm]
    exact ⟨_, _, rfl⟩

/-- Bytes that were read stand behind their number. -/
theorem exists_length_of_payload {limits : Limits} {content : List UInt8}
    (h : payload limits c path = .ok (content, after)) :
    ∃ mid, c.varint = (.ok content.length, mid) ∧
      mid.take content.length = (.ok content, after) := by
  obtain ⟨⟨declared, mid⟩, hvarint, h⟩ := bind_eq_ok.1 h
  dsimp only at h
  split_ifs at h with hlong
  have htaken := expect_eq_ok.1 h
  obtain ⟨rfl, -, -⟩ := take_eq_ok htaken
  exact ⟨mid, varint_eq_ok.1 hvarint, htaken⟩

theorem took_payload {limits : Limits} {content : List UInt8}
    (h : payload limits c path = .ok (content, after)) :
    ∃ bytes, bytes ≠ [] ∧ Took (fun c => payload limits c path) path c bytes content after := by
  obtain ⟨⟨declared, mid⟩, hvarint, h⟩ := bind_eq_ok.1 h
  obtain ⟨bytes, hne, hlength⟩ := took_varint hvarint
  dsimp only at h
  split_ifs at h with hlong
  obtain ⟨content', -, hcontent⟩ :
      ∃ bytes, bytes.length = declared ∧ Took (fun c => expect c declared path (c.take declared))
        path mid bytes content after :=
    took_expect (fun c => by rw [Except.map_id]; rfl) h
  refine ⟨bytes ++ content', List.append_ne_nil_of_left_ne_nil hne _, ?_⟩
  refine hlength.bind (fun declared c =>
    if limits.maxLength.toNat < declared then
      .error (.tooLong path declared limits.maxLength.toNat)
    else expect c declared path (c.take declared)) ?_
  simpa only [if_neg hlong] using hcontent

/-! ### Values -/

section Values
variable {d : Document} {limits : Limits}
  {nested : StructDef → Cursor → String → Except Fault (Value × Cursor)} {s : StructDef} {v : Value}

/-- A value was read from some bytes, not none, and is read from them wherever they stand. -/
theorem took_value {type : ResolvedType} (h : value limits nested type c path = .ok (v, after)) :
    ∃ bytes, bytes ≠ [] ∧ Took (fun c => value limits nested type c path) path c bytes v after := by
  have hne {width : Nat} {bytes : List UInt8} (hw : 0 < width) (hlength : bytes.length = width) :
      bytes ≠ [] := List.ne_nil_of_length_pos (hlength ▸ hw)
  cases type with
  | int kind bounds =>
    obtain ⟨⟨word, mid⟩, hword, h⟩ := bind_eq_ok.1 h
    obtain ⟨rfl, rfl⟩ := Prod.mk.inj (Except.ok.inj h)
    obtain ⟨bytes, hlength, htook⟩ := took_word hword
    exact ⟨bytes, hne (by cases kind <;> decide) hlength,
      htook.andThen (f := fun word => Except.ok (Value.int (intOfWord kind word))) rfl⟩
  | string =>
    obtain ⟨⟨content, mid⟩, hcontent, h⟩ := bind_eq_ok.1 h
    obtain ⟨rfl, rfl⟩ := Prod.mk.inj (Except.ok.inj h)
    obtain ⟨bytes, hbytes, htook⟩ := took_payload hcontent
    exact ⟨bytes, hbytes, htook.andThen
      (f := fun bytes => Except.ok (Value.string (String.ofList (Utf8.decodeLenient bytes)))) rfl⟩
  | any =>
    obtain ⟨⟨content, mid⟩, hcontent, h⟩ := bind_eq_ok.1 h
    obtain ⟨v, hv, h⟩ := bind_eq_ok.1 h
    obtain ⟨rfl, rfl⟩ := Prod.mk.inj (Except.ok.inj h)
    obtain ⟨bytes, hbytes, htook⟩ := took_payload hcontent
    exact ⟨bytes, hbytes, htook.andThen (f := fun bytes => anyOfBytes bytes path) hv⟩
  | bool =>
    obtain ⟨⟨byte, mid⟩, hbyte, h⟩ := bind_eq_ok.1 h
    obtain ⟨v, hv, h⟩ := bind_eq_ok.1 h
    obtain ⟨rfl, rfl⟩ := Prod.mk.inj (Except.ok.inj h)
    obtain ⟨bytes, hlength, htook⟩ := took_word hbyte
    exact ⟨bytes, hne Nat.one_pos hlength,
      htook.andThen (f := fun byte => boolOfByte byte path) hv⟩
  | float32 =>
    obtain ⟨⟨x, mid⟩, hx, h⟩ := bind_eq_ok.1 h
    obtain ⟨rfl, rfl⟩ := Prod.mk.inj (Except.ok.inj h)
    obtain ⟨bytes, hlength, htook⟩ : ∃ bytes, bytes.length = 4 ∧
        Took (fun c => expect c 4 path c.float32) path c bytes x mid :=
      took_bits (fun _ => rfl) hx
    exact ⟨bytes, hne (by decide) hlength,
      htook.andThen (f := fun x : Binary32 => Except.ok (Value.float x.widen)) rfl⟩
  | float64 =>
    obtain ⟨⟨x, mid⟩, hx, h⟩ := bind_eq_ok.1 h
    obtain ⟨rfl, rfl⟩ := Prod.mk.inj (Except.ok.inj h)
    obtain ⟨bytes, hlength, htook⟩ : ∃ bytes, bytes.length = 8 ∧
        Took (fun c => expect c 8 path c.float64) path c bytes x mid :=
      took_bits (fun _ => rfl) hx
    exact ⟨bytes, hne (by decide) hlength,
      htook.andThen (f := fun x => Except.ok (Value.float x)) rfl⟩
  | enum e =>
    obtain ⟨⟨code, mid⟩, hcode, h⟩ := bind_eq_ok.1 h
    obtain ⟨rfl, rfl⟩ := Prod.mk.inj (Except.ok.inj h)
    obtain ⟨bytes, hbytes, htook⟩ := took_varint hcode
    exact ⟨bytes, hbytes, htook.andThen
      (f := fun code => Except.ok (enumOfCode e (UInt64.ofNat code).toInt64)) rfl⟩
  | struct t =>
    obtain ⟨⟨content, mid⟩, hcontent, h⟩ := bind_eq_ok.1 h
    obtain ⟨⟨v, inner⟩, hv, h⟩ := bind_eq_ok.1 h
    obtain ⟨rfl, rfl⟩ := Prod.mk.inj (Except.ok.inj h)
    obtain ⟨bytes, hbytes, htook⟩ := took_payload hcontent
    refine ⟨bytes, hbytes, ?_⟩
    simp only [value_struct]
    exact htook.andThen (f := fun bytes => (nested t (.ofBytes bytes) path).map Prod.fst)
      (by rw [hv, map_ok])

/-! ### Fields -/

/-- The bytes at a cursor, as they were read: a piece for each of the first fields, with its row,
and where fields are missing no bytes behind the pieces. -/
structure Parted (d : Document) (limits : Limits)
    (nested : StructDef → Cursor → String → Except Fault (Value × Cursor)) (s : StructDef)
    (path : String) (fs : List Field) (c after : Cursor) (parts : List (Field × List UInt8))
    (rows : List (String × Value)) : Prop where
  pieces : ∃ later rest, fs = parts.map Prod.fst ++ later ∧
    c.unread = parts.flatMap Prod.snd ++ rest ∧ (later = [] ∨ rest = [])
  after : after = c.advance (parts.flatMap Prod.snd).length
  read : List.Forall₂ (ReadsField d limits nested s path) parts rows

theorem Parted.names {fs : List Field} {parts : List (Field × List UInt8)}
    {rows : List (String × Value)} (h : Parted d limits nested s path fs c after parts rows) :
    rows.map Prod.fst = (parts.map Prod.fst).map Field.name := by
  rw [names_read h.read, List.map_map]
  rfl

theorem exists_parted {fs : List Field} {members result : Table Value}
    (h : fields d limits nested s path fs members c = .ok (result, after)) :
    ∃ parts rows, Parted d limits nested s path fs c after parts rows ∧
      result = members.addAll rows := by
  induction fs generalizing members c with
  | nil =>
    obtain ⟨rfl, rfl⟩ := Prod.mk.inj (Except.ok.inj h)
    exact ⟨[], [], ⟨⟨[], c.unread, rfl, rfl, .inl rfl⟩, rfl, .nil⟩, rfl⟩
  | cons f more ih =>
    rw [fields] at h
    split_ifs at h with hend
    · obtain ⟨rfl, rfl⟩ := Prod.mk.inj (Except.ok.inj h)
      have hempty : c.unread = [] := by
        rw [Cursor.atEnd, decide_eq_true_eq] at hend
        exact List.drop_of_length_le hend
      exact ⟨[], [], ⟨⟨f :: more, [], rfl, hempty, .inr rfl⟩, rfl, .nil⟩, rfl⟩
    · obtain ⟨type, htype, h⟩ := bind_eq_ok.1 h
      obtain ⟨⟨v, mid⟩, hv, h⟩ := bind_eq_ok.1 h
      obtain ⟨bytes, hne, htook⟩ := took_value hv
      obtain ⟨parts, rows, hparted, rfl⟩ := ih h
      obtain ⟨later, rest, hfs, hunread, hstop⟩ := hparted.pieces
      obtain ⟨behind, hc⟩ := htook.here
      refine ⟨(f, bytes) :: parts, (f.name, v) :: rows, ⟨⟨later, rest, ?_, ?_, hstop⟩, ?_, ?_⟩, rfl⟩
      · rw [hfs, List.map_cons, List.cons_append]
      · rw [htook.after, hc.advance.unread] at hunread
        rw [hc.unread, hunread, List.flatMap_cons, List.append_assoc]
      · rw [hparted.after, htook.after, Cursor.advance_advance, List.flatMap_cons,
          List.length_append]
      · exact .cons ⟨rfl, hne, type, htype, htook.reads⟩ hparted.read

end Values

/-- A struct that was read is the table of its rows. -/
theorem exists_parted_struct {d : Document} {limits : Limits} {levels : Nat} {s : StructDef}
    {v : Value} (h : struct d limits levels s c path = .ok (v, after)) :
    ∃ below parts rows, levels = below + 1 ∧
      Parted d limits (struct d limits below) s path s.fields c after parts rows ∧
      v = .object (Table.ofList rows) := by
  cases levels with
  | zero => cases h
  | succ below =>
    obtain ⟨⟨members, mid⟩, hfields, h⟩ := bind_eq_ok.1 h
    obtain ⟨rfl, rfl⟩ := Prod.mk.inj (Except.ok.inj h)
    obtain ⟨parts, rows, hparted, rfl⟩ := exists_parted hfields
    exact ⟨below, parts, rows, rfl, hparted, rfl⟩

end WireSchema.Decode

/-- Decoding a document reads a struct from the offset on. -/
theorem WireSchema.Document.decode_eq_ok {d : Document} {limits : Limits} {name : String}
    {bytes : List UInt8} {offset stop : Nat} {v : Value} :
    d.decode limits name bytes offset = .ok (v, stop) ↔ ∃ s after, d.struct? name = some s ∧
      Decode.struct d limits limits.levels s ⟨bytes, offset⟩ name = .ok (v, after) ∧
        stop = after.index := by
  unfold decode getStruct
  cases d.struct? name with
  | none => simp
  | some s =>
    simp only [Outcome.ok_bind, Outcome.bind_eq_ok, Prod.exists, Except.ok.injEq, Prod.mk.injEq,
      Option.some.injEq]
    constructor
    · rintro ⟨v, after, hread, rfl, rfl⟩
      exact ⟨s, after, rfl, hread, rfl⟩
    · rintro ⟨s, after, rfl, hread, rfl⟩
      exact ⟨v, after, hread, rfl, rfl⟩
