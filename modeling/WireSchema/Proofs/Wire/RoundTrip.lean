import WireSchema.Proofs.Typing.Resolve
import WireSchema.Proofs.Wire.ReadsBack

/-! Decoding what was encoded. Where no written field comes after one that is left out, and
what is written as JSON can be read, decoding gives the canonical value and stops at the
end of the bytes. Every field takes some bytes, so the bytes end exactly where the first
field is missing that was left out. -/

namespace WireSchema

open Outcome

namespace Decode

/-! ### Fields -/

section Fields
variable {d : Document} {limits : Limits}
  {nested : StructDef → Cursor → String → Except Fault (Value × Cursor)} {s : StructDef}
  {path : String}

/-- The bytes of a field, and the row of the object that they are read as. -/
structure ReadsField (d : Document) (limits : Limits)
    (nested : StructDef → Cursor → String → Except Fault (Value × Cursor)) (s : StructDef)
    (path : String) (part : Field × List UInt8) (row : String × Value) : Prop where
  name : row.1 = part.1.name
  nonempty : part.2 ≠ []
  reads : ∃ type, d.resolve (some s) part.1.type = .ok type ∧
    Reads (fun c => value limits nested type c (path ++ "." ++ part.1.name))
      (path ++ "." ++ part.1.name) part.2 row.2

variable {part : Field × List UInt8} {row : String × Value} {members : Table Value} {c : Cursor}
  {rest : List UInt8}

theorem names_read {parts : List (Field × List UInt8)} {rows : List (String × Value)}
    (h : List.Forall₂ (ReadsField d limits nested s path) parts rows) :
    rows.map Prod.fst = parts.map fun part => part.1.name := by
  induction h with
  | nil => rfl
  | cons hfirst _ ih => rw [List.map_cons, List.map_cons, hfirst.name, ih]

theorem fields_stop (hc : c.At []) (fs : List Field) :
    fields d limits nested s path fs members c = .ok (members, c) := by
  cases fs with
  | nil => rfl
  | cons f more => rw [fields, hc.atEnd, List.isEmpty_nil, if_pos rfl]

/-- One field is read, and the others are read from behind it. -/
theorem fields_step (h : ReadsField d limits nested s path part row) (hc : c.At (part.2 ++ rest))
    (more : List Field) :
    fields d limits nested s path (part.1 :: more) members c =
      fields d limits nested s path more (Table.insert members row.1 row.2)
        (c.advance part.2.length) := by
  obtain ⟨type, htype, hreads⟩ := h.reads
  have hend : c.atEnd = false := by
    rw [hc.atEnd, List.isEmpty_eq_false_iff]
    exact List.append_ne_nil_of_left_ne_nil h.nonempty rest
  rw [fields, hend, if_neg Bool.false_ne_true, htype, ok_bind, hreads.whole c rest hc, ok_bind,
    h.name]

theorem fields_cut (h : ReadsField d limits nested s path part row) {m : Nat} (hpos : 0 < m)
    (hm : m < part.2.length) (hc : c.At (part.2.take m)) (more : List Field) :
    ∃ needed remaining, fields d limits nested s path (part.1 :: more) members c =
      .error (.truncated (path ++ "." ++ part.1.name) needed remaining) := by
  obtain ⟨type, htype, hreads⟩ := h.reads
  have hend : c.atEnd = false := by
    rw [hc.atEnd, List.isEmpty_eq_false_iff]
    intro hnil
    have hlength := congrArg List.length hnil
    rw [List.length_take, List.length_nil] at hlength
    omega
  obtain ⟨needed, remaining, hcut⟩ := hreads.cut c m hm hc
  refine ⟨needed, remaining, ?_⟩
  rw [fields, hend, if_neg Bool.false_ne_true, htype, ok_bind, hcut, error_bind]

/-- Fields that stand one behind the other are all read, and the others from behind them. -/
theorem fields_run {parts : List (Field × List UInt8)} {rows : List (String × Value)}
    (h : List.Forall₂ (ReadsField d limits nested s path) parts rows) :
    ∀ {members : Table Value} {c : Cursor}, c.At (parts.flatMap Prod.snd ++ rest) →
      ∀ more : List Field, fields d limits nested s path (parts.map Prod.fst ++ more) members c =
        fields d limits nested s path more
          (rows.foldl (fun t row => Table.insert t row.1 row.2) members)
          (c.advance (parts.flatMap Prod.snd).length) := by
  induction h with
  | nil => exact fun _ _ => rfl
  | cons hfirst hlater ih =>
    intro members c hc more
    rw [List.flatMap_cons, List.append_assoc] at hc
    rw [List.map_cons, List.cons_append, fields_step hfirst hc, ih hc.advance,
      Cursor.advance_advance, List.flatMap_cons, List.length_append]
    rfl

/-- The fields whose bytes are there are read, and those that are missing left out. -/
theorem fields_whole {parts : List (Field × List UInt8)} {rows : List (String × Value)}
    (h : List.Forall₂ (ReadsField d limits nested s path) parts rows)
    (hc : c.At (parts.flatMap Prod.snd)) (later : List Field) :
    fields d limits nested s path (parts.map Prod.fst ++ later) .empty c =
      .ok (Table.ofList rows, c.advance (parts.flatMap Prod.snd).length) := by
  rw [← List.append_nil (parts.flatMap Prod.snd)] at hc
  rw [fields_run h hc, fields_stop hc.advance]
  rfl

end Fields

/-! ### Structs -/

section Structs
variable {d : Document} {limits : Limits}
  {direct : StructDef → Value → String → Except Fault (List UInt8)}
  {canonical : StructDef → Value → Option Value}
  {nested : StructDef → Cursor → String → Except Fault (Value × Cursor)} {s : StructDef}
  {members : Table Value} {path key : String} {parts : List (Field × List UInt8)}

theorem readable_of_writes {v w : Value} {f : Field} {type : ResolvedType} (hd : d.InBounds)
    (hs : d.struct? key = some s) (hf : Faithful d s v) (hw : Writes d s v f type w) :
    Readable d type w := by
  cases type with
  | int kind bounds =>
    cases bounds with
    | none => trivial
    | some b => exact hd key s hs f hw.declared kind b (d.eq_int_of_resolve hw.resolved)
  | any => exact hf.json s v f w .here hw
  | struct t => exact ⟨d.struct?_of_resolve hw.resolved, hf.below hw⟩
  | _ => trivial

theorem parts_read (hn : NestedReadsBack d direct canonical nested) (hd : d.InBounds)
    (hs : d.struct? key = some s) (hf : Faithful d s (.object members)) {fs : List Field}
    (hfs : ∀ f ∈ fs, f ∈ s.fields)
    (h : Direct.parts d limits direct s members path fs = .ok parts) :
    ∃ rows, Canonical.rows? d canonical s members fs = some rows ∧
      List.Forall₂ (ReadsField d limits nested s path) parts rows := by
  induction fs generalizing parts with
  | nil => exact ⟨[], rfl, Except.ok.inj h ▸ .nil⟩
  | cons f more ih =>
    rw [List.forall_mem_cons] at hfs
    obtain ⟨hnone, hmore⟩ |
      ⟨given, type, bytes, later, hgiven, htype, hvalid, hbytes, hmore, rfl⟩ :=
        Direct.parts_cons h
    · obtain ⟨rows, hrows, hread⟩ := ih hfs.2 hmore
      exact ⟨rows, by simp only [Canonical.rows?, hnone, hrows], hread⟩
    · obtain ⟨rows, hrows, hread⟩ := ih hfs.2 hmore
      have hw : Writes d s (.object members) f type (given type) :=
        ⟨hfs.1, htype, members, given, rfl, hgiven, rfl⟩
      obtain ⟨w, hback⟩ := value_readsBack hn (readable_of_writes hd hs hf hw)
        (ResolvedType.accepts_of_validate hvalid) hbytes
      refine ⟨(f.name, w) :: rows, ?_, .cons ?_ hread⟩
      · simp [Canonical.rows?, hgiven, htype, hback.canonical, hrows, Except.toOption]
      · exact ⟨rfl, hback.nonempty, type, htype, hback.reads⟩

/-- The fields that are written are the first of those declared. -/
theorem parts_lead (hl : Leading s members)
    (h : Direct.parts d limits direct s members path s.fields = .ok parts) :
    ∃ later, s.fields = parts.map Prod.fst ++ later := by
  obtain ⟨first, later, hfields, hfirst, hlater⟩ := hl
  refine ⟨later, ?_⟩
  have hkept : first.filter (Direct.written members) = first := List.filter_eq_self.2 hfirst
  have hgone : later.filter (Direct.written members) = [] := List.filter_eq_nil_iff.2 hlater
  rw [Direct.map_fst_parts h, hfields, List.filter_append, hkept, hgone, List.append_nil]

end Structs

section Levels

/-- The bytes of a struct, laid out by its written fields, which are read as the rows of its
canonical value. -/
structure Laid (d : Document) (limits : Limits) (levels : Nat) (s : StructDef)
    (members : Table Value) (path : String) (bytes : List UInt8)
    (parts : List (Field × List UInt8)) (rows : List (String × Value)) : Prop where
  written : Direct.parts d limits (Direct.struct d limits levels) s members path s.fields =
    .ok parts
  whole : bytes = parts.flatMap Prod.snd
  leading : ∃ later, s.fields = parts.map Prod.fst ++ later
  canonical : Canonical.rows? d (Canonical.struct? d levels) s members s.fields = some rows
  read : List.Forall₂ (ReadsField d limits (struct d limits levels) s path) parts rows

variable {d : Document} {limits : Limits} {levels : Nat} {s : StructDef} {v : Value}
  {members : Table Value} {path key : String} {bytes : List UInt8}
  {parts : List (Field × List UInt8)} {rows : List (String × Value)}

theorem exists_laid (hd : d.InBounds)
    (hn : NestedReadsBack d (Direct.struct d limits levels) (Canonical.struct? d levels)
      (struct d limits levels))
    (hs : d.struct? key = some s) (hf : Faithful d s v)
    (h : Direct.struct d limits (levels + 1) s v path = .ok bytes) :
    ∃ members parts rows, v = .object members ∧
      Laid d limits levels s members path bytes parts rows := by
  cases v with
  | object members =>
    obtain ⟨parts, hparts, hbytes⟩ := map_eq_ok.1 h
    obtain ⟨rows, hrows, hread⟩ := parts_read hn hd hs hf (fun _ hf => hf) hparts
    have hlead := parts_lead (hf.leading s _ .here members rfl) hparts
    exact ⟨members, parts, rows, rfl, hparts, hbytes.symm, hlead, hrows, hread⟩
  | _ => cases h

theorem Laid.canonical_eq (h : Laid d limits levels s members path bytes parts rows) :
    Canonical.struct? d (levels + 1) s (.object members) = some (.object (Table.ofList rows)) := by
  simp [Canonical.struct?, Value.object?, h.canonical]

theorem Laid.struct_eq (h : Laid d limits levels s members path bytes parts rows) :
    struct d limits (levels + 1) s (.ofBytes bytes) path =
      .ok (.object (Table.ofList rows), (Cursor.ofBytes bytes).advance bytes.length) := by
  obtain ⟨later, hfields⟩ := h.leading
  rw [struct, hfields, h.whole, fields_whole h.read (Cursor.ofBytes_at _) later]
  rfl

/-- At every level a struct is read back from its bytes. -/
theorem nestedReadsBack_struct (hd : d.InBounds) (levels : Nat) :
    NestedReadsBack d (Direct.struct d limits levels) (Canonical.struct? d levels)
      (struct d limits levels) := by
  induction levels with
  | zero => intro name t v path bytes _ _ h; cases h
  | succ levels ih =>
    intro name t v path bytes ht hf h
    obtain ⟨members, parts, rows, rfl, hlaid⟩ := exists_laid hd ih ht hf h
    exact ⟨_, _, hlaid.canonical_eq, hlaid.struct_eq⟩

end Levels

end Decode

/-! ### A sample -/

namespace Sample

/-- A local enum, a default, a nested struct and a field to leave out. -/
def text : String :=
  "struct P { any j; } struct S { enum E { A; B = 300; } E e; string n : hi; P p; bool z; }"

def inner : StructDef := ⟨"P", [⟨"j", .any, none⟩], .empty⟩

def outer : StructDef :=
  ⟨"S", [⟨"e", .named "E", none⟩, ⟨"n", .string, some "hi"⟩, ⟨"p", .named "P", none⟩,
    ⟨"z", .bool, none⟩], Table.ofList [("E", ⟨"E", [⟨"A", 0⟩, ⟨"B", 300⟩]⟩)]⟩

def document : Document := ⟨Table.ofList [("P", inner), ("S", outer)], .empty⟩

def value : Value :=
  .object (Table.ofList [("e", .string "B"), ("p", .object (Table.ofList [("j", .null)]))])

def bytes : List UInt8 := [172, 2, 2, 104, 105, 5, 4, 110, 117, 108, 108]

theorem compile_text : Document.compile text = .ok document := by decide +kernel

theorem struct?_outer : document.struct? "S" = some outer := by decide

theorem encode_value : document.encode {} "S" value = .ok bytes := by decide +kernel

theorem faithful_value : Faithful document outer value :=
  faithful_of_keepsFields (show keepsFields document 2 outer value by decide)

end Sample

/-! ### Encoding and decoding -/

namespace Document

variable {text name : String} {d : Document} {limits : Limits} {s : StructDef} {v : Value}
  {bytes : List UInt8}

/-- Decoding from the start. -/
theorem decode_zero (hs : d.struct? name = some s) (bytes : List UInt8) :
    d.decode limits name bytes 0 =
      (Decode.struct d limits limits.levels s (.ofBytes bytes) name).map
        fun read => (read.1, read.2.index) := by
  have hstruct : d.getStruct name = .ok s := by rw [getStruct, hs]
  rw [decode, hstruct, ok_bind, ← Cursor.ofBytes]
  cases Decode.struct d limits limits.levels s (.ofBytes bytes) name <;> rfl

/-- What is encoded is laid out by its fields. -/
theorem laid_of_encode (hc : compile text = .ok d) (hs : d.struct? name = some s)
    (he : d.encode limits name v = .ok bytes) (hf : Faithful d s v) :
    ∃ members parts rows, v = .object members ∧
      Decode.Laid d limits limits.maxDepth.toNat s members name bytes parts rows := by
  obtain ⟨-, hd⟩ := compile_inBounds hc
  rw [encode_direct, encodeDirect, hs] at he
  exact Decode.exists_laid hd (Decode.nestedReadsBack_struct hd _) hs hf he

/-- Encoding and then decoding a value gives its canonical form, and takes all the bytes, provided
that at every level the written fields come first and that what is written as JSON can be read. -/
theorem decode_encode_canonical (hc : compile text = .ok d) (hs : d.struct? name = some s)
    (he : d.encode limits name v = .ok bytes) (hf : Faithful d s v) :
    ∃ w, Canonical.struct? d limits.levels s v = some w ∧
      d.decode limits name bytes 0 = .ok (w, bytes.length) := by
  obtain ⟨members, parts, rows, rfl, hlaid⟩ := laid_of_encode hc hs he hf
  refine ⟨_, hlaid.canonical_eq, ?_⟩
  rw [decode_zero hs, Limits.levels, hlaid.struct_eq]
  simp [Cursor.ofBytes, Cursor.advance]

/-- The sample is read back with its default, and without the field that it leaves out. -/
theorem decode_encode_sample :
    ∃ w, Canonical.struct? Sample.document ({} : Limits).levels Sample.outer Sample.value = some w ∧
      Sample.document.decode {} "S" Sample.bytes 0 = .ok (w, 11) :=
  decode_encode_canonical Sample.compile_text Sample.struct?_outer Sample.encode_value
    Sample.faithful_value

end Document

end WireSchema
