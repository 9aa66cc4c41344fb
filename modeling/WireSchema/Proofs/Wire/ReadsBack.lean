import WireSchema.Proofs.Schema.WellFormed
import WireSchema.Proofs.Text.Utf8
import WireSchema.Proofs.Wire.Canonical
import WireSchema.Proofs.Wire.Reads
import WireSchema.Proofs.Wire.Word

/-! Values as they are read back, one kind of type after another. The bytes of a value are
never none, and they are read as its canonical form: an integer because its bounds keep it
within its bytes, a member of an enum because its code has a name, JSON because it was seen
to be readable, and a struct because its own bytes are. -/

namespace WireSchema

open Outcome

/-- What the reader relies on for a value of a type, beyond its being accepted. -/
def Readable (d : Document) : ResolvedType → Value → Prop
  | .int kind (some b), _ => b.Fit kind
  | .any, v => ∃ u, Value.ofJson v.toJson = .ok u
  | .struct t, v => (∃ name, d.struct? name = some t) ∧ Faithful d t v
  | _, _ => True

/-- The code of a member's name has a name, though perhaps that of a later member. -/
theorem EnumDef.name?_of_code? {e : EnumDef} {name : String} {code : Int64}
    (h : e.code? name = some code) : (e.name? code).isSome := by
  obtain ⟨m, hm, rfl⟩ := Option.map_eq_some_iff.1 h
  have hmem := List.mem_of_find?_eq_some hm
  rw [name?, Option.isSome_map, List.find?_isSome]
  exact ⟨m, hmem, by simp⟩

/-- The name of a code has a code, though perhaps that of a later member. -/
theorem EnumDef.code?_of_name? {e : EnumDef} {name : String} {code : Int64}
    (h : e.name? code = some name) : (e.code? name).isSome := by
  obtain ⟨m, hm, rfl⟩ := Option.map_eq_some_iff.1 h
  have hmem := List.mem_of_find?_eq_some hm
  rw [code?, Option.isSome_map, List.find?_isSome]
  exact ⟨m, hmem, by simp⟩

/-- The code that is written for an accepted value has a name. -/
theorem name?_of_accepts {e : EnumDef} {v : Value} {code : Int64}
    (ha : (ResolvedType.enum e).accepts v) (h : Encode.code? e v = some code) :
    (e.name? code).isSome := by
  cases v with
  | string name => exact EnumDef.name?_of_code? h
  | _ =>
    simp only [Encode.code?] at h
    simp only [ResolvedType.accepts, h, Option.any_some] at ha
    exact ha

namespace Decode

section Values
variable {d : Document} {limits : Limits}
  {direct : StructDef → Value → String → Except Fault (List UInt8)}
  {canonical : StructDef → Value → Option Value}
  {nested : StructDef → Cursor → String → Except Fault (Value × Cursor)}

/-- Bytes are read back for a value: some bytes, and as its canonical form. -/
structure ReadsBack (limits : Limits) (canonical : StructDef → Value → Option Value)
    (nested : StructDef → Cursor → String → Except Fault (Value × Cursor)) (type : ResolvedType)
    (v : Value) (path : String) (bytes : List UInt8) (w : Value) : Prop where
  canonical : Canonical.value? canonical type v = some w
  nonempty : bytes ≠ []
  reads : Reads (fun c => value limits nested type c path) path bytes w

theorem contains_of_accepts {kind : IntKind} {bounds : Option Bounds} {v : Value} {n : Int64}
    (hr : Readable d (.int kind bounds) v) (ha : (ResolvedType.int kind bounds).accepts v)
    (hn : v.int? = some n) : kind.bounds.contains n := by
  simp only [ResolvedType.accepts, hn, Option.any_some] at ha
  cases bounds with
  | none => exact ha
  | some b =>
    have hfit : b.Fit kind := hr
    have hb : b.contains n := ha
    simp only [Bounds.contains, Bool.and_eq_true, decide_eq_true_eq] at hb ⊢
    exact ⟨Int64.le_trans hfit.low hb.1, Int64.le_trans hb.2 hfit.high⟩

variable {v : Value} {path : String} {bytes : List UInt8}

theorem int_readsBack {kind : IntKind} {bounds : Option Bounds}
    (hr : Readable d (.int kind bounds) v) (ha : (ResolvedType.int kind bounds).accepts v)
    (h : Direct.value limits direct (.int kind bounds) v path = .ok bytes) :
    ∃ w, ReadsBack limits canonical nested (.int kind bounds) v path bytes w := by
  cases hn : v.int? with
  | none => simp [Direct.value, hn, ResolvedType.refuse] at h
  | some n =>
    simp only [Direct.value, hn, Except.ok.injEq] at h
    subst h
    have hlength := LittleEndian.length_encode kind.width n.toUInt64.toNat
    refine ⟨.int n, by simp [Canonical.value?, hn], ?_, ?_⟩
    · intro hnil
      rw [hnil] at hlength
      cases kind <;> cases hlength
    · refine (reads_word hlength).andThen
        (f := fun word => Except.ok (Value.int (intOfWord kind word))) ?_
      rw [LittleEndian.decode_encode, intOfWord_mod (contains_of_accepts hr ha hn)]

theorem enum_readsBack {e : EnumDef} (ha : (ResolvedType.enum e).accepts v)
    (h : Direct.value limits direct (.enum e) v path = .ok bytes) :
    ∃ w, ReadsBack limits canonical nested (.enum e) v path bytes w := by
  rw [Direct.value_enum] at h
  cases hc : Encode.code? e v with
  | none => simp [hc, ResolvedType.refuse] at h
  | some code =>
    simp only [hc, Except.ok.injEq] at h
    subst h
    obtain ⟨name, hname⟩ := Option.isSome_iff_exists.1 (name?_of_accepts ha hc)
    refine ⟨.string name, ?_, Varint.encode_ne_nil _, ?_⟩
    · simp [Canonical.value?, hc, hname]
    · refine (reads_varint code.toUInt64.toNat_lt).andThen
        (f := fun n => Except.ok (enumOfCode e (UInt64.ofNat n).toInt64)) ?_
      rw [toInt64_ofNat_toNat, enumOfCode, hname]

/-- What stands behind its length is read back as what is made of it. -/
theorem framed_readsBack {type : ResolvedType} {content : List UInt8} {w : Value}
    {f : List UInt8 → Except Fault Value}
    (hvalue : ∀ c, value limits nested type c path =
      payload limits c path >>= fun read => f read.1 >>= fun w => .ok (w, read.2))
    (h : Direct.framed limits content path = .ok bytes)
    (hw : Canonical.value? canonical type v = some w) (hf : f content = .ok w) :
    ReadsBack limits canonical nested type v path bytes w := by
  obtain ⟨hl, rfl⟩ := Direct.framed_eq_ok h
  refine ⟨hw, List.append_ne_nil_of_left_ne_nil (Varint.encode_ne_nil _) _, ?_⟩
  simp only [hvalue]
  exact (reads_payload hl).andThen hf

theorem string_readsBack (h : Direct.value limits direct .string v path = .ok bytes) :
    ∃ w, ReadsBack limits canonical nested .string v path bytes w := by
  cases v with
  | string s =>
    refine ⟨.string s, framed_readsBack
      (f := fun bytes => Except.ok (Value.string (String.ofList (Utf8.decodeLenient bytes))))
      (fun _ => rfl) h rfl ?_⟩
    rw [Utf8.decodeLenient_encode, String.ofList_toList]
  | _ => cases h

theorem any_readsBack (hr : Readable d .any v)
    (h : Direct.value limits direct .any v path = .ok bytes) :
    ∃ w, ReadsBack limits canonical nested .any v path bytes w := by
  obtain ⟨u, hu⟩ := hr
  have hparse : Json.parse (Json.chars v) = .ok u := by
    rwa [Value.ofJson, Value.toJson, String.toList_ofList] at hu
  rw [Direct.value_any] at h
  refine ⟨u, framed_readsBack (f := fun bytes => anyOfBytes bytes path) (fun _ => rfl) h ?_ ?_⟩
  · rw [Canonical.value?, hu]
    rfl
  · rw [anyOfBytes, Utf8.decode_encode]
    simp only [hparse]

theorem bool_readsBack (h : Direct.value limits direct .bool v path = .ok bytes) :
    ∃ w, ReadsBack limits canonical nested .bool v path bytes w := by
  cases v with
  | bool b =>
    obtain rfl := Except.ok.inj h
    refine ⟨.bool b, rfl, List.cons_ne_nil _ _, ?_⟩
    have hbyte : Reads (fun c => expect c 1 path (c.word 1)) path [if b then 1 else 0] _ :=
      reads_word rfl
    refine hbyte.andThen (f := fun byte => boolOfByte byte path) ?_
    cases b <;> rfl
  | _ => cases h

theorem float32_readsBack (h : Direct.value limits direct .float32 v path = .ok bytes) :
    ∃ w, ReadsBack limits canonical nested .float32 v path bytes w := by
  cases hx : v.float? with
  | none => simp [Direct.value, hx, ResolvedType.refuse] at h
  | some x =>
    simp only [Direct.value, hx, Except.ok.injEq] at h
    subst h
    refine ⟨.float x.narrow.widen, by simp [Canonical.value?, hx], List.cons_ne_nil _ _, ?_⟩
    exact (reads_float32 x.narrow).andThen (f := fun x => Except.ok (Value.float x.widen)) rfl

theorem float64_readsBack (h : Direct.value limits direct .float64 v path = .ok bytes) :
    ∃ w, ReadsBack limits canonical nested .float64 v path bytes w := by
  cases hx : v.float? with
  | none => simp [Direct.value, hx, ResolvedType.refuse] at h
  | some x =>
    simp only [Direct.value, hx, Except.ok.injEq] at h
    subst h
    refine ⟨.float x, by simp [Canonical.value?, hx], List.cons_ne_nil _ _, ?_⟩
    exact (reads_float64 x).andThen (f := fun x => Except.ok (Value.float x)) rfl

/-- Structs are read back from their own bytes, whole. -/
def NestedReadsBack (d : Document) (direct : StructDef → Value → String → Except Fault (List UInt8))
    (canonical : StructDef → Value → Option Value)
    (nested : StructDef → Cursor → String → Except Fault (Value × Cursor)) : Prop :=
  ∀ name t v path bytes, d.struct? name = some t → Faithful d t v →
    direct t v path = .ok bytes →
      ∃ w c, canonical t v = some w ∧ nested t (.ofBytes bytes) path = .ok (w, c)

/-- Of a nested struct nothing but the value is kept. -/
theorem value_struct (t : StructDef) (c : Cursor) :
    value limits nested (.struct t) c path = payload limits c path >>= fun read =>
      (nested t (.ofBytes read.1) path).map Prod.fst >>= fun v => .ok (v, read.2) := by
  simp only [value]
  congr 1
  funext read
  cases nested t (.ofBytes read.1) path <;> rfl

theorem struct_readsBack (hn : NestedReadsBack d direct canonical nested) {t : StructDef}
    (hr : Readable d (.struct t) v)
    (h : Direct.value limits direct (.struct t) v path = .ok bytes) :
    ∃ w, ReadsBack limits canonical nested (.struct t) v path bytes w := by
  obtain ⟨⟨name, ht⟩, hf⟩ := hr
  rw [Direct.value_struct] at h
  obtain ⟨inner, hinner, h⟩ := bind_eq_ok.1 h
  obtain ⟨w, c, hw, hread⟩ := hn name t v path inner ht hf hinner
  refine ⟨w, framed_readsBack (f := fun bytes => (nested t (.ofBytes bytes) path).map Prod.fst)
    (value_struct t) h hw ?_⟩
  rw [hread, map_ok]

/-- Of every type, what is written is read back. -/
theorem value_readsBack (hn : NestedReadsBack d direct canonical nested) {type : ResolvedType}
    (hr : Readable d type v) (ha : type.accepts v)
    (h : Direct.value limits direct type v path = .ok bytes) :
    ∃ w, ReadsBack limits canonical nested type v path bytes w := by
  cases type with
  | bool => exact bool_readsBack h
  | string => exact string_readsBack h
  | float32 => exact float32_readsBack h
  | float64 => exact float64_readsBack h
  | any => exact any_readsBack hr h
  | int kind bounds => exact int_readsBack hr ha h
  | enum e => exact enum_readsBack ha h
  | struct t => exact struct_readsBack hn hr h

end Values

end Decode

end WireSchema
