import WireSchema.Proofs.Bytes.Cursor
import WireSchema.Proofs.Outcome
import WireSchema.Proofs.Typing.Resolve
import WireSchema.Wire.Decode

/-! Decoding bytes that nobody vouches for. Whatever the bytes are and wherever decoding
starts, no read is made past the end of the data, the offset at the end lies between the
offset at the start and the end of the data, and a fault is one of six and says the truth
about the bytes and the limits. -/

namespace WireSchema

open Outcome

namespace Decode

/-! ### Reads inside the data

A second decoder refuses every read, of however many bytes, for which the cursor stands past
the end of its data. Where it agrees with the first one and gives no such fault, the first
one makes no such read either. -/

namespace Guarded

/-- A read that is refused past the end of the data. -/
def within {α : Type} (c : Cursor) (path : String) (read : Except Fault (α × Cursor)) :
    Except Fault (α × Cursor) :=
  if c.data.length < c.index then .error (.pastEnd path) else read

def payload (limits : Limits) (c : Cursor) (path : String) :
    Except Fault (List UInt8 × Cursor) := do
  let (declared, c) ← within c path (varint c path)
  if limits.maxLength.toNat < declared then
    .error (.tooLong path declared limits.maxLength.toNat)
  else within c path (expect c declared path (c.take declared))

def value (limits : Limits)
    (nested : StructDef → Cursor → String → Except Fault (Value × Cursor))
    (type : ResolvedType) (c : Cursor) (path : String) : Except Fault (Value × Cursor) :=
  match type with
  | .int kind _ => do
    let (word, c) ← within c path (expect c kind.width path (c.word kind.width))
    .ok (.int (intOfWord kind word), c)
  | .string => do
    let (bytes, c) ← payload limits c path
    .ok (.string (String.ofList (Utf8.decodeLenient bytes)), c)
  | .any => do
    let (bytes, c) ← payload limits c path
    let v ← anyOfBytes bytes path
    .ok (v, c)
  | .bool => do
    let (byte, c) ← within c path (expect c 1 path (c.word 1))
    let v ← boolOfByte byte path
    .ok (v, c)
  | .float32 => do
    let (x, c) ← within c path (expect c 4 path c.float32)
    .ok (.float x.widen, c)
  | .float64 => do
    let (x, c) ← within c path (expect c 8 path c.float64)
    .ok (.float x, c)
  | .enum e => do
    let (code, c) ← within c path (varint c path)
    .ok (enumOfCode e (UInt64.ofNat code).toInt64, c)
  | .struct s => do
    let (bytes, c) ← payload limits c path
    let (v, _) ← nested s (.ofBytes bytes) path
    .ok (v, c)

def fields (d : Document) (limits : Limits)
    (nested : StructDef → Cursor → String → Except Fault (Value × Cursor)) (s : StructDef)
    (path : String) :
    List Field → (members : Table Value) → Cursor → Except Fault (Table Value × Cursor)
  | [], members, c => .ok (members, c)
  | f :: more, members, c =>
    if c.atEnd then .ok (members, c)
    else do
      let type ← d.resolve (some s) f.type
      let (v, c) ← value limits nested type c (path ++ "." ++ f.name)
      fields d limits nested s path more (Table.insert members f.name v) c

def struct (d : Document) (limits : Limits) :
    (levels : Nat) → StructDef → Cursor → String → Except Fault (Value × Cursor)
  | 0, _, _, path => .error (.tooDeep path limits.maxDepth.toNat)
  | levels + 1, s, c, path => do
    let (members, c) ← fields d limits (struct d limits levels) s path s.fields .empty c
    .ok (.object members, c)

end Guarded

/-! ### Outcomes -/

/-- What may be wrong with bytes: the faults of decoding, with what each of them says. -/
inductive Refusal (limits : Limits) : Fault → Prop
  | unknownStruct (name : String) : Refusal limits (.unknownStruct name)
  | unknownType (name : String) (struct : Option String) : Refusal limits (.unknownType name struct)
  | truncated (path : String) {needed remaining : Nat} (h : remaining < needed) :
      Refusal limits (.truncated path needed remaining)
  | tooDeep (path : String) : Refusal limits (.tooDeep path limits.maxDepth.toNat)
  | tooLong (path : String) {declared : Nat} (h : limits.maxLength.toNat < declared) :
      Refusal limits (.tooLong path declared limits.maxLength.toNat)
  | malformed (path : String) (cause : MalformedCause) : Refusal limits (.malformed path cause)

/-- A read from a cursor ends further on in its data, or with one of the faults. -/
inductive Settles {α : Type} (limits : Limits) (c : Cursor) : Except Fault (α × Cursor) → Prop
  | ok (a : α) {after : Cursor} (h : c.Reaches after) : Settles limits c (.ok (a, after))
  | error {fault : Fault} (h : Refusal limits fault) : Settles limits c (.error fault)

/-- From a cursor within its data, both decoders read the same and settle it. -/
structure Safe {α : Type} (limits : Limits) (c : Cursor)
    (guarded plain : Except Fault (α × Cursor)) : Prop where
  same : guarded = plain
  settles : Settles limits c plain

section Steps
variable {α β : Type} {limits : Limits} {c : Cursor} {path : String}

theorem Settles.reaches {read : Except Fault (α × Cursor)} (h : Settles limits c read) {a : α}
    {after : Cursor} (hr : read = .ok (a, after)) : c.Reaches after := by
  cases h with
  | ok b h =>
    obtain ⟨-, rfl⟩ := Prod.mk.inj (Except.ok.inj hr)
    exact h
  | error h => cases hr

theorem Settles.bind {read : Except Fault (α × Cursor)}
    {next : α × Cursor → Except Fault (β × Cursor)} (h : Settles limits c read)
    (hn : ∀ a after, c.Reaches after → Settles limits after (next (a, after))) :
    Settles limits c (read >>= next) := by
  cases h with
  | error h => exact .error h
  | @ok a after hreach =>
    rw [ok_bind]
    have hnext := hn a after hreach
    generalize next (a, after) = result at hnext
    cases hnext with
    | ok b hlast => exact .ok b (hreach.trans hlast)
    | error h => exact .error h

theorem Safe.bind {guarded plain : Except Fault (α × Cursor)}
    {next next' : α × Cursor → Except Fault (β × Cursor)} (h : Safe limits c guarded plain)
    (hn : ∀ a after, c.Reaches after → Safe limits after (next' (a, after)) (next (a, after))) :
    Safe limits c (guarded >>= next') (plain >>= next) := by
  refine ⟨?_, h.settles.bind fun a after hr => (hn a after hr).settles⟩
  rw [h.same]
  cases hp : plain with
  | error fault => rfl
  | ok result => exact (hn result.1 result.2 (h.settles.reaches hp)).same

/-- What is made of the result of a read reads nothing more. -/
theorem Safe.result {read : Except Fault β}
    (hf : ∀ fault, read = .error fault → Refusal limits fault) (c : Cursor) :
    Safe limits c (read >>= fun b => .ok (b, c)) (read >>= fun b => .ok (b, c)) := by
  refine ⟨rfl, ?_⟩
  cases h : read with
  | error fault => exact .error (hf fault h)
  | ok b => exact .ok b .rfl

theorem safe_within (hc : c.Within) {read : Except Fault (α × Cursor)}
    (h : Settles limits c read) : Safe limits c (Guarded.within c path read) read :=
  ⟨if_neg (Nat.not_lt.2 hc), h⟩

theorem expect_settles {n : Nat} {read : Except Cursor.Fault α × Cursor}
    (h : Cursor.Taken c n read) : Settles limits c (expect c n path read) := by
  cases h with
  | whole a h => exact .ok a (.advance h)
  | short h => exact .error (.truncated path h)

theorem varint_settles (c : Cursor) : Settles limits c (varint c path) := by
  have hreach := c.varint_reaches
  rw [varint]
  split
  · next n after h => exact .ok n (by rwa [h] at hreach)
  · exact .error (.truncated path (Nat.lt_succ_self _))
  · exact .error (.malformed path _)

end Steps

/-! ### Values -/

section Values
variable {limits : Limits} {c : Cursor} {path : String}

theorem payload_safe (hc : c.Within) :
    Safe limits c (Guarded.payload limits c path) (payload limits c path) := by
  refine (safe_within hc (varint_settles c)).bind fun declared after hreach => ?_
  have hafter : after.Within := hreach.within hc
  dsimp only
  split
  · next hlong => exact ⟨rfl, .error (.tooLong path hlong)⟩
  · exact safe_within hafter (expect_settles (Cursor.take_taken hafter declared))

theorem boolOfByte_refusal {byte : Nat} {fault : Fault}
    (h : boolOfByte byte path = .error fault) : Refusal limits fault := by
  unfold boolOfByte at h
  split at h
  · cases h
  · cases h
  · exact Except.error.inj h ▸ .malformed path _

theorem anyOfBytes_refusal {bytes : List UInt8} {fault : Fault}
    (h : anyOfBytes bytes path = .error fault) : Refusal limits fault := by
  unfold anyOfBytes at h
  split at h
  · exact Except.error.inj h ▸ .malformed path _
  · split at h
    · exact Except.error.inj h ▸ .malformed path _
    · cases h

variable {nested nested' : StructDef → Cursor → String → Except Fault (Value × Cursor)}

theorem value_safe (hc : c.Within)
    (hn : ∀ s bytes, Safe limits (.ofBytes bytes) (nested' s (.ofBytes bytes) path)
      (nested s (.ofBytes bytes) path)) (type : ResolvedType) :
    Safe limits c (Guarded.value limits nested' type c path) (value limits nested type c path) := by
  have hdone (v : Value) (after : Cursor) : Safe limits after (.ok (v, after)) (.ok (v, after)) :=
    ⟨rfl, .ok v .rfl⟩
  cases type with
  | int kind bounds =>
    exact (safe_within hc (expect_settles (Cursor.word_taken hc kind.width))).bind
      fun _ after _ => hdone _ after
  | string => exact (payload_safe hc).bind fun _ after _ => hdone _ after
  | any =>
    exact (payload_safe hc).bind fun _ after _ =>
      .result (fun _ h => anyOfBytes_refusal h) after
  | bool =>
    exact (safe_within hc (expect_settles (Cursor.word_taken hc 1))).bind fun _ after _ =>
      .result (fun _ h => boolOfByte_refusal h) after
  | float32 =>
    exact (safe_within hc (expect_settles (Cursor.float32_taken hc))).bind
      fun _ after _ => hdone _ after
  | float64 =>
    exact (safe_within hc (expect_settles (Cursor.float64_taken hc))).bind
      fun _ after _ => hdone _ after
  | enum e =>
    exact (safe_within hc (varint_settles c)).bind fun _ after _ => hdone _ after
  | struct s =>
    refine (payload_safe hc).bind fun bytes after _ => ?_
    -- the cursor on the nested bytes is dropped, and the outer one stays behind them
    obtain ⟨hsame, hsettles⟩ := hn s bytes
    dsimp only
    rw [hsame]
    generalize nested s (.ofBytes bytes) path = inner at hsettles
    cases hsettles with
    | ok v _ => exact hdone v after
    | error h => exact ⟨rfl, .error h⟩

end Values

/-! ### Structs -/

section Structs
variable {d : Document} {limits : Limits}

theorem resolve_refusal {scope : Option StructDef} {type : FieldType} {fault : Fault}
    (h : d.resolve scope type = .error fault) : Refusal limits fault := by
  obtain ⟨name, struct, rfl⟩ := Document.resolve_eq_error h
  exact .unknownType name struct

/-- The cursor may stand past the end here: then it is at its end, and nothing is read. -/
theorem fields_safe {nested nested' : StructDef → Cursor → String → Except Fault (Value × Cursor)}
    (hn : ∀ s bytes path, Safe limits (.ofBytes bytes) (nested' s (.ofBytes bytes) path)
      (nested s (.ofBytes bytes) path)) (s : StructDef) (path : String) (fs : List Field)
    (members : Table Value) (c : Cursor) :
    Safe limits c (Guarded.fields d limits nested' s path fs members c)
      (fields d limits nested s path fs members c) := by
  induction fs generalizing members c with
  | nil => exact ⟨rfl, .ok members .rfl⟩
  | cons f more ih =>
    rw [Guarded.fields, fields]
    split
    · exact ⟨rfl, .ok members .rfl⟩
    · next hend =>
      cases hr : d.resolve (some s) f.type with
      | error fault => exact ⟨rfl, .error (resolve_refusal hr)⟩
      | ok type =>
        rw [ok_bind, ok_bind]
        exact (value_safe (Cursor.within_of_atEnd hend) (fun s bytes => hn s bytes _) type).bind
          fun v after _ => ih _ after

theorem struct_safe (d : Document) (limits : Limits) (levels : Nat) (s : StructDef) (c : Cursor)
    (path : String) :
    Safe limits c (Guarded.struct d limits levels s c path) (struct d limits levels s c path) := by
  induction levels generalizing s c path with
  | zero => exact ⟨rfl, .error (.tooDeep path)⟩
  | succ levels ih =>
    rw [Guarded.struct, struct]
    exact (fields_safe (fun s bytes path => ih s (.ofBytes bytes) path) s path s.fields .empty
      c).bind fun members after _ => ⟨rfl, .ok _ .rfl⟩

end Structs

end Decode

namespace Document

open Decode

/-- Decoding with a decoder that refuses every read past the end of its data. -/
def decodeGuarded (d : Document) (limits : Limits) (name : String) (bytes : List UInt8)
    (offset : Nat) : Except Fault (Value × Nat) := do
  let s ← d.getStruct name
  let (v, c) ← Guarded.struct d limits limits.levels s ⟨bytes, offset⟩ name
  .ok (v, c.index)

/-- Decoding any bytes from any offset makes no read past the end of the data. It gives a value
and an offset not before the first one and not past the end, unless the first one was, or else a
fault of decoding. -/
theorem decode_safe (d : Document) (limits : Limits) (name : String) (bytes : List UInt8)
    (offset : Nat) :
    d.decodeGuarded limits name bytes offset = d.decode limits name bytes offset ∧
      ((∃ v stop, d.decode limits name bytes offset = .ok (v, stop) ∧ offset ≤ stop ∧
          stop ≤ max offset bytes.length) ∨
        ∃ fault, d.decode limits name bytes offset = .error fault ∧ Refusal limits fault) := by
  rw [decodeGuarded, decode]
  cases hs : d.getStruct name with
  | error fault =>
    refine ⟨rfl, .inr ⟨fault, rfl, ?_⟩⟩
    rw [getStruct] at hs
    split at hs
    · cases hs
    · exact Except.error.inj hs ▸ .unknownStruct name
  | ok s =>
    rw [ok_bind, ok_bind]
    obtain ⟨hsame, hsettles⟩ :=
      struct_safe d limits limits.levels s ⟨bytes, offset⟩ name
    rw [hsame]
    refine ⟨rfl, ?_⟩
    generalize struct d limits limits.levels s ⟨bytes, offset⟩ name = result at hsettles
    cases hsettles with
    | ok v hreach => exact .inl ⟨v, _, rfl, hreach.onward, hreach.bound⟩
    | error h => exact .inr ⟨_, rfl, h⟩

end Document

end WireSchema
