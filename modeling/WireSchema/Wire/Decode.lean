import WireSchema.Bytes.Cursor
import WireSchema.Wire.Encode

/-! Decoding a struct. Where the bytes end before a field, the struct ends with them and
lacks the fields from there on. Bytes after the struct are not looked at. -/

namespace WireSchema

namespace Decode

/-- A read that needs a number of bytes. -/
def expect {α : Type} (before : Cursor) (needed : Nat) (path : String) :
    Except Cursor.Fault α × Cursor → Except Fault (α × Cursor)
  | (.ok a, after) => .ok (a, after)
  | (.error .short, _) => .error (.truncated path needed before.remaining)
  | (.error .pastEnd, _) => .error (.pastEnd path)

def varint (c : Cursor) (path : String) : Except Fault (Nat × Cursor) :=
  match c.varint with
  | (.ok n, after) => .ok (n, after)
  | (.error .truncated, _) => .error (.truncated path (c.remaining + 1) c.remaining)
  | (.error .overflow, _) => .error (.malformed path .varintOverflow)

/-- Bytes behind their length. -/
def payload (limits : Limits) (c : Cursor) (path : String) :
    Except Fault (List UInt8 × Cursor) := do
  let (declared, c) ← varint c path
  if limits.maxLength.toNat < declared then
    .error (.tooLong path declared limits.maxLength.toNat)
  else expect c declared path (c.take declared)

/-- An integer from its word. -/
def intOfWord (kind : IntKind) (word : Nat) : Int64 :=
  if kind.signed then Int64.ofInt (LittleEndian.signed kind.width word) else Int64.ofNat word

/-- The name of a code, or the code itself where none has it. -/
def enumOfCode (e : EnumDef) (code : Int64) : Value :=
  match e.name? code with
  | some name => .string name
  | none => .int code

def boolOfByte (byte : Nat) (path : String) : Except Fault Value :=
  match byte with
  | 0 => .ok (.bool false)
  | 1 => .ok (.bool true)
  | other => .error (.malformed path (.boolByte (UInt8.ofNat other)))

/-- A value from JSON text in UTF-8. -/
def anyOfBytes (bytes : List UInt8) (path : String) : Except Fault Value :=
  match Utf8.decode bytes with
  | .error fault => .error (.malformed path (.utf8 fault))
  | .ok chars =>
    match Json.parse chars with
    | .error fault => .error (.malformed path (.json fault))
    | .ok v => .ok v

/-- A value of a type, the bytes of structs being read by `nested`. -/
def value (limits : Limits)
    (nested : StructDef → Cursor → String → Except Fault (Value × Cursor))
    (type : ResolvedType) (c : Cursor) (path : String) : Except Fault (Value × Cursor) :=
  match type with
  | .int kind _ => do
    let (word, c) ← expect c kind.width path (c.word kind.width)
    .ok (.int (intOfWord kind word), c)
  | .string => do
    let (bytes, c) ← payload limits c path
    .ok (.string (String.ofList (Utf8.decodeLenient bytes)), c)
  | .any => do
    let (bytes, c) ← payload limits c path
    let v ← anyOfBytes bytes path
    .ok (v, c)
  | .bool => do
    let (byte, c) ← expect c 1 path (c.word 1)
    let v ← boolOfByte byte path
    .ok (v, c)
  | .float32 => do
    let (x, c) ← expect c 4 path c.float32
    .ok (.float x.widen, c)
  | .float64 => do
    let (x, c) ← expect c 8 path c.float64
    .ok (.float x, c)
  | .enum e => do
    let (code, c) ← varint c path
    .ok (enumOfCode e (UInt64.ofNat code).toInt64, c)
  | .struct s => do
    let (bytes, c) ← payload limits c path
    let (v, _) ← nested s (.ofBytes bytes) path
    .ok (v, c)

/-- The fields from some on, added to the members already read. -/
def fields (d : Document) (limits : Limits)
    (nested : StructDef → Cursor → String → Except Fault (Value × Cursor)) (s : StructDef)
    (path : String) :
    List Field → (members : Table Value) → Cursor → Except Fault (Table Value × Cursor)
  | [], members, c => .ok (members, c)
  | f :: more, members, c =>
    if c.atEnd then .ok (members, c)
    else do
      let type ← d.resolve (some s) f.type
      let (v, c) ← value limits nested type c (path ++ "." ++ f.name)
      fields d limits nested s path more (Table.insert members f.name v) c

/-- A struct where `levels` may still be entered. -/
def struct (d : Document) (limits : Limits) :
    (levels : Nat) → StructDef → Cursor → String → Except Fault (Value × Cursor)
  | 0, _, _, path => .error (.tooDeep path limits.maxDepth.toNat)
  | levels + 1, s, c, path => do
    let (members, c) ← fields d limits (struct d limits levels) s path s.fields .empty c
    .ok (.object members, c)

end Decode

/-- The value of a struct whose bytes start at an offset, and the offset after them. -/
def Document.decode (d : Document) (limits : Limits) (name : String) (bytes : List UInt8)
    (offset : Nat) : Except Fault (Value × Nat) := do
  let s ← d.getStruct name
  let (v, c) ← Decode.struct d limits limits.levels s ⟨bytes, offset⟩ name
  .ok (v, c.index)

end WireSchema
