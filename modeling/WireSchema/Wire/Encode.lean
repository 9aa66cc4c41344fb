import WireSchema.Bytes.Item
import WireSchema.Typing.Accept
import WireSchema.Wire.Default
import WireSchema.Wire.Limits

/-! Encoding a struct. The fields follow one another in the order of their declaration,
with nothing between them:

- an integer as a little-endian word of its width, a bool as a byte, a float as its bits;
- an enum as the code of the member in base 128;
- a string, and any other value as JSON text, behind its length in base 128;
- a struct behind its length in base 128.

A field that the value lacks takes its default, and is left out if it has none. First
the items are listed, in one list for all levels, and then they are written. The length
of a nested struct gets its place in the list before the items of the struct, when it
is not known yet, and is put there after them. -/

namespace WireSchema

/-- The items listed so far, and the number of bytes of those that were listed last. -/
structure Plan where
  items : Array Item
  size : Nat

namespace Encode

def checkLength (limits : Limits) (length : Nat) (path : String) : Except Fault Unit :=
  if limits.maxLength.toNat < length then .error (.tooLong path length limits.maxLength.toNat)
  else .ok ()

/-- Lists one more item. -/
def item (item : Item) (items : Array Item) : Plan := ⟨items.push item, item.size⟩

/-- Lists a text behind its length. -/
def text (limits : Limits) (chars : List Char) (path : String) (items : Array Item) :
    Except Fault Plan := do
  let bytes := Utf8.encode chars
  checkLength limits bytes.length path
  let length := Item.varint (UInt64.ofNat bytes.length)
  .ok ⟨(items.push length).push (.bytes bytes), length.size + bytes.length⟩

/-- The code that a value gives for an enum: that of a name, or the integer itself. -/
def code? (e : EnumDef) : Value → Option Int64
  | .string name => e.code? name
  | v => v.int?

/-- Lists a value of a type, structs being listed by `nested`. -/
def value (limits : Limits)
    (nested : StructDef → Value → String → Array Item → Except Fault Plan)
    (type : ResolvedType) (v : Value) (path : String) (items : Array Item) : Except Fault Plan :=
  match type with
  | .int kind _ =>
    match v.int? with
    | some n => .ok (item (.fixed n kind.width) items)
    | none => type.refuse v path
  | .string =>
    match v.string? with
    | some s => text limits s.toList path items
    | none => type.refuse v path
  | .any => text limits (Json.chars v) path items
  | .bool =>
    match v.bool? with
    | some b => .ok (item (.bool b) items)
    | none => type.refuse v path
  | .float32 =>
    match v.float? with
    | some x => .ok (item (.float32 x.narrow) items)
    | none => type.refuse v path
  | .float64 =>
    match v.float? with
    | some x => .ok (item (.float64 x) items)
    | none => type.refuse v path
  | .enum e =>
    match code? e v with
    | some code => .ok (item (.varint code.toUInt64) items)
    | none => type.refuse v path
  | .struct s => do
    let inner ← nested s v path (items.push (.varint 0))
    checkLength limits inner.size path
    let length := Item.varint (UInt64.ofNat inner.size)
    .ok ⟨inner.items.setIfInBounds items.size length, length.size + inner.size⟩

/-- The type and the value to write for a field: the value supplied, else the default; none if
the field is left out. -/
def fieldValue? (d : Document) (s : StructDef) (members : Table Value) (f : Field) :
    Except Fault (Option (ResolvedType × Value)) :=
  match members.find? f.name, f.default with
  | some v, _ => do
    let type ← d.resolve (some s) f.type
    .ok (some (type, v))
  | none, some raw => do
    let type ← d.resolve (some s) f.type
    .ok (some (type, type.liftDefault raw))
  | none, none => .ok none

def field (d : Document) (limits : Limits)
    (nested : StructDef → Value → String → Array Item → Except Fault Plan) (s : StructDef)
    (members : Table Value) (path : String) (f : Field) (items : Array Item) :
    Except Fault Plan := do
  match ← fieldValue? d s members f with
  | none => .ok ⟨items, 0⟩
  | some (type, v) => do
    let fieldPath := path ++ "." ++ f.name
    type.validate v fieldPath
    value limits nested type v fieldPath items

def fields (d : Document) (limits : Limits)
    (nested : StructDef → Value → String → Array Item → Except Fault Plan) (s : StructDef)
    (members : Table Value) (path : String) : List Field → Array Item → Except Fault Plan
  | [], items => .ok ⟨items, 0⟩
  | f :: more, items => do
    let first ← field d limits nested s members path f items
    let later ← fields d limits nested s members path more first.items
    .ok ⟨later.items, first.size + later.size⟩

/-- A struct where `levels` may still be entered. -/
def struct (d : Document) (limits : Limits) :
    (levels : Nat) → StructDef → Value → String → Array Item → Except Fault Plan
  | 0, _, _, path, _ => .error (.tooDeep path limits.maxDepth.toNat)
  | levels + 1, s, v, path, items =>
    match v.object? with
    | some members => fields d limits (struct d limits levels) s members path s.fields items
    | none => ResolvedType.refuse (.struct s) v path

end Encode

namespace Document

/-- The struct of a name, for encoding or decoding. -/
def getStruct (d : Document) (name : String) : Except Fault StructDef :=
  match d.struct? name with
  | some s => .ok s
  | none => .error (.unknownStruct name)

/-- What encoding a value writes. -/
def plan (d : Document) (limits : Limits) (name : String) (v : Value) : Except Fault Plan := do
  let s ← d.getStruct name
  Encode.struct d limits limits.levels s v name #[]

def encode (d : Document) (limits : Limits) (name : String) (v : Value) :
    Except Fault (List UInt8) := do
  let plan ← d.plan limits name v
  .ok (Item.encodeAll plan.items.toList)

end Document

end WireSchema
