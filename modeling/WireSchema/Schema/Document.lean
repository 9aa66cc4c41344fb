import WireSchema.Schema.Block
import WireSchema.Schema.Declaration

/-! Reading a schema. Comments go first. Structs are cut out, the braces of each matched,
and read one after the other; then the enums are cut out of what is left, and nothing
but blanks may be left then. -/

namespace WireSchema

namespace Schema

/-- A fault at an offset of the text as it was given. -/
def faultAt {α : Type} (text : List Char) (offset : Nat) (cause : SyntaxCause) : Except Fault α :=
  .error (.badText cause (.ofOffset text offset))

/-! ### Enums -/

/-- The code after one, if there is room for it. -/
def successor? (code : Int64) : Option Int64 :=
  if code = Int64.maxValue then none else some (code + 1)

/-- The code of an entry: what is written, or else the next. -/
def entryCode (text : List Char) (enum : String) (offset : Nat) (name : List Char) :
    (literal : Option (List Char)) → (next : Option Int64) → Except Fault Int64
  | some literal, _ =>
    match Text.int64? literal with
    | some code => .ok code
    | none => faultAt text offset (.invalidInteger (String.ofList literal))
  | none, some code => .ok code
  | none, none => faultAt text offset (.codeOverflow (String.ofList name) enum)

/-- The members of an enum from its entries, `next` being the code of one without a literal. -/
def members (text : List Char) (enum : String) :
    (next : Option Int64) → List (Nat × List Char) → Except Fault (List Member)
  | _, [] => .ok []
  | next, (offset, entry) :: more =>
    match entry? entry with
    | none => faultAt text offset (.malformedEntry (String.ofList entry) enum)
    | some (name, literal) => do
      let code ← entryCode text enum offset name literal next
      let later ← members text enum (successor? code) more
      .ok (⟨String.ofList name, code⟩ :: later)

def enumOfBlock (text : List Char) (offset : Nat) (block : Block) : Except Fault EnumDef := do
  let members ← members text block.name (some 0) (declarations (offset + block.bodyAt) block.body)
  .ok ⟨block.name, members⟩

/-- Enums from their blocks. A name that is there twice is a fault at the later block. -/
def enumsOfBlocks (text : List Char) (twice : String → SyntaxCause) :
    (known : Table EnumDef) → List (Nat × Block) → Except Fault (Table EnumDef)
  | known, [] => .ok known
  | known, (offset, block) :: more =>
    if known.contains block.name then faultAt text offset (twice block.name)
    else do
      let enum ← enumOfBlock text offset block
      enumsOfBlocks text twice (Table.insert known block.name enum) more

/-! ### Structs -/

/-- A field from its declaration. -/
def fieldOfDeclaration (text : List Char) (struct : String) (known : List Field) (offset : Nat)
    (d : Declaration) : Except Fault Field :=
  let name := String.ofList d.name
  if known.any (·.name == name) then faultAt text offset (.fieldTwice name struct)
  else if d.default = some [] then faultAt text offset (.emptyDefault name)
  else do
    let type ← fieldType (String.ofList d.type) d.brackets (struct ++ "." ++ name)
    .ok ⟨name, type, d.default.map String.ofList⟩

/-- The fields of a struct from its declarations, after those already known. -/
def fields (text : List Char) (struct : String) :
    (known : List Field) → List (Nat × List Char) → Except Fault (List Field)
  | known, [] => .ok known
  | known, (offset, part) :: more =>
    match declaration? part with
    | some d => do
      let field ← fieldOfDeclaration text struct known offset d
      fields text struct (known ++ [field]) more
    | none =>
      if isOneWord part then fields text struct known more
      else faultAt text offset (.malformedField (String.ofList part))

/-- The first brace of a text, with its offset. -/
def brace? : (offset : Nat) → List Char → Option (Nat × Char)
  | _, [] => none
  | offset, c :: rest =>
    if c = '{' ∨ c = '}' then some (offset, c) else brace? (offset + c.utf8Size) rest

def structOfBlock (text : List Char) (offset : Nat) (block : Block) : Except Fault StructDef := do
  let bodyAt := offset + block.bodyAt
  let (enumBlocks, left) := blocks enumAt? bodyAt block.body
  let enums ← enumsOfBlocks text (.localEnumTwice · block.name) .empty enumBlocks
  match brace? bodyAt left with
  | some (place, brace) => faultAt text place (.strayBrace brace block.name)
  | none => do
    let fields ← fields text block.name [] (declarations bodyAt left)
    .ok ⟨block.name, fields, enums⟩

/-- Structs from their blocks. -/
def structsOfBlocks (text : List Char) :
    (known : Table StructDef) → List (Nat × Block) → Except Fault (Table StructDef)
  | known, [] => .ok known
  | known, (offset, block) :: more =>
    if !block.closed then faultAt text (offset + block.bodyAt - 1) (.unclosedStruct block.name)
    else if known.contains block.name then faultAt text offset (.structTwice block.name)
    else do
      let struct ← structOfBlock text offset block
      structsOfBlocks text (Table.insert known block.name struct) more

/-! ### Documents -/

/-- A schema from its text, the bounds of its fields as they are written. -/
def document (text : List Char) : Except Fault Document := do
  let (structBlocks, outside) := blocks structAt? 0 (stripComments text)
  let structs ← structsOfBlocks text .empty structBlocks
  let (enumBlocks, left) := blocks enumAt? 0 outside
  let enums ← enumsOfBlocks text .enumTwice .empty enumBlocks
  match Text.skipBlanks left with
  | [] => .ok ⟨structs, enums⟩
  | rest =>
    faultAt text (Utf8.size left - Utf8.size rest)
      (.unexpectedText (String.ofList (Text.firstWord rest)))

/-! ### Bounds -/

/-- Bounds have to be in order and inside those of the kind. -/
def checkBounds (owner : String) (kind : IntKind) (bounds : Bounds) : Except Fault Unit :=
  if bounds.max < bounds.min then .error (.badBounds owner (.inverted bounds))
  else if !bounds.within kind.bounds then .error (.badBounds owner (.exceeding bounds kind))
  else .ok ()

def checkField (struct : String) (field : Field) : Except Fault Unit :=
  match field.type with
  | .int kind (some bounds) => checkBounds (struct ++ "." ++ field.name) kind bounds
  | _ => .ok ()

def checkStruct (s : StructDef) : Except Fault Unit := s.fields.forM (checkField s.name)

/-- Checks the bounds of all fields, structs in the order of their names. -/
def checkDocument (d : Document) : Except Fault Unit := d.structs.values.forM checkStruct

end Schema

/-- Reads a type that stands alone. -/
def FieldType.ofToken (token : String) : Except Schema.Fault FieldType :=
  match Schema.typeToken? token.toList with
  | some (keyword, brackets) => Schema.fieldType (String.ofList keyword) brackets token
  | none => .error (.badText (.malformedToken token) ⟨1, 1⟩)

namespace Document

/-- Reads a schema without checking the bounds of its fields. -/
def parse (text : String) : Except Schema.Fault Document := Schema.document text.toList

/-- Reads a schema and checks the bounds of its fields. -/
def compile (text : String) : Except Schema.Fault Document := do
  let d ← parse text
  Schema.checkDocument d
  .ok d

end Document

end WireSchema
