import WireSchema.Proofs.Schema.Reading

/-! The grammar of schemas. A definition is written as a row of tokens, and the tokens are
written one after another with white space and comments between. Nothing here speaks of
how a schema is read.

    document   ::= { struct_def | enum_def }
    struct_def ::= "struct" IDENT "{" { field_decl ";" | enum_def } "}"
    enum_def   ::= "enum" IDENT "{" { IDENT ["=" INTEGER] ";" } "}"
    field_decl ::= type_token IDENT [ ":" default_literal ]
    type_token ::= scalar_kw | int_kw [ "[" INTEGER "," INTEGER "]" ] | IDENT -/

namespace WireSchema.Grammar

/-! ### Tokens and gaps -/

inductive Token where
  /-- A keyword or a name. -/
  | word (text : List Char)
  /-- An integer or a default. -/
  | literal (text : List Char)
  | mark (c : Char)

def Token.text : Token → List Char
  | word text => text
  | literal text => text
  | mark c => [c]

def Token.isWord : Token → Bool
  | word _ => true
  | literal _ | mark _ => false

/-- White space and comments, each comment with the line feed that ends it. -/
inductive Gap : List Char → Prop
  | nothing : Gap []
  | blank {c : Char} {gap : List Char} (hc : Text.isBlank c) (more : Gap gap) : Gap (c :: gap)
  | comment {body gap : List Char} (hbody : '\n' ∉ body) (more : Gap gap) :
      Gap ('/' :: '/' :: (body ++ '\n' :: gap))

/-- The gap at the end, where a comment may lack the line feed. -/
inductive LastGap : List Char → Prop
  | gap {gap : List Char} (h : Gap gap) : LastGap gap
  | comment {gap body : List Char} (h : Gap gap) (hbody : '\n' ∉ body) :
      LastGap (gap ++ '/' :: '/' :: body)

/-- A text of tokens with gaps between. Between two words the gap is not empty. -/
inductive Spaced (Between Last : List Char → Prop) :
    (wordBefore : Bool) → List Token → List Char → Prop
  | nil {wordBefore : Bool} {gap : List Char} (last : Last gap) :
      Spaced Between Last wordBefore [] gap
  | cons {wordBefore : Bool} {gap rest : List Char} {token : Token} {tokens : List Token}
      (between : Between gap) (apart : wordBefore → token.isWord → gap ≠ [])
      (more : Spaced Between Last token.isWord tokens rest) :
      Spaced Between Last wordBefore (token :: tokens) (gap ++ (token.text ++ rest))

/-! ### Integers -/

/-- A number in decimal, leading zeros allowed. -/
inductive Numeral : Nat → List Char → Prop
  | digit {c : Char} (hc : c.isDigit) : Numeral (Text.digitValue c) [c]
  | more {n : Nat} {digits : List Char} {c : Char} (front : Numeral n digits) (hc : c.isDigit) :
      Numeral (10 * n + Text.digitValue c) (digits ++ [c])

/-- A numeral, perhaps with a minus before it. -/
inductive Integer : Int → List Char → Prop
  | plain {n : Nat} {digits : List Char} (h : Numeral n digits) : Integer n digits
  | minus {n : Nat} {digits : List Char} (h : Numeral n digits) : Integer (-n) ('-' :: digits)

/-! ### Enums -/

/-- Entries of an enum, each code written, or left out when it is the next. -/
inductive Entries : (next : Int) → List Member → List Token → Prop
  | nil {next : Int} : Entries next [] []
  | written {next : Int} {name : String} {code : Int64} {literal : List Char} {ms : List Member}
      {tokens : List Token} (ident : Text.isIdentifier name.toList)
      (integer : Integer code.toInt literal) (more : Entries (code.toInt + 1) ms tokens) :
      Entries next (⟨name, code⟩ :: ms)
        (.word name.toList :: .mark '=' :: .literal literal :: .mark ';' :: tokens)
  | counted {next : Int} {name : String} {code : Int64} {ms : List Member} {tokens : List Token}
      (ident : Text.isIdentifier name.toList) (hcode : code.toInt = next)
      (more : Entries (code.toInt + 1) ms tokens) :
      Entries next (⟨name, code⟩ :: ms) (.word name.toList :: .mark ';' :: tokens)

/-- A keyword, a name and a body in braces. -/
def block (keyword name : String) (body : List Token) : List Token :=
  .word keyword.toList :: .word name.toList :: .mark '{' :: (body ++ [.mark '}'])

inductive Enum : EnumDef → List Token → Prop
  | mk {name : String} {ms : List Member} {body : List Token}
      (ident : Text.isIdentifier name.toList) (entries : Entries 0 ms body) :
      Enum ⟨name, ms⟩ (block "enum" name body)

/-! ### Fields -/

def scalars : List (String × FieldType) :=
  [("bool", .bool), ("string", .string), ("float", .float64), ("float32", .float32),
    ("float64", .float64), ("any", .any)]

def integers : List (String × IntKind) :=
  [("int", .int32), ("int8", .int8), ("uint8", .uint8), ("int16", .int16), ("uint16", .uint16),
    ("int32", .int32), ("uint32", .uint32)]

inductive TypeToken : FieldType → List Token → Prop
  | scalar {keyword : String} {type : FieldType} (h : (keyword, type) ∈ scalars) :
      TypeToken type [.word keyword.toList]
  | int {keyword : String} {kind : IntKind} (h : (keyword, kind) ∈ integers) :
      TypeToken (.int kind none) [.word keyword.toList]
  | bounded {keyword : String} {kind : IntKind} {b : Bounds} {low high : List Char}
      (h : (keyword, kind) ∈ integers) (min : Integer b.min.toInt low)
      (max : Integer b.max.toInt high) :
      TypeToken (.int kind (some b))
        [.word keyword.toList, .mark '[', .literal low, .mark ',', .literal high, .mark ']']
  | named {name : String} (ident : Text.isIdentifier name.toList)
      (other : name ∉ scalars.map Prod.fst ++ integers.map Prod.fst) :
      TypeToken (.named name) [.word name.toList]

/-- Something without blanks around and without marks. -/
structure Solid (text : List Char) : Prop where
  nonempty : text ≠ []
  trimmed : Text.Trimmed text
  marks : ∀ mark ∈ [';', '{', '}', '/'], mark ∉ text

inductive Default : Option String → List Token → Prop
  | none : Default none []
  | some {raw : String} (h : Solid raw.toList) :
      Default (some raw) [.mark ':', .literal raw.toList]

inductive Decl : Field → List Token → Prop
  | mk {name : String} {type : FieldType} {default : Option String} {typeTokens : List Token}
      {defaultTokens : List Token} (htype : TypeToken type typeTokens)
      (ident : Text.isIdentifier name.toList) (hdefault : Default default defaultTokens) :
      Decl ⟨name, type, default⟩
        (typeTokens ++ .word name.toList :: (defaultTokens ++ [.mark ';']))

/-! ### Structs and documents -/

/-- Fields and enums in any order. -/
inductive Items : List Field → List EnumDef → List Token → Prop
  | nil : Items [] [] []
  | field {f : Field} {fs : List Field} {es : List EnumDef} {tokens later : List Token}
      (decl : Decl f tokens) (more : Items fs es later) : Items (f :: fs) es (tokens ++ later)
  | enum {e : EnumDef} {fs : List Field} {es : List EnumDef} {tokens later : List Token}
      (enum : Enum e tokens) (more : Items fs es later) : Items fs (e :: es) (tokens ++ later)

inductive Struct : StructDef → List Token → Prop
  | mk {name : String} {fs : List Field} {es : List EnumDef} {body : List Token}
      (ident : Text.isIdentifier name.toList) (items : Items fs es body)
      (fieldNames : (fs.map (·.name)).Nodup) (enumNames : (es.map (·.name)).Nodup) :
      Struct ⟨name, fs, Table.ofList (es.map EnumDef.row)⟩ (block "struct" name body)

/-- Structs and enums in any order. -/
inductive Definitions : List StructDef → List EnumDef → List Token → Prop
  | nil : Definitions [] [] []
  | struct {s : StructDef} {ss : List StructDef} {es : List EnumDef} {tokens later : List Token}
      (struct : Struct s tokens) (more : Definitions ss es later) :
      Definitions (s :: ss) es (tokens ++ later)
  | enum {e : EnumDef} {ss : List StructDef} {es : List EnumDef} {tokens later : List Token}
      (enum : Enum e tokens) (more : Definitions ss es later) :
      Definitions ss (e :: es) (tokens ++ later)

/-- A text that writes structs and enums of different names. -/
structure Writes (ss : List StructDef) (es : List EnumDef) (text : List Char) : Prop where
  structNames : (ss.map (·.name)).Nodup
  enumNames : (es.map (·.name)).Nodup
  tokens : ∃ tokens, Definitions ss es tokens ∧ Spaced Gap LastGap false tokens text

end WireSchema.Grammar
