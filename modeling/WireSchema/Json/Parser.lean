import WireSchema.Json.Number
import WireSchema.Value.Basic

/-! Reading JSON. Arrays and objects nest to a fixed depth; of two members with one key
the later counts. Every function takes the text that is left and gives back what it
leaves. -/

namespace WireSchema.Json

/-- Arrays and objects around a value, itself included, are at most this many. -/
def maxDepth : Nat := 127

def isSpace (c : Char) : Bool := c == ' ' || c == '\t' || c == '\n' || c == '\r'

def skipSpaces (text : List Char) : List Char := text.dropWhile isSpace

/-! ### Words -/

/-- The letters of a word that have to follow. -/
def word (v : Value) : (letters : List Char) → Reader Value
  | [], rest => .ok (v, rest)
  | _ :: _, [] => failAt .endInValue []
  | letter :: letters, c :: rest =>
    if c = letter then word v letters rest else failPast .expectedIdent (c :: rest)

/-! ### Numbers -/

/-- The value of a number. A whole one is an integer if it has 64 bits with its sign, but for the
negative zero, and else the nearest float. -/
def signed (negative : Bool) : Magnitude → Value
  | .scaled pattern => .float (.ofPattern negative pattern)
  | .whole n =>
    if negative then
      if 0 < n ∧ n ≤ pow2 63 then .int (Int64.ofInt (-n))
      else .float (.ofPattern true (Format.double.ofNat n))
    else if n < pow2 63 then .int (Int64.ofNat n)
    else .float (.ofPattern false (Format.double.ofNat n))

def number (negative : Bool) : Reader Value := fun text => do
  let (m, rest) ← magnitude text
  .ok (signed negative m, rest)

/-! ### Strings -/

def hexValue? (c : Char) : Option Nat :=
  if '0' ≤ c ∧ c ≤ '9' then some (c.toNat - '0'.toNat)
  else if 'a' ≤ c ∧ c ≤ 'f' then some (c.toNat - 'a'.toNat + 10)
  else if 'A' ≤ c ∧ c ≤ 'F' then some (c.toNat - 'A'.toNat + 10)
  else none

/-- Where four hexadecimal digits are missing, the next four bytes are taken all the same. -/
def refuseHex {α : Type} (text : List Char) : Except Failure α :=
  if Utf8.size text < 4 then failAt .endInString []
  else .error ⟨.invalidEscape, Utf8.size text - 4⟩

/-- Four hexadecimal digits. -/
def fourHex : Reader Nat := fun text =>
  match text with
  | a :: b :: c :: d :: rest =>
    match hexValue? a, hexValue? b, hexValue? c, hexValue? d with
    | some a, some b, some c, some d => .ok (((a * 16 + b) * 16 + c) * 16 + d, rest)
    | _, _, _, _ => refuseHex text
  | _ => refuseHex text

/-- The second half of a surrogate pair, whose first half is `high`. -/
def lowSurrogate (high : Nat) : Reader Char
  | [] => failAt .endInString []
  | '\\' :: [] => failAt .endInString []
  | '\\' :: 'u' :: rest => do
    let (low, rest) ← fourHex rest
    if 0xdc00 ≤ low ∧ low < 0xe000 then
      .ok (Char.ofNat (0x10000 + (high - 0xd800) * 0x400 + (low - 0xdc00)), rest)
    else failAt .loneSurrogate rest
  | '\\' :: rest => failPast .cutSurrogatePair rest
  | rest => failPast .cutSurrogatePair rest

/-- The character that a backslash stands for. -/
def escaped : Reader Char
  | [] => failAt .endInString []
  | '"' :: rest => .ok ('"', rest)
  | '\\' :: rest => .ok ('\\', rest)
  | '/' :: rest => .ok ('/', rest)
  | 'b' :: rest => .ok ('\x08', rest)
  | 'f' :: rest => .ok ('\x0c', rest)
  | 'n' :: rest => .ok ('\n', rest)
  | 'r' :: rest => .ok ('\r', rest)
  | 't' :: rest => .ok ('\t', rest)
  | 'u' :: rest => do
    let (code, rest) ← fourHex rest
    if code < 0xd800 ∨ 0xe000 ≤ code then .ok (Char.ofNat code, rest)
    else if code < 0xdc00 then lowSurrogate code rest
    else failAt .loneSurrogate rest
  | rest => failPast .invalidEscape rest

/-- The characters up to the closing quotation mark. An escape is longer than what it stands for,
so the number of characters left bounds the steps. -/
def stringChars : (steps : Nat) → Reader (List Char)
  | 0, _ => failAt .endInString []
  | _ + 1, [] => failAt .endInString []
  | steps + 1, c :: rest =>
    if c = '"' then .ok ([], rest)
    else if c = '\\' then do
      let (d, rest) ← escaped rest
      let (more, rest) ← stringChars steps rest
      .ok (d :: more, rest)
    else if c.toNat < 32 then failPast .controlCharacter (c :: rest)
    else do
      let (more, rest) ← stringChars steps rest
      .ok (c :: more, rest)

/-- What follows an opening quotation mark. -/
def string : Reader String := fun text => do
  let (cs, rest) ← stringChars (text.length + 1) text
  .ok (String.ofList cs, rest)

/-! ### Arrays and objects -/

/-- The items of an array from one that has to be there to the closing bracket. Each takes a
character and a comma, so the number of characters left bounds the steps. -/
def items (item : Reader Value) : (steps : Nat) → Reader (List Value)
  | 0, _ => failAt .endInValue []
  | steps + 1, text => do
    let (v, rest) ← item text
    match skipSpaces rest with
    | [] => failPast .endInList []
    | ']' :: rest => .ok ([v], rest)
    | ',' :: rest =>
      match skipSpaces rest with
      | [] => failPast .endInValue []
      | ']' :: rest => failPast .trailingComma (']' :: rest)
      | rest => do
        let (more, rest) ← items item steps rest
        .ok (v :: more, rest)
    | rest => failPast .expectedCommaOrBracket rest

/-- What follows an opening bracket. -/
def array (item : Reader Value) : Reader Value := fun text =>
  match skipSpaces text with
  | [] => failPast .endInList []
  | ']' :: rest => .ok (.array [], rest)
  | rest => do
    let (vs, rest) ← items item rest.length rest
    .ok (.array vs, rest)

def member (item : Reader Value) : Reader (String × Value) := fun text =>
  match text with
  | '"' :: rest => do
    let (key, rest) ← string rest
    match skipSpaces rest with
    | [] => failPast .endInObject []
    | ':' :: rest => do
      let (v, rest) ← item rest
      .ok ((key, v), rest)
    | rest => failPast .expectedColon rest
  | rest => failPast .keyNotString rest

/-- The members of an object from one that has to be there to the closing brace. -/
def members (item : Reader Value) : (steps : Nat) → Reader (List (String × Value))
  | 0, _ => failAt .endInValue []
  | steps + 1, text => do
    let (m, rest) ← member item text
    match skipSpaces rest with
    | [] => failPast .endInObject []
    | '}' :: rest => .ok ([m], rest)
    | ',' :: rest =>
      match skipSpaces rest with
      | [] => failPast .endInValue []
      | '}' :: rest => failPast .trailingComma ('}' :: rest)
      | rest => do
        let (more, rest) ← members item steps rest
        .ok (m :: more, rest)
    | rest => failPast .expectedCommaOrBrace rest

/-- What follows an opening brace. -/
def object (item : Reader Value) : Reader Value := fun text =>
  match skipSpaces text with
  | [] => failPast .endInObject []
  | '}' :: rest => .ok (.object .nil, rest)
  | rest => do
    let (ms, rest) ← members item rest.length rest
    .ok (.object (Table.ofList ms), rest)

/-! ### Values -/

/-- A value whose items and members are read by `item`, where one more level is allowed. -/
def valueWith (item : Option (Reader Value)) : Reader Value := fun text =>
  match skipSpaces text with
  | [] => failPast .endInValue []
  | 'n' :: rest => word .null "ull".toList rest
  | 't' :: rest => word (.bool true) "rue".toList rest
  | 'f' :: rest => word (.bool false) "alse".toList rest
  | '-' :: rest => number true rest
  | '"' :: rest => do
    let (s, rest) ← string rest
    .ok (.string s, rest)
  | '[' :: rest =>
    match item with
    | some item => array item rest
    | none => failPast .tooDeep ('[' :: rest)
  | '{' :: rest =>
    match item with
    | some item => object item rest
    | none => failPast .tooDeep ('{' :: rest)
  | c :: rest => if c.isDigit then number false (c :: rest) else failPast .expectedValue (c :: rest)

/-- A value with at most `levels` arrays and objects one in another. -/
def value : (levels : Nat) → Reader Value
  | 0 => valueWith none
  | levels + 1 => valueWith (some (value levels))

/-- A whole text: one value, and white space after it. -/
def document (text : List Char) : Except Failure Value := do
  let (v, rest) ← value maxDepth text
  match skipSpaces rest with
  | [] => .ok v
  | rest => failPast .trailingCharacters rest

def parse (text : List Char) : Except Fault Value :=
  match document text with
  | .ok v => .ok v
  | .error failure => .error (failure.locate text)

end WireSchema.Json

def WireSchema.Value.ofJson (text : String) : Except WireSchema.Json.Fault WireSchema.Value :=
  WireSchema.Json.parse text.toList
