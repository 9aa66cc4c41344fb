import WireSchema.Number.Power
import WireSchema.Wire.Limits

/-! The words of a command line. The first is the command; options follow in any order,
each at most once, and every option takes a value: in the next word, after an equals
sign, or right behind a letter. A value in a word of its own does not start with a
hyphen, unless it is nothing else. -/

namespace WireSchema

inductive Command where
  | check (input : String)
  | encode (schema name input : String) (output : Option String) (limits : Limits)
  | decode (schema name input : String) (offset : UInt64) (limits : Limits)
  deriving DecidableEq

namespace Arguments

inductive Key where
  | schema
  | name
  | input
  | output
  | offset
  | maxDepth
  | maxLength
  deriving DecidableEq, Repr

def Key.long : Key → List Char
  | schema => "schema".toList
  | name => "name".toList
  | input => "input".toList
  | output => "output".toList
  | offset => "offset".toList
  | maxDepth => "max-depth".toList
  | maxLength => "max-length".toList

def Key.letter? : Key → Option Char
  | schema => some 's'
  | name => some 'n'
  | input => some 'i'
  | output => some 'o'
  | offset | maxDepth | maxLength => none

/-- What a word starts: an option, with its value if it is in the same word. -/
inductive Word where
  | option (key : Key) (value : Option (List Char))
  /-- Two hyphens, after which no option may come. -/
  | done
  | other
  deriving DecidableEq

/-- The option of a word, among those that a command has. -/
def word (keys : List Key) (text : String) : Word :=
  match text.toList with
  | '-' :: '-' :: [] => .done
  | '-' :: '-' :: rest =>
    let name := rest.takeWhile (· != '=')
    match keys.find? (·.long == name), rest.drop name.length with
    | some key, _ :: value => .option key (some value)
    | some key, [] => .option key none
    | none, _ => .other
  | '-' :: letter :: rest =>
    match keys.find? (·.letter? == some letter), rest with
    | some key, [] => .option key none
    | some key, '=' :: value => .option key (some value)
    | some key, value => .option key (some value)
    | none, _ => .other
  | _ => .other

/-- Whether a word can be the value of the option before it. -/
def isValue (text : String) : Bool :=
  match text.toList with
  | '-' :: _ :: _ => false
  | _ => true

/-- The options with their values, or none where a word is out of place. -/
def options (keys : List Key) : List String → Option (List (Key × String))
  | [] => some []
  | text :: more =>
    match word keys text with
    | .option key (some value) =>
      (options keys more).map ((key, String.ofList value) :: ·)
    | .option key none =>
      match more with
      | [] => none
      | value :: more =>
        if isValue value then (options keys more).map ((key, value) :: ·) else none
    | .done => if more.isEmpty then some [] else none
    | .other => none

/-- The value of an option that is there once. -/
def value? (given : List (Key × String)) (key : Key) : Option String :=
  (given.find? (·.1 == key)).map (·.2)

/-- A file name is not empty. -/
def path? (text : String) : Option String := if text.isEmpty then none else some text

def number? (text : String) : Option UInt64 :=
  let digits := match text.toList with
    | '+' :: digits => digits
    | digits => digits
  if digits ≠ [] ∧ digits.all Char.isDigit then
    let n := digits.foldl (fun sum c => sum * 10 + (c.toNat - '0'.toNat)) 0
    if n < pow2 64 then some (UInt64.ofNat n) else none
  else none

/-- A number that may be left out. -/
def numberOr (given : List (Key × String)) (key : Key) (default : UInt64) : Option UInt64 :=
  match value? given key with
  | some text => number? text
  | none => some default

def limits? (given : List (Key × String)) : Option Limits := do
  let maxDepth ← numberOr given .maxDepth (default : Limits).maxDepth
  let maxLength ← numberOr given .maxLength (default : Limits).maxLength
  some ⟨maxDepth, maxLength⟩

def pathOf (given : List (Key × String)) (key : Key) : Option String :=
  (value? given key).bind path?

/-- A file name that may be left out. -/
def pathOrNone (given : List (Key × String)) (key : Key) : Option (Option String) :=
  match value? given key with
  | some text => (path? text).map some
  | none => some none

/-- The options of a command, each at most once. -/
def given? (keys : List Key) (words : List String) : Option (List (Key × String)) := do
  let given ← options keys words
  if (given.map (·.1)).Nodup then some given else none

end Arguments

open Arguments in
/-- The command of a command line, if it is one. -/
def Command.parse : List String → Option Command
  | "check" :: words => do
    let given ← given? [.input] words
    some (.check (← pathOf given .input))
  | "encode" :: words => do
    let given ← given? [.schema, .name, .input, .output, .maxDepth, .maxLength] words
    some (.encode (← pathOf given .schema) (← value? given .name) (← pathOf given .input)
      (← pathOrNone given .output) (← limits? given))
  | "decode" :: words => do
    let given ← given? [.schema, .name, .input, .offset, .maxDepth, .maxLength] words
    some (.decode (← pathOf given .schema) (← value? given .name) (← pathOf given .input)
      (← numberOr given .offset 0) (← limits? given))
  | _ => none

end WireSchema
