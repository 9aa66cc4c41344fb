import WireSchema.Schema.Blank
import WireSchema.Text.Blank
import WireSchema.Text.Identifier
import WireSchema.Text.Utf8
import WireSchema.Text.Word

/-! Named blocks: a keyword, a name and text in braces. They are found anywhere in a text,
from left to right, and what is left of the text has them blanked. -/

namespace WireSchema.Schema

structure Block where
  name : String
  /-- Bytes from the keyword to the text in braces. -/
  bodyAt : Nat
  body : List Char
  /-- Whether the block ends before the text does. -/
  closed : Bool
  deriving DecidableEq, Repr

/-- What follows a word at the front. -/
def after? : (word text : List Char) → Option (List Char)
  | [], rest => some rest
  | _ :: _, [] => none
  | w :: word, c :: rest => if w = c then after? word rest else none

/-- What follows one or more blanks. -/
def afterBlanks? : List Char → Option (List Char)
  | [] => none
  | c :: rest => if Text.isBlank c then some (Text.skipBlanks rest) else none

/-- The name of a block that starts here, and the text after its brace. -/
def head? (keyword text : List Char) : Option (List Char × List Char) := do
  let rest ← afterBlanks? (← after? keyword text)
  let (name, rest) ← Text.identifier? rest
  match Text.skipBlanks rest with
  | '{' :: inside => some (name, inside)
  | _ => none

/-- The text before the brace that closes `depth` inner ones and the outer one. -/
def untilClose : (depth : Nat) → List Char → Option (List Char)
  | _, [] => none
  | depth, c :: rest =>
    if c = '{' then (untilClose (depth + 1) rest).map (c :: ·)
    else if c = '}' then
      match depth with
      | 0 => some []
      | depth + 1 => (untilClose depth rest).map (c :: ·)
    else (untilClose depth rest).map (c :: ·)

/-- A struct that starts here, and its length in characters. Its braces may hold others; one
that is never closed takes the rest of the text. -/
def structAt? (text : List Char) : Option (Block × Nat) := do
  let (name, inside) ← head? "struct".toList text
  let bodyAt := Utf8.size text - Utf8.size inside
  let before := text.length - inside.length
  match untilClose 0 inside with
  | some body => some (⟨String.ofList name, bodyAt, body, true⟩, before + body.length + 1)
  | none => some (⟨String.ofList name, bodyAt, inside, false⟩, text.length)

/-- An enum that starts here, and its length in characters. Its braces hold no others. -/
def enumAt? (text : List Char) : Option (Block × Nat) := do
  let (name, inside) ← head? "enum".toList text
  let body := inside.takeWhile fun c => c != '{' && c != '}'
  match inside.drop body.length with
  | '}' :: _ =>
    some (⟨String.ofList name, Utf8.size text - Utf8.size inside, body, true⟩,
      text.length - inside.length + body.length + 1)
  | _ => none

/-- Whether a keyword may start after a character. -/
def mayStart : (before : Option Char) → Bool
  | none => true
  | some c => !Text.isWordChar c

/-- The blocks of a text, each with the offset of its keyword, and the text without them. The
next `skip` characters belong to a block already found. -/
def cutBlocks (find : List Char → Option (Block × Nat)) :
    (before : Option Char) → (offset skip : Nat) → List Char →
      List (Nat × Block) × List Char
  | _, _, _, [] => ([], [])
  | _, offset, skip + 1, c :: rest =>
    let (blocks, left) := cutBlocks find (some c) (offset + c.utf8Size) skip rest
    (blocks, blankChar c ++ left)
  | before, offset, 0, c :: rest =>
    match find (c :: rest) with
    | none =>
      let (blocks, left) := cutBlocks find (some c) (offset + c.utf8Size) 0 rest
      (blocks, c :: left)
    | some (block, length) =>
      if mayStart before then
        let (blocks, left) := cutBlocks find (some c) (offset + c.utf8Size) (length - 1) rest
        ((offset, block) :: blocks, blankChar c ++ left)
      else
        let (blocks, left) := cutBlocks find (some c) (offset + c.utf8Size) 0 rest
        (blocks, c :: left)

/-- The blocks of a text that starts at an offset. -/
def blocks (find : List Char → Option (Block × Nat)) (offset : Nat) (text : List Char) :
    List (Nat × Block) × List Char :=
  cutBlocks find none offset 0 text

end WireSchema.Schema
