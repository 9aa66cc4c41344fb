/-! Text that is taken out of a schema leaves a blank for each byte and keeps its line
feeds, so that what remains stands at the same offsets and on the same lines. -/

namespace WireSchema.Schema

def blankChar (c : Char) : List Char := if c = '\n' then ['\n'] else List.replicate c.utf8Size ' '

def blank (text : List Char) : List Char := text.flatMap blankChar

mutual

/-- Blanks the comments, which go from two slashes to the end of the line. -/
def stripComments : List Char → List Char
  | [] => []
  | '/' :: '/' :: rest => ' ' :: ' ' :: stripComment rest
  | c :: rest => c :: stripComments rest

/-- The same from inside a comment. -/
def stripComment : List Char → List Char
  | [] => []
  | '\n' :: rest => '\n' :: stripComments rest
  | c :: rest => blankChar c ++ stripComment rest

end

end WireSchema.Schema
