/-! Text in quotation marks, as JSON writes it. Quotation marks, backslashes and the
characters below space are escaped, the common ones by a letter and the others by
four hexadecimal digits; nothing else is. -/

namespace WireSchema.Text

/-- A hexadecimal digit in lower case. -/
def hexDigit (n : Nat) : Char := if n < 10 then Char.ofNat (48 + n) else Char.ofNat (87 + n)

def escape (c : Char) : List Char :=
  if c = '"' then ['\\', '"']
  else if c = '\\' then ['\\', '\\']
  else if c = '\x08' then ['\\', 'b']
  else if c = '\x0c' then ['\\', 'f']
  else if c = '\n' then ['\\', 'n']
  else if c = '\r' then ['\\', 'r']
  else if c = '\t' then ['\\', 't']
  else if c.toNat < 32 then ['\\', 'u', '0', '0', hexDigit (c.toNat / 16), hexDigit (c.toNat % 16)]
  else [c]

def quotedChars (text : List Char) : List Char := '"' :: (text.flatMap escape ++ ['"'])

def quote (text : String) : String := String.ofList (quotedChars text.toList)

end WireSchema.Text
