/-! Identifiers: an ASCII letter or underscore, then letters, digits and underscores. -/

namespace WireSchema.Text

def isIdentStart (c : Char) : Bool := c.isAlpha || c == '_'

def isIdentChar (c : Char) : Bool := c.isAlphanum || c == '_'

def isIdentifier : List Char → Bool
  | [] => false
  | c :: rest => isIdentStart c && rest.all isIdentChar

/-- The longest identifier at the front, and what follows it. -/
def identifier? : List Char → Option (List Char × List Char)
  | [] => none
  | c :: rest =>
    if isIdentStart c then
      some (c :: rest.takeWhile isIdentChar, rest.dropWhile isIdentChar)
    else none

theorem identifier?_append {text name rest : List Char} (h : identifier? text = some (name, rest)) :
    name ++ rest = text := by
  cases text with
  | nil => simp [identifier?] at h
  | cons c more =>
    simp only [identifier?] at h
    split at h
    · simp only [Option.some.injEq, Prod.mk.injEq] at h
      obtain ⟨rfl, rfl⟩ := h
      simp
    · simp at h

theorem identifier?_isIdentifier {text name rest : List Char}
    (h : identifier? text = some (name, rest)) : isIdentifier name := by
  cases text with
  | nil => simp [identifier?] at h
  | cons c more =>
    simp only [identifier?] at h
    split at h
    · next hc =>
      simp only [Option.some.injEq, Prod.mk.injEq] at h
      obtain ⟨rfl, rfl⟩ := h
      simp [isIdentifier, hc]
    · simp at h

end WireSchema.Text
