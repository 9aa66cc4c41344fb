/-! Text cut at every place where a character stands. The parts with the character put
back between them are the text again. -/

namespace WireSchema.Text

/-- The parts between the places of a character, one more than there are places. -/
def split (mark : Char) : List Char → List (List Char)
  | [] => [[]]
  | c :: rest =>
    if c = mark then [] :: split mark rest
    else match split mark rest with
      | [] => [[c]]
      | part :: more => (c :: part) :: more

theorem split_ne_nil (mark : Char) (text : List Char) : split mark text ≠ [] := by
  cases text with
  | nil => simp [split]
  | cons c rest =>
    rw [split]
    split
    · simp
    · split <;> simp

theorem intercalate_split (mark : Char) (text : List Char) :
    [mark].intercalate (split mark text) = text := by
  induction text with
  | nil => rfl
  | cons c rest ih =>
    have hne := split_ne_nil mark rest
    rw [split]
    cases h : split mark rest with
    | nil => exact absurd h hne
    | cons part more =>
      rw [h] at ih
      split
      · next hc =>
        subst hc
        rw [← ih]
        simp [List.intercalate, List.intersperse]
      · rw [← ih]
        cases more <;> simp [List.intercalate, List.intersperse]

end WireSchema.Text
