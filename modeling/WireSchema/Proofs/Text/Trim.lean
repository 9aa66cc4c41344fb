import Mathlib.Data.List.DropRight
import WireSchema.Text.Blank
import WireSchema.Text.Split

/-! Trimming and splitting take a part out of a text as it stands there. What is trimmed has
no blank at either end and loses nothing else, and what is split at a mark has no mark in it. -/

namespace WireSchema.Text

/-- A statement on the characters of a list is decided on the list, not on all characters. -/
instance decidableForallMem (l : List Char) (p : Char → Prop) [DecidablePred p] :
    Decidable (∀ c ∈ l, p c) :=
  List.decidableBAll p l

/-! ### Trimming -/

/-- No blank stands at either end. -/
structure Trimmed (text : List Char) : Prop where
  first : ∀ c ∈ text.head?, ¬isBlank c
  last : ∀ c ∈ text.getLast?, ¬isBlank c

theorem trimmed_of_forall {text : List Char} (h : ∀ c ∈ text, ¬isBlank c) : Trimmed text :=
  ⟨fun c hc => h c (List.mem_of_head? hc), fun c hc => h c (List.mem_of_getLast? hc)⟩

/-- What stands between two characters that are no blanks does not matter. -/
theorem trimmed_between {first last : Char} (front : List Char) (hfirst : ¬isBlank first)
    (hlast : ¬isBlank last) : Trimmed (first :: (front ++ [last])) := by
  refine ⟨fun c hc => ?_, fun c hc => ?_⟩
  · obtain rfl := Option.some.inj hc
    exact hfirst
  · rw [← List.cons_append, List.getLast?_concat] at hc
    obtain rfl := Option.some.inj hc
    exact hlast

/-- A text that ends with no blank ends with no row of blanks. -/
theorem Trimmed.eq_nil_of_append {text space : List Char} (h : Trimmed (text ++ space))
    (hspace : ∀ c ∈ space, isBlank c) : space = [] := by
  obtain rfl | ⟨front, c, rfl⟩ := space.eq_nil_or_concat
  · rfl
  · refine absurd (hspace c (by simp)) (h.last c ?_)
    rw [List.concat_eq_append, ← List.append_assoc, List.getLast?_concat, Option.mem_some]

theorem skipBlanks_suffix (text : List Char) : skipBlanks text <:+ text :=
  List.dropWhile_suffix isBlank

theorem trim_prefix_skipBlanks (text : List Char) : trim text <+: skipBlanks text :=
  List.rdropWhile_prefix isBlank (skipBlanks text)

theorem trim_infix (text : List Char) : trim text <:+: text :=
  (trim_prefix_skipBlanks text).isInfix.trans (skipBlanks_suffix text).isInfix

theorem skipBlanks_head {text : List Char} {c : Char} (h : c ∈ (skipBlanks text).head?) :
    ¬isBlank c := by
  have hd := List.head?_dropWhile_not isBlank text
  rw [show List.dropWhile isBlank text = skipBlanks text from rfl, Option.mem_def.1 h] at hd
  simpa using hd

theorem trimmed_trim (text : List Char) : Trimmed (trim text) := by
  constructor
  · intro c hc
    obtain ⟨rest, hrest⟩ := trim_prefix_skipBlanks text
    refine @skipBlanks_head text c ?_
    rw [← hrest, List.head?_append, Option.mem_def.1 hc]
    rfl
  · intro c hc
    have hne : trim text ≠ [] := by
      intro h
      rw [h] at hc
      cases hc
    have hlast := List.rdropWhile_last_not isBlank (skipBlanks text) hne
    rw [List.getLast?_eq_some_getLast hne, Option.mem_some] at hc
    rwa [← hc]

/-! ### Blanks around a text -/

/-- Nothing but blanks. -/
def Blanks (text : List Char) : Prop := ∀ c ∈ text, isBlank c

namespace Blanks

variable {a b : List Char}

theorem nil : Blanks [] := List.forall_mem_nil _

theorem append (ha : Blanks a) (hb : Blanks b) : Blanks (a ++ b) :=
  List.forall_mem_append.2 ⟨ha, hb⟩

theorem cons {c : Char} (hc : isBlank c) (hb : Blanks b) : Blanks (c :: b) :=
  List.forall_mem_cons.2 ⟨hc, hb⟩

theorem skip (h : Blanks a) : skipBlanks a = [] := List.dropWhile_eq_nil_iff.2 h

theorem notMem {c : Char} (h : Blanks a) (hc : ¬isBlank c) : c ∉ a := fun hmem => hc (h c hmem)

end Blanks

theorem blanks_skipped (text : List Char) :
    ∃ space, Blanks space ∧ text = space ++ skipBlanks text :=
  ⟨text.takeWhile isBlank, fun _ => List.mem_takeWhile_imp, List.takeWhile_append_dropWhile.symm⟩

theorem skipBlanks_append {space : List Char} (h : Blanks space) (text : List Char) :
    skipBlanks (space ++ text) = skipBlanks text := List.dropWhile_append_of_pos h

theorem skipBlanks_cons {c : Char} (h : ¬isBlank c) (text : List Char) :
    skipBlanks (c :: text) = c :: text := List.dropWhile_cons_of_neg h

theorem skipBlanks_of_head {text : List Char} (h : ∀ c ∈ text.head?, ¬isBlank c) :
    skipBlanks text = text := by
  cases text with
  | nil => rfl
  | cons c more => exact skipBlanks_cons (h c rfl) more

theorem skipBlanks_eq_nil {text : List Char} : skipBlanks text = [] ↔ Blanks text :=
  List.dropWhile_eq_nil_iff

theorem skipBlanks_eq_cons {text rest : List Char} {c : Char} (hc : ¬isBlank c) :
    skipBlanks text = c :: rest ↔ ∃ space, Blanks space ∧ text = space ++ c :: rest := by
  constructor
  · intro h
    obtain ⟨space, hspace, htext⟩ := blanks_skipped text
    exact ⟨space, hspace, h ▸ htext⟩
  · rintro ⟨space, hspace, rfl⟩
    rw [skipBlanks_append hspace, skipBlanks_cons hc]

/-- Trimming takes the blanks around a text and leaves the text. -/
theorem trim_padded {before text after : List Char} (hb : Blanks before) (ha : Blanks after)
    (h : Trimmed text) : trim (before ++ (text ++ after)) = text := by
  have hreverse {t : List Char} (ht : ∀ c ∈ t.getLast?, ¬isBlank c) :
      t.reverse.dropWhile isBlank = t.reverse :=
    skipBlanks_of_head fun c hc => ht c (by rwa [List.head?_reverse] at hc)
  rw [trim, skipBlanks_append hb]
  by_cases hne : text = []
  · rw [hne, List.nil_append, ha.skip]
    rfl
  · have hskip : skipBlanks (text ++ after) = text ++ after := by
      refine skipBlanks_of_head fun c hc => h.first c ?_
      rwa [List.head?_append_of_ne_nil _ hne] at hc
    rw [hskip, List.reverse_append,
      List.dropWhile_append_of_pos fun c hc => ha c (List.mem_reverse.1 hc), hreverse h.last,
      List.reverse_reverse]

/-! ### Splitting -/

variable {mark : Char} {text part : List Char}

theorem split_cons_of_ne {c : Char} (h : c ≠ mark) (rest : List Char) :
    ∃ part more, split mark rest = part :: more ∧ split mark (c :: rest) = (c :: part) :: more := by
  cases hs : split mark rest with
  | nil => exact absurd hs (split_ne_nil mark rest)
  | cons part more => exact ⟨part, more, rfl, by rw [split, if_neg h, hs]⟩

theorem split_of_notMem (h : mark ∉ text) : split mark text = [text] := by
  induction text with
  | nil => rfl
  | cons c rest ih =>
    rw [List.mem_cons, not_or] at h
    rw [split, if_neg (Ne.symm h.1), ih h.2]

theorem split_append {front : List Char} (h : mark ∉ front) (rest : List Char) :
    split mark (front ++ mark :: rest) = front :: split mark rest := by
  induction front with
  | nil => rw [List.nil_append, split, if_pos rfl]
  | cons c front ih =>
    rw [List.mem_cons, not_or] at h
    rw [List.cons_append, split, if_neg (Ne.symm h.1), ih h.2]

theorem notMem_of_mem_split (h : part ∈ split mark text) : mark ∉ part := by
  induction text generalizing part with
  | nil =>
    rw [split, List.mem_singleton] at h
    simp [h]
  | cons c rest ih =>
    by_cases hc : c = mark
    · rw [split, if_pos hc, List.mem_cons] at h
      obtain rfl | h := h
      · simp
      · exact ih h
    · obtain ⟨first, more, hrest, hsplit⟩ := split_cons_of_ne hc rest
      rw [hsplit, List.mem_cons] at h
      rw [hrest] at ih
      obtain rfl | h := h
      · simp [Ne.symm hc, ih List.mem_cons_self]
      · exact ih (List.mem_cons_of_mem _ h)

/-- The first part stands at the front, and every part somewhere. -/
theorem split_stands (mark : Char) (text : List Char) :
    (∀ part ∈ (split mark text).head?, part <+: text) ∧
      ∀ part ∈ split mark text, part <:+: text := by
  induction text with
  | nil => simp [split]
  | cons c rest ih =>
    have htail {part : List Char} (h : part <:+: rest) : part <:+: c :: rest :=
      h.trans (List.suffix_cons c rest).isInfix
    by_cases hc : c = mark
    · rw [split, if_pos hc]
      refine ⟨by simp, fun part h => ?_⟩
      obtain rfl | h := List.mem_cons.1 h
      · exact List.nil_infix
      · exact htail (ih.2 part h)
    · obtain ⟨first, more, hrest, hsplit⟩ := split_cons_of_ne hc rest
      rw [hrest] at ih
      have hfirst : c :: first <+: c :: rest :=
        List.cons_prefix_cons.2 ⟨rfl, ih.1 first rfl⟩
      rw [hsplit]
      refine ⟨by simpa using hfirst, fun part h => ?_⟩
      obtain rfl | h := List.mem_cons.1 h
      · exact hfirst.isInfix
      · exact htail (ih.2 part (List.mem_cons_of_mem _ h))

theorem infix_of_mem_split (h : part ∈ split mark text) : part <:+: text :=
  (split_stands mark text).2 part h

end WireSchema.Text
