import WireSchema.Proofs.Schema.Compose

/-! The copies that a schema is read from. Taking out comments and blocks puts blanks in the
place of characters, as many as these have bytes, so that every word of a copy stands in the
text at the same offset. What the comments leave is not inside one. -/

namespace WireSchema.Schema

/-! ### Masked copies -/

/-- A copy in which some characters have made way for blanks, one for each of their bytes. -/
inductive Masked : List Char → List Char → Prop
  | nil : Masked [] []
  | keep (c : Char) {text copy : List Char} (h : Masked text copy) : Masked (c :: text) (c :: copy)
  | blank (c : Char) {text copy : List Char} (h : Masked text copy) :
      Masked (c :: text) (blankChar c ++ copy)

theorem masked_strip : (∀ text, Masked text (stripComments text)) ∧
    ∀ text, Masked text (stripComment text) := by
  apply stripComments.mutual_induct
  · exact .nil
  · intro rest ih
    rw [stripComments]
    exact .blank '/' (.blank '/' ih)
  · intro c rest hne ih
    rw [stripComments.eq_3 c rest hne]
    exact .keep c ih
  · exact .nil
  · intro rest ih
    rw [stripComment]
    exact .keep '\n' ih
  · intro c rest hne ih
    rw [stripComment.eq_3 c rest hne]
    exact .blank c ih

theorem masked_cutBlocks (find : List Char → Option (Block × Nat)) (before : Option Char)
    (offset skip : Nat) (text : List Char) :
    Masked text (cutBlocks find before offset skip text).2 := by
  induction text generalizing before offset skip with
  | nil => exact .nil
  | cons c rest ih =>
    cases skip with
    | succ skip => exact .blank c (ih _ _ _)
    | zero =>
      rw [cutBlocks]
      split
      · exact .keep c (ih _ _ _)
      · split
        · exact .blank c (ih _ _ _)
        · exact .keep c (ih _ _ _)

/-! ### Words of a copy -/

/-- Characters, none of them blank. -/
structure Solid (word : List Char) : Prop where
  nonempty : word ≠ []
  solid : ∀ c ∈ word, ¬Text.isBlank c

/-- A word stands at an offset. -/
def At (text : List Char) (offset : Nat) (word : List Char) : Prop :=
  ∃ before after, text = before ++ (word ++ after) ∧ Utf8.size before = offset

section Words
variable {text copy word before after piece : List Char} {offset : Nat}

/-- The blanks of a character come before what is not blank. -/
theorem blankChar_append_eq {c d : Char} (h : blankChar d ++ copy = before ++ c :: after)
    (hc : ¬Text.isBlank c) :
    ∃ more, before = blankChar d ++ more ∧ copy = more ++ c :: after := by
  obtain ⟨more, rfl, hmore⟩ | ⟨more, hblank, hmore⟩ := List.append_eq_append_iff.1 h
  · exact ⟨more, rfl, hmore⟩
  · cases more with
    | nil =>
      rw [List.append_nil] at hblank
      exact ⟨[], by rw [hblank, List.append_nil], hmore.symm⟩
    | cons e more =>
      obtain rfl : c = e := (List.cons.inj hmore).1
      have hmem : c ∈ blankChar d := hblank ▸ List.mem_append_right _ List.mem_cons_self
      exact absurd (isBlank_of_mem_blankChar hmem) hc

/-- Where a copy goes on with a word, the text does. -/
theorem Masked.front (h : Masked text (word ++ after)) (hw : ∀ c ∈ word, ¬Text.isBlank c) :
    ∃ behind, text = word ++ behind := by
  induction word generalizing text with
  | nil => exact ⟨text, rfl⟩
  | cons c word ih =>
    rw [List.forall_mem_cons] at hw
    generalize hcopy : c :: word ++ after = copy at h
    cases h with
    | nil => cases hcopy
    | keep d h =>
      obtain ⟨rfl, rfl⟩ := List.cons.inj hcopy
      obtain ⟨behind, rfl⟩ := ih h hw.2
      exact ⟨behind, rfl⟩
    | blank d h =>
      -- the copy would begin with a blank
      obtain ⟨e, more, hmore⟩ := List.exists_cons_of_ne_nil (blankChar_ne_nil d)
      rw [hmore] at hcopy
      obtain rfl : c = e := (List.cons.inj hcopy).1
      exact absurd (isBlank_of_mem_blankChar (hmore ▸ List.mem_cons_self)) hw.1

theorem Masked.at (h : Masked text copy) (hw : Solid word) (hat : At copy offset word) :
    At text offset word := by
  obtain ⟨before, after, rfl, rfl⟩ := hat
  generalize hcopy : before ++ (word ++ after) = copy at h
  induction h generalizing before with
  | nil => exact absurd hcopy (by simp [hw.nonempty])
  | keep c h ih =>
    cases before with
    | nil =>
      have hfront : Masked _ (word ++ after) := hcopy ▸ Masked.keep c h
      obtain ⟨behind, hbehind⟩ := hfront.front hw.solid
      exact ⟨[], behind, hbehind, rfl⟩
    | cons d before =>
      obtain ⟨rfl, rfl⟩ := List.cons.inj hcopy
      obtain ⟨front, behind, rfl, hsize⟩ := ih before rfl
      exact ⟨d :: front, behind, rfl, by rw [Utf8.size_cons, Utf8.size_cons, hsize]⟩
  | blank c h ih =>
    obtain ⟨e, word, rfl⟩ := List.exists_cons_of_ne_nil hw.nonempty
    obtain ⟨more, rfl, hmore⟩ := blankChar_append_eq hcopy.symm (hw.solid e List.mem_cons_self)
    obtain ⟨front, behind, rfl, hsize⟩ := ih more hmore.symm
    exact ⟨c :: front, behind, rfl, by
      rw [Utf8.size_cons, Utf8.size_append, size_blankChar, hsize]⟩

end Words

/-! ### Comments -/

/-- The byte at an offset is in a comment: two slashes, and what follows them on their line. -/
def InComment (text : List Char) (offset : Nat) : Prop :=
  ∃ front comment behind, text = front ++ (comment ++ behind) ∧ ['/', '/'] <+: comment ∧
    '\n' ∉ comment ∧ Utf8.size front ≤ offset ∧ offset < Utf8.size front + Utf8.size comment

/-- A line feed stands before an offset. -/
def LineBefore (text : List Char) (offset : Nat) : Prop :=
  ∃ front behind, text = front ++ '\n' :: behind ∧ Utf8.size front < offset

section Comments
variable {c : Char} {text rest before after : List Char} {offset : Nat}

theorem LineBefore.cons (h : LineBefore rest offset) (c : Char) :
    LineBefore (c :: rest) (c.utf8Size + offset) := by
  obtain ⟨front, behind, rfl, hsize⟩ := h
  exact ⟨c :: front, behind, rfl, by rw [Utf8.size_cons]; omega⟩

/-- A piece that goes past the offset has the line feed in it. -/
theorem LineBefore.mem {piece behind : List Char} (h : LineBefore (piece ++ behind) offset)
    (hp : offset < Utf8.size piece) : '\n' ∈ piece := by
  obtain ⟨front, later, htext, hsize⟩ := h
  obtain ⟨more, rfl, -⟩ | ⟨more, rfl, hmore⟩ := List.append_eq_append_iff.1 htext
  · rw [Utf8.size_append] at hsize
    omega
  · cases more with
    | nil =>
      rw [List.append_nil] at hp
      omega
    | cons d more =>
      obtain rfl : '\n' = d := (List.cons.inj hmore).1
      exact List.mem_append_right _ List.mem_cons_self

/-- A comment lies behind the first character, or begins with it. -/
theorem InComment.cases (h : InComment (c :: rest) offset) :
    (∃ later, offset = c.utf8Size + later ∧ InComment rest later) ∨
      c = '/' ∧ ∃ more behind, rest = more ++ behind ∧ ['/'] <+: more ∧ '\n' ∉ more ∧
        offset < c.utf8Size + Utf8.size more := by
  obtain ⟨front, comment, behind, htext, hslash, hline, hlow, hhigh⟩ := h
  cases front with
  | nil =>
    obtain ⟨more, rfl⟩ := hslash
    obtain ⟨rfl, rfl⟩ := List.cons.inj htext
    rw [Utf8.size_nil, Nat.zero_add, List.cons_append, Utf8.size_cons] at hhigh
    exact .inr ⟨rfl, '/' :: more, behind, rfl, ⟨more, rfl⟩,
      fun hmem => hline (List.mem_cons_of_mem _ hmem), hhigh⟩
  | cons d front =>
    obtain ⟨rfl, rfl⟩ := List.cons.inj htext
    rw [Utf8.size_cons] at hlow hhigh
    refine .inl ⟨offset - c.utf8Size, by omega, front, comment, behind, rfl, hslash, hline, ?_, ?_⟩
      <;> omega

/-- Behind a line feed it does not matter what the first character is. -/
theorem InComment.tail (h : InComment (c :: rest) (c.utf8Size + offset))
    (hline : LineBefore rest offset) : InComment rest offset := by
  obtain ⟨later, hoffset, h⟩ | ⟨-, more, behind, rfl, -, hmore, hsize⟩ := h.cases
  · rwa [Nat.add_left_cancel hoffset]
  · exact absurd (hline.mem (by omega)) hmore

/-- What is left without the comments is not in a comment. Read from inside one, it comes behind
the line feed that ends the comment. -/
theorem strip_not_inComment :
    (∀ text before c after, stripComments text = before ++ c :: after → ¬Text.isBlank c →
      ¬InComment text (Utf8.size before)) ∧
    ∀ text before c after, stripComment text = before ++ c :: after → ¬Text.isBlank c →
      LineBefore text (Utf8.size before) ∧ ¬InComment text (Utf8.size before) := by
  apply stripComments.mutual_induct
  · intro before c after h
    exact absurd h (by simp [stripComments])
  · intro rest ih before c after h hc hin
    have hcopy : blankChar '/' ++ (blankChar '/' ++ stripComment rest) = before ++ c :: after := h
    obtain ⟨first, rfl, hfirst⟩ := blankChar_append_eq hcopy hc
    obtain ⟨second, rfl, hsecond⟩ := blankChar_append_eq hfirst hc
    obtain ⟨hline, hout⟩ := ih second c after hsecond hc
    exact hout ((hin.tail (hline.cons '/')).tail hline)
  · intro d rest hne ih before c after h hc hin
    rw [stripComments.eq_3 d rest hne] at h
    have hbehind : ∃ later, Utf8.size before = d.utf8Size + later ∧ InComment rest later := by
      obtain hbehind | ⟨rfl, more, behind, rfl, ⟨more', rfl⟩, -⟩ := hin.cases
      · exact hbehind
      · exact absurd rfl (hne _ rfl)
    obtain ⟨later, hsize, hlater⟩ := hbehind
    cases before with
    | nil =>
      rw [Utf8.size_nil] at hsize
      have hpos := d.utf8Size_pos
      omega
    | cons e before =>
      obtain ⟨rfl, hrest⟩ := List.cons.inj h
      rw [Utf8.size_cons] at hsize
      exact ih before c after hrest hc (Nat.add_left_cancel hsize ▸ hlater)
  · intro before c after h
    exact absurd h (by simp [stripComment])
  · intro rest ih before c after h hc
    rw [stripComment] at h
    cases before with
    | nil =>
      obtain rfl := (List.cons.inj h).1
      exact absurd (by decide) hc
    | cons e before =>
      obtain ⟨rfl, hrest⟩ := List.cons.inj h
      refine ⟨⟨[], rest, rfl, by rw [Utf8.size_cons]; exact Nat.add_pos_left (by decide) _⟩, ?_⟩
      intro hin
      obtain ⟨later, hsize, hlater⟩ | ⟨hmark, -⟩ := hin.cases
      · rw [Utf8.size_cons] at hsize
        exact ih before c after hrest hc (Nat.add_left_cancel hsize ▸ hlater)
      · exact absurd hmark (by decide)
  · intro d rest hne ih before c after h hc
    rw [stripComment.eq_3 d rest hne] at h
    obtain ⟨more, rfl, hmore⟩ := blankChar_append_eq h hc
    obtain ⟨hline, hout⟩ := ih more c after hmore hc
    rw [Utf8.size_append, size_blankChar]
    exact ⟨hline.cons d, fun hin => hout (hin.tail hline)⟩

end Comments

/-! ### What a copy shows -/

/-- A word stands at an offset, outside comments. -/
structure StandsAt (text : List Char) (offset : Nat) (word : List Char) : Prop where
  place : At text offset word
  outside : ¬InComment text offset

/-- A character that is neither blank nor in a comment stands at an offset. -/
def Legible (text : List Char) (offset : Nat) : Prop :=
  ∃ c, ¬Text.isBlank c ∧ StandsAt text offset [c]

/-- Every word of a copy stands in the text, as far from an offset as it is from the front of the
copy. -/
def Shown (text : List Char) (base : Nat) (copy : List Char) : Prop :=
  ∀ offset word, Solid word → At copy offset word → StandsAt text (base + offset) word

section Shown
variable {text copy before piece after word : List Char} {base offset : Nat}

theorem shown_strip (text : List Char) : Shown text 0 (stripComments text) := by
  intro offset word hword hat
  rw [Nat.zero_add]
  refine ⟨(masked_strip.1 text).at hword hat, ?_⟩
  obtain ⟨before, after, hcopy, rfl⟩ := hat
  obtain ⟨c, word, rfl⟩ := List.exists_cons_of_ne_nil hword.nonempty
  exact strip_not_inComment.1 text before c _ hcopy (hword.solid c List.mem_cons_self)

theorem Shown.masked (h : Shown text base copy) {left : List Char} (hm : Masked copy left) :
    Shown text base left := fun offset word hword hat => h offset word hword (hm.at hword hat)

theorem Shown.part (h : Shown text base (before ++ (piece ++ after))) :
    Shown text (base + Utf8.size before) piece := by
  rintro offset word hword ⟨front, behind, rfl, rfl⟩
  rw [Nat.add_assoc, ← Utf8.size_append]
  exact h _ word hword ⟨before ++ front, behind ++ after, by simp, rfl⟩

/-- A word in a copy. -/
theorem Shown.standsAt (h : Shown text base (before ++ (word ++ after))) (hw : Solid word) :
    StandsAt text (base + Utf8.size before) word :=
  h _ word hw ⟨before, after, rfl, rfl⟩

theorem solid_singleton {c : Char} (h : ¬Text.isBlank c) : Solid [c] :=
  ⟨List.cons_ne_nil c [], List.forall_mem_singleton.2 h⟩

theorem solid_identifier (h : Text.isIdentifier word) : Solid word :=
  ⟨Text.isIdentifier_ne_nil h,
    fun c hc => Text.not_isBlank_of_isIdentChar (Text.isIdentChar_of_mem h c hc)⟩

theorem StandsAt.legible (h : StandsAt text offset word) (hw : Solid word) :
    Legible text offset := by
  obtain ⟨⟨before, after, htext, hsize⟩, hout⟩ := h
  obtain ⟨c, word, rfl⟩ := List.exists_cons_of_ne_nil hw.nonempty
  exact ⟨c, hw.solid c List.mem_cons_self, ⟨before, word ++ after, htext, hsize⟩, hout⟩

/-- A word that stands in a text begins inside it. -/
theorem At.lt (h : At text offset word) (hw : word ≠ []) : offset < Utf8.size text := by
  obtain ⟨before, after, rfl, rfl⟩ := h
  obtain ⟨c, word, rfl⟩ := List.exists_cons_of_ne_nil hw
  have hpos := c.utf8Size_pos
  rw [Utf8.size_append, Utf8.size_append, Utf8.size_cons]
  omega

end Shown

end WireSchema.Schema
