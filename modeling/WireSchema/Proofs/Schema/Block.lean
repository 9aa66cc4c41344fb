import WireSchema.Proofs.Schema.Blank
import WireSchema.Proofs.Text.Trim
import WireSchema.Schema.Block

/-! Blocks as they are found. The name of a block is an identifier and its body stands in the
text, wherever the block was found; cutting blocks out leaves no two slashes in a row where
there were none. -/

namespace WireSchema.Schema

variable {text : List Char}

/-! ### Heads -/

theorem after?_suffix {word rest : List Char} (h : after? word text = some rest) :
    rest <:+ text := by
  induction word generalizing text with
  | nil =>
    simp only [after?, Option.some.injEq] at h
    exact h ▸ List.suffix_rfl
  | cons w word ih =>
    cases text with
    | nil => simp [after?] at h
    | cons c more =>
      rw [after?] at h
      split at h
      · exact (ih h).trans (List.suffix_cons c more)
      · cases h

theorem afterBlanks?_suffix {rest : List Char} (h : afterBlanks? text = some rest) :
    rest <:+ text := by
  cases text with
  | nil => cases h
  | cons c more =>
    rw [afterBlanks?] at h
    split at h
    · rw [Option.some.injEq] at h
      exact h ▸ (Text.skipBlanks_suffix more).trans (List.suffix_cons c more)
    · cases h

theorem identifier?_suffix {name rest : List Char} (h : Text.identifier? text = some (name, rest)) :
    rest <:+ text := ⟨name, Text.identifier?_append h⟩

theorem head?_some {keyword name inside : List Char}
    (h : head? keyword text = some (name, inside)) :
    Text.isIdentifier name ∧ inside <:+ text := by
  simp only [head?, Option.bind_eq_bind, Option.bind_eq_some_iff] at h
  obtain ⟨afterWord, hword, word, hblanks, ⟨found, rest⟩, hname, h⟩ := h
  split at h
  · next inside' hskip =>
    simp only [Option.some.injEq, Prod.mk.injEq] at h
    obtain ⟨rfl, rfl⟩ := h
    have hword : word <:+ text := (afterBlanks?_suffix hblanks).trans (after?_suffix hword)
    have hrest : rest <:+ text := (identifier?_suffix hname).trans hword
    have hbrace : '{' :: inside' <:+ text := (hskip ▸ Text.skipBlanks_suffix rest).trans hrest
    exact ⟨Text.identifier?_isIdentifier hname, (List.suffix_cons _ inside').trans hbrace⟩
  · cases h

/-! ### Bodies -/

/-- What is known of a block found in a text. -/
structure Block.Stands (b : Block) (text : List Char) : Prop where
  name : Text.isIdentifier b.name.toList
  body : b.body <:+: text

theorem prefix_of_untilClose {depth : Nat} {body : List Char}
    (h : untilClose depth text = some body) : body <+: text := by
  induction text generalizing depth body with
  | nil => cases h
  | cons c rest ih =>
    have hcons {depth : Nat} (hmap : (untilClose depth rest).map (c :: ·) = some body) :
        body <+: c :: rest := by
      obtain ⟨more, hmore, rfl⟩ := Option.map_eq_some_iff.1 hmap
      exact List.cons_prefix_cons.2 ⟨rfl, ih hmore⟩
    rw [untilClose.eq_def] at h
    simp only at h
    split at h
    · exact hcons h
    · split at h
      · split at h
        · cases h; exact List.nil_prefix
        · exact hcons h
      · exact hcons h

theorem structAt?_stands {b : Block} {length : Nat} (h : structAt? text = some (b, length)) :
    b.Stands text := by
  simp only [structAt?, Option.bind_eq_bind, Option.bind_eq_some_iff] at h
  obtain ⟨⟨name, inside⟩, hhead, h⟩ := h
  obtain ⟨hname, hinside⟩ := head?_some hhead
  split at h
  · next body hbody =>
    simp only [Option.some.injEq, Prod.mk.injEq] at h
    obtain ⟨rfl, -⟩ := h
    exact ⟨by simpa using hname, (prefix_of_untilClose hbody).isInfix.trans hinside.isInfix⟩
  · simp only [Option.some.injEq, Prod.mk.injEq] at h
    obtain ⟨rfl, -⟩ := h
    exact ⟨by simpa using hname, hinside.isInfix⟩

theorem enumAt?_stands {b : Block} {length : Nat} (h : enumAt? text = some (b, length)) :
    b.Stands text := by
  simp only [enumAt?, Option.bind_eq_bind, Option.bind_eq_some_iff] at h
  obtain ⟨⟨name, inside⟩, hhead, h⟩ := h
  obtain ⟨hname, hinside⟩ := head?_some hhead
  split at h
  · simp only [Option.some.injEq, Prod.mk.injEq] at h
    obtain ⟨rfl, -⟩ := h
    exact ⟨by simpa using hname, (List.takeWhile_prefix _).isInfix.trans hinside.isInfix⟩
  · cases h

/-! ### Cutting -/

section Cutting
variable {find : List Char → Option (Block × Nat)}

/-- Every block was found at some place of the text. -/
theorem cutBlocks_stands (hfind : ∀ {text b length}, find text = some (b, length) → b.Stands text)
    (before : Option Char) (offset skip : Nat) (text : List Char) :
    ∀ block ∈ (cutBlocks find before offset skip text).1, block.2.Stands text := by
  induction text generalizing before offset skip with
  | nil => simp [cutBlocks]
  | cons c rest ih =>
    have htail {b : Block} (hb : b.Stands rest) : b.Stands (c :: rest) :=
      ⟨hb.name, hb.body.trans (List.suffix_cons c rest).isInfix⟩
    cases skip with
    | succ skip => exact fun block h => htail (ih _ _ _ block h)
    | zero =>
      rw [cutBlocks]
      split
      · exact fun block h => htail (ih _ _ _ block h)
      · next b length hb =>
        split
        · intro block h
          obtain rfl | h := List.mem_cons.1 h
          · exact hfind hb
          · exact htail (ih _ _ _ block h)
        · exact fun block h => htail (ih _ _ _ block h)

/-- What is left starts with a slash only if the text did. -/
theorem cutBlocks_uncommented (before : Option Char) (offset skip : Nat) {text : List Char}
    (h : Uncommented text) :
    Uncommented (cutBlocks find before offset skip text).2 ∧
      ((cutBlocks find before offset skip text).2.head? = some '/' → text.head? = some '/') := by
  induction text generalizing before offset skip with
  | nil => exact ⟨h, id⟩
  | cons c rest ih =>
    have hrest : Uncommented rest := List.IsChain.tail h
    have hkept {left : List Char}
        (hl : Uncommented left ∧ (left.head? = some '/' → rest.head? = some '/')) :
        Uncommented (c :: left) ∧ ((c :: left).head? = some '/' → (c :: rest).head? = some '/') :=
      ⟨hl.1.cons fun hc hs => List.IsChain.rel_head? h (hl.2 hs) ⟨hc, rfl⟩, id⟩
    have hblank {left : List Char} (hl : Uncommented left) :
        Uncommented (blankChar c ++ left) ∧
          ((blankChar c ++ left).head? = some '/' → (c :: rest).head? = some '/') :=
      ⟨uncommented_append (slash_notMem_blankChar c) hl,
        fun hs => absurd hs (head?_blankChar_append c left)⟩
    cases skip with
    | succ skip => exact hblank (ih _ _ _ hrest).1
    | zero =>
      rw [cutBlocks]
      split
      · exact hkept (ih _ _ _ hrest)
      · split
        · exact hblank (ih _ _ _ hrest).1
        · exact hkept (ih _ _ _ hrest)

end Cutting

end WireSchema.Schema
