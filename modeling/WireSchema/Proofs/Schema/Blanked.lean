import WireSchema.Proofs.Schema.Masked
import WireSchema.Proofs.Text.Bytes

/-! Spans of a text blanked one after another. Blanking a span changes no byte outside it and
leaves every line feed, so the spans that were found before still fit, and after all of them each
byte is as it was or blanked where it stands. The blocks of a text are such spans. -/

namespace WireSchema.Schema

/-! ### Spans -/

structure Span where
  start : Nat
  stop : Nat
  deriving DecidableEq, Repr

/-- An offset lies between characters and not inside one. -/
def Boundary (text : List Char) (offset : Nat) : Prop :=
  ∃ before after, text = before ++ after ∧ Utf8.size before = offset

namespace Span

/-- A span runs from one character of a text to another. -/
structure Fits (span : Span) (text : List Char) : Prop where
  order : span.start ≤ span.stop
  first : Boundary text span.start
  last : Boundary text span.stop

def Contains (span : Span) (offset : Nat) : Prop := span.start ≤ offset ∧ offset < span.stop

end Span

/-- Blanks the characters that begin in a span, the first one of the text being at `offset`. -/
def blankFrom (span : Span) : (offset : Nat) → List Char → List Char
  | _, [] => []
  | offset, c :: rest =>
    (if span.start ≤ offset ∧ offset < span.stop then blankChar c else [c]) ++
      blankFrom span (offset + c.utf8Size) rest

def blankSpan (text : List Char) (span : Span) : List Char := blankFrom span 0 text

section Spans
variable {text before piece after : List Char} {span : Span} {offset : Nat}

theorem blankFrom_append (span : Span) (offset : Nat) (text more : List Char) :
    blankFrom span offset (text ++ more) =
      blankFrom span offset text ++ blankFrom span (offset + Utf8.size text) more := by
  induction text generalizing offset with
  | nil => rfl
  | cons c text ih =>
    rw [List.cons_append, blankFrom, blankFrom, ih, List.append_assoc, Utf8.size_cons,
      Nat.add_assoc]

theorem blankFrom_outside (h : offset + Utf8.size text ≤ span.start ∨ span.stop ≤ offset) :
    blankFrom span offset text = text := by
  induction text generalizing offset with
  | nil => rfl
  | cons c text ih =>
    have hpos := c.utf8Size_pos
    rw [Utf8.size_cons] at h
    rw [blankFrom, if_neg (by omega), ih (by omega), List.singleton_append]

theorem blankFrom_inside (hstart : span.start ≤ offset)
    (hstop : offset + Utf8.size text ≤ span.stop) :
    blankFrom span offset text = blank text := by
  induction text generalizing offset with
  | nil => rfl
  | cons c text ih =>
    have hpos := c.utf8Size_pos
    rw [Utf8.size_cons] at hstop
    rw [blankFrom, if_pos (by omega), ih (by omega) (by omega), blank_cons]

theorem blank_append (text more : List Char) : blank (text ++ more) = blank text ++ blank more :=
  List.flatMap_append

theorem size_blank (text : List Char) : Utf8.size (blank text) = Utf8.size text := by
  induction text with
  | nil => rfl
  | cons c text ih => rw [blank_cons, Utf8.size_append, size_blankChar, ih, Utf8.size_cons]

/-- A span that fits is a piece of the text, and only this piece is blanked. -/
theorem blankSpan_piece (hstart : Utf8.size before = span.start)
    (hstop : span.start + Utf8.size piece = span.stop) :
    blankSpan (before ++ (piece ++ after)) span = before ++ (blank piece ++ after) := by
  rw [blankSpan, blankFrom_append, blankFrom_append, blankFrom_outside (by omega),
    blankFrom_inside (by omega) (by omega), blankFrom_outside (by omega)]

theorem size_blankFrom (span : Span) (offset : Nat) (text : List Char) :
    Utf8.size (blankFrom span offset text) = Utf8.size text := by
  induction text generalizing offset with
  | nil => rfl
  | cons c text ih =>
    rw [blankFrom, Utf8.size_append, ih, Utf8.size_cons]
    split
    · rw [size_blankChar]
    · simp

/-- Where a character began one still does. -/
theorem Boundary.blankSpan (h : Boundary text offset) (span : Span) :
    Boundary (blankSpan text span) offset := by
  obtain ⟨before, after, rfl, rfl⟩ := h
  exact ⟨_, _, blankFrom_append span 0 before after, size_blankFrom span 0 before⟩

theorem Span.Fits.blankSpan {other : Span} (h : other.Fits text) (span : Span) :
    other.Fits (blankSpan text span) :=
  ⟨h.order, h.first.blankSpan span, h.last.blankSpan span⟩

theorem Span.Fits.exists_piece (h : span.Fits text) :
    ∃ before piece after, text = before ++ (piece ++ after) ∧ Utf8.size before = span.start ∧
      span.start + Utf8.size piece = span.stop := by
  obtain ⟨before, behind, rfl, hstart⟩ := h.first
  obtain ⟨front, after, htext, hstop⟩ := h.last
  have horder := h.order
  obtain ⟨piece, rfl, rfl⟩ | ⟨extra, rfl, rfl⟩ := List.append_eq_append_iff.1 htext
  · rw [Utf8.size_append] at hstop
    exact ⟨before, piece, after, rfl, hstart, by omega⟩
  · -- the second offset comes before the first, so that they are the same
    rw [Utf8.size_append] at hstart
    exact ⟨front, [], extra ++ behind, by simp, by omega, by rw [Utf8.size_nil]; omega⟩

theorem boundary_append (h : Utf8.size before = offset) : Boundary (before ++ after) offset :=
  ⟨before, after, rfl, h⟩

theorem fits_piece {start stop : Nat} (hstart : Utf8.size before = start)
    (hstop : start + Utf8.size piece = stop) :
    Span.Fits ⟨start, stop⟩ (before ++ (piece ++ after)) := by
  refine ⟨by dsimp only; omega, boundary_append hstart, ?_⟩
  rw [← List.append_assoc]
  exact boundary_append (by rw [Utf8.size_append, hstart, hstop])

end Spans

/-! ### Bytes -/

def lineFeed : UInt8 := 10

def space : UInt8 := 32

/-- A byte in the place of another that is blanked. -/
def blankByte (b : UInt8) : UInt8 := if b = lineFeed then lineFeed else space

theorem blankByte_eq_lineFeed {b : UInt8} : blankByte b = lineFeed ↔ b = lineFeed := by
  rw [blankByte]
  split
  · next h => exact iff_of_true rfl h
  · next h => exact iff_of_false (by decide) h

theorem blankByte_blankByte (b : UInt8) : blankByte (blankByte b) = blankByte b := by
  by_cases h : b = lineFeed
  · subst h
    rfl
  · rw [blankByte, if_neg (blankByte_eq_lineFeed.not.2 h), blankByte, if_neg h]

theorem encode_blankChar (c : Char) :
    Utf8.encode (blankChar c) = (String.utf8EncodeChar c).map blankByte := by
  rw [blankChar]
  split
  · next h => rw [h]; decide
  · next h =>
    have hspaces (n : Nat) : Utf8.encode (List.replicate n ' ') = List.replicate n space := by
      induction n with
      | zero => rfl
      | succ n ih =>
        rw [List.replicate_succ, Utf8.encode_cons, ih, List.replicate_succ]
        rfl
    rw [hspaces, ← String.length_utf8EncodeChar, eq_comm, List.map_eq_replicate_iff]
    intro b hb
    refine if_neg ?_
    rintro rfl
    exact h (Utf8.encodeChar_of_mem hb (by decide)).1

theorem encode_blank (text : List Char) :
    Utf8.encode (blank text) = (Utf8.encode text).map blankByte := by
  induction text with
  | nil => rfl
  | cons c text ih =>
    rw [blank_cons, Utf8.encode_append, encode_blankChar, ih, Utf8.encode_cons, List.map_append]

/-- A copy of a text in which some bytes are blanked where they stand. -/
structure Faithful (text copy : List Char) (Blanked : Nat → Prop) : Prop where
  length : (Utf8.encode copy).length = (Utf8.encode text).length
  inside : ∀ i, Blanked i → (Utf8.encode copy)[i]? = (Utf8.encode text)[i]?.map blankByte
  outside : ∀ i, ¬Blanked i → (Utf8.encode copy)[i]? = (Utf8.encode text)[i]?

namespace Faithful

variable {text copy last : List Char} {Blanked Later : Nat → Prop}

theorem refl (text : List Char) (h : ∀ i, ¬Blanked i) : Faithful text text Blanked :=
  ⟨rfl, fun i hi => absurd hi (h i), fun _ _ => rfl⟩

/-- Line feeds stay where they are. -/
theorem lines (h : Faithful text copy Blanked) (i : Nat) :
    (Utf8.encode copy)[i]? = some lineFeed ↔ (Utf8.encode text)[i]? = some lineFeed := by
  by_cases hi : Blanked i
  · rw [h.inside i hi, Option.map_eq_some_iff]
    simp only [blankByte_eq_lineFeed, exists_eq_right]
  · rw [h.outside i hi]

theorem trans (h : Faithful text copy Blanked) (hl : Faithful copy last Later) :
    Faithful text last fun i => Blanked i ∨ Later i := by
  refine ⟨hl.length.trans h.length, fun i hi => ?_, fun i hi => ?_⟩
  · by_cases hlater : Later i
    · rw [hl.inside i hlater]
      by_cases hblank : Blanked i
      · rw [h.inside i hblank, Option.map_map]
        congr 1
        exact funext blankByte_blankByte
      · rw [h.outside i hblank]
    · rw [hl.outside i hlater, h.inside i (hi.resolve_right hlater)]
  · rw [not_or] at hi
    rw [hl.outside i hi.2, h.outside i hi.1]

theorem congr (h : Faithful text copy Blanked) (hiff : ∀ i, Blanked i ↔ Later i) :
    Faithful text copy Later := by
  obtain rfl : Blanked = Later := funext fun i => propext (hiff i)
  exact h

end Faithful

theorem faithful_piece (before piece after : List Char) :
    Faithful (before ++ (piece ++ after)) (before ++ (blank piece ++ after)) fun i =>
      Utf8.size before ≤ i ∧ i < Utf8.size before + Utf8.size piece := by
  have hbefore := Utf8.length_encode before
  have hpiece := Utf8.length_encode piece
  simp only [← hbefore, ← hpiece]
  refine ⟨?_, fun i hi => ?_, fun i hi => ?_⟩
  · simp only [Utf8.encode_append, encode_blank, List.length_append, List.length_map]
  · simp only [Utf8.encode_append, encode_blank]
    rw [List.getElem?_append_right hi.1, List.getElem?_append_right hi.1,
      List.getElem?_append_left (by rw [List.length_map]; omega),
      List.getElem?_append_left (by omega), List.getElem?_map]
  · simp only [Utf8.encode_append, encode_blank, List.getElem?_append, List.length_map]
    split_ifs <;> first | rfl | omega

/-- One step: only the bytes of the span are blanked. -/
theorem blankSpan_faithful {text : List Char} {span : Span} (h : span.Fits text) :
    Faithful text (blankSpan text span) span.Contains := by
  obtain ⟨before, piece, after, rfl, hstart, hstop⟩ := h.exists_piece
  rw [blankSpan_piece hstart hstop]
  refine (faithful_piece before piece after).congr fun i => ?_
  rw [Span.Contains, hstart, hstop]

/-- An offset is in one of the spans. -/
def Covered (spans : List Span) (offset : Nat) : Prop := ∃ span ∈ spans, span.Contains offset

theorem covered_cons {span : Span} {spans : List Span} {i : Nat} :
    Covered (span :: spans) i ↔ span.Contains i ∨ Covered spans i := by
  simp only [Covered, List.exists_mem_cons_iff]

/-- The whole run: spans that were found in the text are still right after others have been
blanked. -/
theorem blankSpans_faithful {text : List Char} {spans : List Span}
    (h : ∀ span ∈ spans, span.Fits text) :
    Faithful text (spans.foldl blankSpan text) (Covered spans) := by
  induction spans generalizing text with
  | nil => exact .refl text (by simp [Covered])
  | cons span spans ih =>
    rw [List.forall_mem_cons] at h
    have hmore := ih fun other hmem => (h.2 other hmem).blankSpan span
    exact ((blankSpan_faithful h.1).trans hmore).congr fun i => covered_cons.symm

/-! ### Runs over a text -/

/-- A run over a text from an offset on: some characters are kept, and pieces between them are
blanked, which are the spans. -/
inductive Blanking : (offset : Nat) → (text : List Char) → List Span → (copy : List Char) → Prop
  | nil {offset : Nat} : Blanking offset [] [] []
  | keep (c : Char) {offset : Nat} {text copy : List Char} {spans : List Span}
      (more : Blanking (offset + c.utf8Size) text spans copy) :
      Blanking offset (c :: text) spans (c :: copy)
  | blank {piece : List Char} {start stop : Nat} {text copy : List Char} {spans : List Span}
      (size : start + Utf8.size piece = stop) (more : Blanking stop text spans copy) :
      Blanking start (piece ++ text) (⟨start, stop⟩ :: spans) (Schema.blank piece ++ copy)

namespace Blanking

variable {offset : Nat} {text copy : List Char} {spans : List Span}

/-- Each span is blanked in what the earlier ones left. -/
theorem foldl (h : Blanking offset text spans copy) (front : List Char)
    (hfront : Utf8.size front = offset) :
    spans.foldl blankSpan (front ++ text) = front ++ copy := by
  induction h generalizing front with
  | nil => rfl
  | keep c _ ih =>
    have hrest := ih (front ++ [c]) (by simp [hfront])
    rwa [List.append_assoc, List.append_assoc] at hrest
  | @blank piece _ _ _ _ _ hsize _ ih =>
    have hrest := ih (front ++ Schema.blank piece)
      (by rw [Utf8.size_append, size_blank, hfront, hsize])
    rw [List.foldl_cons, blankSpan_piece hfront hsize]
    simpa only [List.append_assoc] using hrest

theorem fits (h : Blanking offset text spans copy) (front : List Char)
    (hfront : Utf8.size front = offset) :
    ∀ span ∈ spans, span.Fits (front ++ text) := by
  induction h generalizing front with
  | nil => exact fun _ h => absurd h List.not_mem_nil
  | keep c _ ih =>
    have hrest := ih (front ++ [c]) (by simp [hfront])
    rwa [List.append_assoc] at hrest
  | @blank piece _ _ _ _ _ hsize _ ih =>
    have hrest := ih (front ++ piece) (by rw [Utf8.size_append, hfront, hsize])
    rw [List.append_assoc] at hrest
    exact List.forall_mem_cons.2 ⟨fits_piece hfront hsize, hrest⟩

theorem faithful (h : Blanking 0 text spans copy) : Faithful text copy (Covered spans) := by
  have hblank := blankSpans_faithful (h.fits [] Utf8.size_nil)
  rwa [h.foldl [] Utf8.size_nil] at hblank

end Blanking

/-! ### Blocks -/

section Blocks
variable {find : List Char → Option (Block × Nat)} {keyword : String} {Inside : List Char → Prop}
  {Whole : Block → Prop} {before : Option Char} {text : List Char}

/-- The span of a block that was found at an offset, its closing brace included. -/
def Block.span (offset : Nat) (b : Block) : Span :=
  ⟨offset, offset + b.bodyAt + Utf8.size b.body + 1⟩

def blockSpans (found : List (Nat × Block)) : List Span :=
  found.map fun (offset, b) => b.span offset

theorem Block.Written.size {b : Block} {piece : List Char} (h : b.Written keyword piece) :
    Utf8.size piece = b.bodyAt + Utf8.size b.body + 1 := by
  obtain ⟨opening, -, hat, rfl⟩ := h.text
  rw [hat, Utf8.size_append, Utf8.size_append, ← Nat.add_assoc]
  rfl

/-- Cutting blocks out is blanking their spans. -/
theorem Run.blanking (h : Run find keyword Inside before text) (offset : Nat) :
    Blanking offset text (blockSpans (cutBlocks find before offset 0 text).1)
      (cutBlocks find before offset 0 text).2 := by
  induction h generalizing offset with
  | nil => exact .nil
  | keep kept _ ih =>
    rw [cutBlocks_keep _ kept]
    exact .keep _ (ih _)
  | @block _ b piece _ found start written _ _ ih =>
    have hsize : offset + Utf8.size piece = offset + b.bodyAt + Utf8.size b.body + 1 := by
      rw [written.size]
      omega
    rw [cutBlocks_found _ written.ne_nil found start]
    exact .blank hsize (hsize ▸ ih _)

/-- What is left of a text without its blocks is the text with their spans blanked. -/
theorem Finder.blanking (hf : Finder find Whole keyword Inside)
    (hwhole : ∀ block ∈ (blocks find 0 text).1, Whole block.2) :
    Blanking 0 text (blockSpans (blocks find 0 text).1) (blocks find 0 text).2 :=
  (hf.run 0 hwhole : Run find keyword Inside none text).blanking 0

end Blocks

end WireSchema.Schema
