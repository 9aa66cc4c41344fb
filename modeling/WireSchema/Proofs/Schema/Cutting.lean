import WireSchema.Proofs.Schema.Opening

/-! Cutting blocks out of a text, piece by piece. A piece that is a block is blanked and a
piece in which no block starts is kept, whatever follows; only the offsets of the blocks
depend on where the text starts. -/

namespace WireSchema.Schema

open Text (Blanks)

/-! ### Blanks for a piece -/

@[simp] theorem blank_nil : blank [] = [] := rfl

@[simp] theorem blank_cons (c : Char) (text : List Char) :
    blank (c :: text) = blankChar c ++ blank text := rfl

theorem blanks_blankChar (c : Char) : Blanks (blankChar c) := fun _ => isBlank_of_mem_blankChar

theorem blanks_blank (text : List Char) : Blanks (blank text) := by
  induction text with
  | nil => exact Blanks.nil
  | cons c text ih => exact (blanks_blankChar c).append ih

section Steps
variable {find : List Char → Option (Block × Nat)} {piece rest : List Char} {b : Block}

/-! ### The run over a piece -/

/-- The character before what follows a piece. -/
def lastOf (before : Option Char) (piece : List Char) : Option Char :=
  piece.getLast?.or before

theorem lastOf_cons (before : Option Char) (c : Char) (piece : List Char) :
    lastOf before (c :: piece) = lastOf (some c) piece := by
  cases piece with
  | nil => rfl
  | cons d piece => simp [lastOf, List.getLast?_cons]

/-- A block that was found leaves blanks. -/
theorem cutBlocks_skip (before : Option Char) (offset : Nat) (piece rest : List Char) :
    cutBlocks find before offset piece.length (piece ++ rest) =
      ((cutBlocks find (lastOf before piece) (offset + Utf8.size piece) 0 rest).1,
        blank piece ++
          (cutBlocks find (lastOf before piece) (offset + Utf8.size piece) 0 rest).2) := by
  induction piece generalizing before offset with
  | nil => simp [lastOf]
  | cons c piece ih =>
    rw [List.cons_append, List.length_cons, cutBlocks, ih, lastOf_cons]
    simp [Nat.add_assoc]

/-- A block is found where one is written and may start. -/
theorem cutBlocks_found {before : Option Char} (offset : Nat) (hne : piece ≠ [])
    (hfind : find (piece ++ rest) = some (b, piece.length)) (hstart : mayStart before) :
    cutBlocks find before offset 0 (piece ++ rest) =
      ((offset, b) ::
          (cutBlocks find (lastOf before piece) (offset + Utf8.size piece) 0 rest).1,
        blank piece ++
          (cutBlocks find (lastOf before piece) (offset + Utf8.size piece) 0 rest).2) := by
  cases piece with
  | nil => exact absurd rfl hne
  | cons c piece =>
    rw [List.cons_append] at hfind ⊢
    simp only [cutBlocks, hfind, hstart, if_true, List.length_cons, Nat.add_sub_cancel,
      cutBlocks_skip, lastOf_cons]
    simp [Nat.add_assoc]

/-- A character is kept where no block is found that may start there. -/
theorem cutBlocks_keep {before : Option Char} {c : Char} (offset : Nat)
    (h : mayStart before → find (c :: rest) = none) :
    cutBlocks find before offset 0 (c :: rest) =
      ((cutBlocks find (some c) (offset + c.utf8Size) 0 rest).1,
        c :: (cutBlocks find (some c) (offset + c.utf8Size) 0 rest).2) := by
  rw [cutBlocks]
  split
  · rfl
  · next hfind =>
    rw [if_neg fun hstart => ?_]
    rw [h hstart] at hfind
    cases hfind

/-- No block starts in a piece that has a text behind it. -/
def Barren (find : List Char → Option (Block × Nat)) : (piece rest : List Char) → Prop
  | [], _ => True
  | c :: piece, rest => find (c :: (piece ++ rest)) = none ∧ Barren find piece rest

theorem Barren.append {a b : List Char} (ha : Barren find a (b ++ rest))
    (hb : Barren find b rest) : Barren find (a ++ b) rest := by
  induction a with
  | nil => exact hb
  | cons c a ih =>
    rw [List.cons_append, Barren, List.append_assoc]
    exact ⟨ha.1, ih ha.2⟩

/-- No block starts where the rest of the piece rules it out. -/
theorem barren_of_suffix (h : ∀ c more, c :: more <:+ piece → find (c :: (more ++ rest)) = none) :
    Barren find piece rest := by
  induction piece with
  | nil => trivial
  | cons c piece ih =>
    exact ⟨h c piece List.suffix_rfl,
      ih fun d more hmore => h d more (hmore.trans (List.suffix_cons c piece))⟩

/-- What holds no start is kept. -/
theorem cutBlocks_kept (before : Option Char) (offset : Nat) (h : Barren find piece rest) :
    cutBlocks find before offset 0 (piece ++ rest) =
      ((cutBlocks find (lastOf before piece) (offset + Utf8.size piece) 0 rest).1,
        piece ++ (cutBlocks find (lastOf before piece) (offset + Utf8.size piece) 0 rest).2) := by
  induction piece generalizing before offset with
  | nil => simp [lastOf]
  | cons c piece ih =>
    rw [List.cons_append, cutBlocks_keep offset fun _ => h.1, ih _ _ h.2, lastOf_cons]
    simp [Nat.add_assoc]

/-- A text further on has the same blocks further on. -/
theorem cutBlocks_shift (find : List Char → Option (Block × Nat)) {before before' : Option Char}
    (h : mayStart before = mayStart before') (distance offset skip : Nat) (text : List Char) :
    cutBlocks find before (distance + offset) skip text =
      ((cutBlocks find before' offset skip text).1.map fun block => (distance + block.1, block.2),
        (cutBlocks find before' offset skip text).2) := by
  induction text generalizing before before' offset skip with
  | nil => rfl
  | cons c text ih =>
    cases skip with
    | succ skip => simp only [cutBlocks, Nat.add_assoc, ih rfl _ _]
    | zero =>
      simp only [cutBlocks, h]
      split
      · simp only [Nat.add_assoc, ih rfl _ _]
      · split
        · simp only [Nat.add_assoc, ih rfl _ _, List.map_cons]
        · simp only [Nat.add_assoc, ih rfl _ _]

end Steps

/-! ### Blocks cut out of a text -/

/-- A text, the blocks that were cut out of it, and what is left. -/
inductive Cut (keyword : String) (Inside : List Char → Prop) :
    List Char → List Block → List Char → Prop
  | nil : Cut keyword Inside [] [] []
  | keep (c : Char) {text left : List Char} {blocks : List Block}
      (more : Cut keyword Inside text blocks left) :
      Cut keyword Inside (c :: text) blocks (c :: left)
  | block {b : Block} {piece text left : List Char} {blocks : List Block}
      (written : b.Written keyword piece) (body : Inside b.body)
      (more : Cut keyword Inside text blocks left) :
      Cut keyword Inside (piece ++ text) (b :: blocks) (blank piece ++ left)

theorem Block.Written.ne_nil {b : Block} {keyword : String} {piece : List Char}
    (h : b.Written keyword piece) : piece ≠ [] := by
  obtain ⟨opening, -, -, rfl⟩ := h.text
  simp

/-- What is known of a way to find blocks. A block that is whole is written where it is found, it
is found where it is written, and one that only the next line completes starts behind all
closing braces. -/
structure Finder (find : List Char → Option (Block × Nat)) (Whole : Block → Prop)
    (keyword : String) (Inside : List Char → Prop) : Prop where
  nothing : find [] = none
  finds : ∀ text b length, find text = some (b, length) → Whole b →
    Inside b.body ∧ ∃ piece rest, text = piece ++ rest ∧ b.Written keyword piece ∧
      length = piece.length
  again : ∀ b piece rest, b.Written keyword piece → Inside b.body →
    find (piece ++ rest) = some (b, piece.length)
  straddles : ∀ text rest, find text = none → find (text ++ '\n' :: rest) ≠ none →
    '}' ∉ text ∧ ∃ c ∈ text.head?, ¬Text.isBlank c

section Straddling
variable {b : Block} {keyword piece text rest : List Char}

/-- A text that ends before a piece does, behind the start of which the next line comes. -/
theorem straddles_piece {front behind : List Char} {last : Char} (hpiece : piece = front ++ [last])
    (hfront : '}' ∉ front) (hfirst : ∀ c ∈ piece.head?, Text.isIdentChar c)
    (heq : text ++ '\n' :: rest = piece ++ behind) (hshort : ∀ more, text ≠ piece ++ more) :
    '}' ∉ text ∧ ∃ c ∈ text.head?, ¬Text.isBlank c := by
  have hpre : text <+: piece := by
    rw [List.append_eq_append_iff] at heq
    obtain ⟨extra, rfl, -⟩ | ⟨extra, htext, -⟩ := heq
    · exact List.prefix_append text extra
    · exact absurd htext (hshort extra)
  constructor
  · rw [hpiece, List.prefix_concat_iff] at hpre
    obtain hall | hpre := hpre
    · exact absurd (hall.trans hpiece.symm) (by simpa using hshort [])
    · exact fun hmem => hfront (hpre.subset hmem)
  · have hhead := congrArg List.head? heq
    rw [List.head?_append_of_ne_nil _ (by simp [hpiece] : piece ≠ [])] at hhead
    cases text with
    | nil => exact absurd (hfirst '\n' hhead.symm) (by decide)
    | cons c text => exact ⟨c, rfl, Text.not_isBlank_of_isIdentChar (hfirst c hhead.symm)⟩

theorem Opening.first {name opening : List Char} (h : Opening keyword name opening)
    (hk : ∀ c ∈ keyword, Text.isIdentChar c) (hne : keyword ≠ []) :
    ∀ c ∈ opening.head?, Text.isIdentChar c := by
  obtain ⟨⟩ := h
  rw [List.head?_append_of_ne_nil _ hne]
  exact fun c hc => hk c (List.mem_of_head? hc)

theorem structAt?_finder : Finder structAt? (·.closed = true) "struct" Balanced where
  nothing := rfl
  finds _ _ _ := structAt?_eq_some
  again _ _ rest written body := structAt?_of_written written body rest
  straddles text rest hnone hsome := by
    have hhead : head? "struct".toList text = none := by
      rw [structAt?, Option.bind_eq_bind, Option.bind_eq_none_iff] at hnone
      refine Option.eq_none_iff_forall_ne_some.2 fun found hfound => ?_
      have := hnone found hfound
      dsimp only at this
      split at this <;> cases this
    obtain ⟨⟨b, length⟩, hfind⟩ := Option.ne_none_iff_exists'.1 hsome
    simp only [structAt?, Option.bind_eq_bind, Option.bind_eq_some_iff] at hfind
    obtain ⟨⟨name, inside⟩, hfound, -⟩ := hfind
    obtain ⟨opening, hopening, heq⟩ := head?_eq_some hfound
    obtain ⟨words, rfl, hwords⟩ := hopening.wordy (by decide)
    refine straddles_piece rfl (fun h => absurd (hwords _ h) (by decide))
      (hopening.first (by decide) (by decide)) heq ?_
    rintro more rfl
    rw [head?_of_opening hopening] at hhead
    cases hhead

theorem enumAt?_finder : Finder enumAt? (fun _ => True) "enum" Braceless where
  nothing := rfl
  finds _ _ _ h _ := enumAt?_eq_some h
  again _ _ rest written body := enumAt?_of_written written body rest
  straddles text rest hnone hsome := by
    obtain ⟨⟨b, length⟩, hfind⟩ := Option.ne_none_iff_exists'.1 hsome
    obtain ⟨hbody, piece, behind, heq, hwritten, -⟩ := enumAt?_eq_some hfind
    obtain ⟨opening, hopening, -, hpiece⟩ := hwritten.text
    obtain ⟨words, hwords, hwordy⟩ := hopening.wordy (by decide)
    have hfirst : ∀ c ∈ piece.head?, Text.isIdentChar c := by
      rw [hpiece, List.head?_append_of_ne_nil _ (by simp [hwords])]
      exact hopening.first (by decide) (by decide)
    have hfront : '}' ∉ opening ++ b.body := by
      simp only [hwords, List.mem_append, List.mem_singleton, not_or]
      exact ⟨⟨fun h => absurd (hwordy _ h) (by decide), by decide⟩, hbody.2⟩
    refine straddles_piece (hpiece.trans (List.append_assoc _ _ _).symm) hfront hfirst heq ?_
    rintro more rfl
    rw [enumAt?_of_written hwritten hbody] at hnone
    cases hnone

end Straddling

section Cuts
variable {find : List Char → Option (Block × Nat)} {Whole : Block → Prop} {keyword : String}
  {Inside : List Char → Prop} {text left : List Char} {found : List Block}

/-- The run over a text: a character is kept where no block is found that may start there, and a
block is cut out whole. -/
inductive Run (find : List Char → Option (Block × Nat)) (keyword : String)
    (Inside : List Char → Prop) : (before : Option Char) → List Char → Prop
  | nil {before : Option Char} : Run find keyword Inside before []
  | keep {before : Option Char} {c : Char} {rest : List Char}
      (kept : mayStart before → find (c :: rest) = none)
      (more : Run find keyword Inside (some c) rest) : Run find keyword Inside before (c :: rest)
  | block {before : Option Char} {b : Block} {piece rest : List Char}
      (found : find (piece ++ rest) = some (b, piece.length)) (start : mayStart before)
      (written : b.Written keyword piece) (body : Inside b.body)
      (more : Run find keyword Inside (lastOf before piece) rest) :
      Run find keyword Inside before (piece ++ rest)

theorem Finder.run (hf : Finder find Whole keyword Inside) {before : Option Char} (offset : Nat)
    (hwhole : ∀ block ∈ (cutBlocks find before offset 0 text).1, Whole block.2) :
    Run find keyword Inside before text := by
  induction hlength : text.length using Nat.strong_induction_on generalizing before offset text with
  | _ n ih =>
    cases text with
    | nil => exact .nil
    | cons c rest =>
      have hkeep (h : mayStart before → find (c :: rest) = none) :
          Run find keyword Inside before (c :: rest) := by
        rw [cutBlocks_keep offset h] at hwhole
        exact .keep h (ih rest.length (hlength ▸ Nat.lt_succ_self _) _ hwhole rfl)
      by_cases hstart : mayStart before
      · cases hfind : find (c :: rest) with
        | none => exact hkeep fun _ => hfind
        | some found =>
          obtain ⟨b, length⟩ := found
          have hb : Whole b := by
            simp only [cutBlocks, hfind, hstart, if_true] at hwhole
            exact (List.forall_mem_cons.1 hwhole).1
          obtain ⟨hbody, piece, after, heq, hwritten, rfl⟩ := hf.finds _ _ _ hfind hb
          rw [heq] at hfind hwhole hlength ⊢
          rw [cutBlocks_found offset hwritten.ne_nil hfind hstart] at hwhole
          have hpos := List.length_pos_of_ne_nil hwritten.ne_nil
          rw [List.length_append] at hlength
          exact .block hfind hstart hwritten hbody
            (ih after.length (by omega) _ (List.forall_mem_cons.1 hwhole).2 rfl)
      · exact hkeep fun h => absurd h hstart

theorem Run.cut {before : Option Char} (h : Run find keyword Inside before text) (offset : Nat) :
    Cut keyword Inside text ((cutBlocks find before offset 0 text).1.map Prod.snd)
      (cutBlocks find before offset 0 text).2 := by
  induction h generalizing offset with
  | nil => exact .nil
  | keep kept _ ih =>
    rw [cutBlocks_keep offset kept]
    exact .keep _ (ih _)
  | block found start written body _ ih =>
    rw [cutBlocks_found offset written.ne_nil found start]
    exact .block written body (ih _)

/-- A block ends in its closing brace, so none is cut out of a text without one. -/
theorem Cut.of_notMem (h : Cut keyword Inside text found left) (hc : '}' ∉ text) :
    found = [] ∧ left = text := by
  induction h with
  | nil => exact ⟨rfl, rfl⟩
  | keep c _ ih =>
    obtain ⟨rfl, rfl⟩ := ih fun hmem => hc (List.mem_cons_of_mem c hmem)
    exact ⟨rfl, rfl⟩
  | block written _ _ _ =>
    obtain ⟨opening, -, -, rfl⟩ := written.text
    exact absurd (by simp) hc

/-- The end of a text behind the last closing brace is kept. -/
theorem Cut.suffix (h : Cut keyword Inside text found left) {front behind : List Char}
    (htext : text = front ++ behind) (hc : '}' ∉ behind) : behind <:+ left := by
  induction h generalizing front with
  | nil =>
    obtain ⟨-, rfl⟩ := List.append_eq_nil_iff.1 htext.symm
    exact List.suffix_rfl
  | keep c more ih =>
    cases front with
    | nil =>
      obtain rfl : c :: _ = behind := htext
      obtain ⟨-, rfl⟩ := more.of_notMem fun hmem => hc (List.mem_cons_of_mem c hmem)
      exact List.suffix_rfl
    | cons d front =>
      obtain ⟨-, htext⟩ := List.cons.inj htext
      exact (ih htext).trans (List.suffix_cons c _)
  | @block b piece tail left _ written _ _ ih =>
    rw [List.append_eq_append_iff] at htext
    obtain ⟨extra, rfl, hrest⟩ | ⟨extra, rfl, rfl⟩ := htext
    · exact (ih hrest).trans (List.suffix_append _ _)
    · -- the block ends in a brace, so it cannot reach into what is behind
      cases extra.eq_nil_or_concat with
      | inl hnil =>
        have htail : tail = [] ++ (extra ++ tail) := by rw [hnil]; rfl
        exact (ih htail).trans (List.suffix_append _ _)
      | inr hsome =>
        obtain ⟨extra, last, rfl⟩ := hsome
        obtain ⟨opening, -, -, hpiece⟩ := written.text
        have hlast := congrArg List.getLast? hpiece
        rw [List.concat_eq_append, ← List.append_assoc, ← List.append_assoc, List.getLast?_concat,
          List.getLast?_concat, Option.some.injEq] at hlast
        exact absurd (by simp [hlast]) hc

/-- Nothing but blanks stands behind the last closing brace. -/
def Spent (text : List Char) : Prop := ∀ behind, behind <:+ text → '}' ∉ behind → Blanks behind

theorem Cut.spent (h : Cut keyword Inside text found left) (hl : Blanks left) : Spent text := by
  rintro behind ⟨front, rfl⟩ hc c hmem
  exact hl c ((h.suffix rfl hc).subset hmem)

theorem Spent.suffix {a b : List Char} (h : Spent (a ++ b)) : Spent b :=
  fun behind hb => h behind (hb.trans (List.suffix_append a b))

theorem spent_of_blanks (h : Blanks text) : Spent text :=
  fun _ hb _ c hmem => h c (hb.subset hmem)

end Cuts

end WireSchema.Schema
