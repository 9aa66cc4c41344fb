import WireSchema.Proofs.Schema.Comments

/-! The search for the brace that closes another. It counts bytes, and as no byte of a longer
character is a brace it finds what reading the characters finds: the end of the shortest piece
with as many closing braces as opening ones. -/

namespace WireSchema.Schema

/-! ### The count -/

def openBrace : UInt8 := 123

def closeBrace : UInt8 := 125

/-- How a search for a closing brace ends. -/
inductive Closing
  | found (offset : Nat)
  | missing
  /-- A brace closes where none is open. -/
  | unopened
  deriving DecidableEq, Repr

/-- Searches the bytes that begin at an offset, where so many braces are open. -/
def closing : (depth offset : Nat) → List UInt8 → Closing
  | _, _, [] => .missing
  | depth, offset, b :: rest =>
    if b = openBrace then closing (depth + 1) (offset + 1) rest
    else if b = closeBrace then
      match depth with
      | 0 => .unopened
      | 1 => .found offset
      | depth + 2 => closing (depth + 1) (offset + 1) rest
    else closing depth (offset + 1) rest

/-- The brace that closes the one at an offset. -/
def matchBrace (text : List Char) (start : Nat) : Closing :=
  closing 0 start ((Utf8.encode text).drop start)

section Count
variable {b : UInt8} {piece rest : List UInt8} {depth offset : Nat}

theorem closing_open (depth offset : Nat) (rest : List UInt8) :
    closing depth offset (openBrace :: rest) = closing (depth + 1) (offset + 1) rest := by
  rw [closing.eq_def]
  exact if_pos rfl

theorem closing_last (offset : Nat) (rest : List UInt8) :
    closing 1 offset (closeBrace :: rest) = .found offset := rfl

theorem closing_close (depth offset : Nat) (rest : List UInt8) :
    closing (depth + 2) offset (closeBrace :: rest) = closing (depth + 1) (offset + 1) rest := rfl

theorem closing_other (hopen : b ≠ openBrace) (hclose : b ≠ closeBrace) (depth offset : Nat)
    (rest : List UInt8) :
    closing depth offset (b :: rest) = closing depth (offset + 1) rest := by
  rw [closing.eq_def]
  simp only [if_neg hopen, if_neg hclose]

theorem closing_others (hopen : openBrace ∉ piece) (hclose : closeBrace ∉ piece)
    (depth offset : Nat) (rest : List UInt8) :
    closing depth offset (piece ++ rest) = closing depth (offset + piece.length) rest := by
  induction piece generalizing offset with
  | nil => rfl
  | cons b piece ih =>
    rw [List.mem_cons, not_or] at hopen hclose
    rw [List.cons_append, closing_other (Ne.symm hopen.1) (Ne.symm hclose.1),
      ih hopen.2 hclose.2, List.length_cons, Nat.add_assoc, Nat.add_comm 1]

/-! ### Level pieces -/

/-- Where so many braces are open, as many close in a piece as are open or open in it. -/
def Level (depth : Nat) (piece : List UInt8) : Prop :=
  depth + piece.count openBrace = piece.count closeBrace

theorem level_open : Level depth (openBrace :: piece) ↔ Level (depth + 1) piece := by
  rw [Level, Level, List.count_cons_self, List.count_cons_of_ne (by decide)]
  omega

theorem level_close : Level (depth + 1) (closeBrace :: piece) ↔ Level depth piece := by
  rw [Level, Level, List.count_cons_self, List.count_cons_of_ne (by decide)]
  omega

theorem level_other (hopen : b ≠ openBrace) (hclose : b ≠ closeBrace) :
    Level depth (b :: piece) ↔ Level depth piece := by
  rw [Level, Level, List.count_cons_of_ne hopen, List.count_cons_of_ne hclose]

theorem not_level_nil : ¬Level (depth + 1) [] := Nat.succ_ne_zero depth

/-- A search that begins at an offset has the least distance with a property for its answer, or
that there is none. -/
inductive Answers (P : Nat → Prop) (offset : Nat) : Closing → Prop
  | found {k : Nat} (here : P k) (first : ∀ j < k, ¬P j) : Answers P offset (.found (offset + k))
  | missing (never : ∀ k, ¬P k) : Answers P offset .missing

namespace Answers
variable {P Q : Nat → Prop} {answer : Closing}

/-- A search goes on behind the first byte. -/
theorem later (h : Answers Q (offset + 1) answer) (hzero : ¬P 0) (hstep : ∀ k, P (k + 1) ↔ Q k) :
    Answers P offset answer := by
  cases h with
  | @found k here first =>
    rw [Nat.add_assoc, Nat.add_comm 1]
    refine .found ((hstep k).2 here) fun j hj => ?_
    cases j with
    | zero => exact hzero
    | succ j => exact fun hp => first j (Nat.lt_of_succ_lt_succ hj) ((hstep j).1 hp)
  | missing never =>
    refine .missing fun k => ?_
    cases k with
    | zero => exact hzero
    | succ k => exact fun hp => never k ((hstep k).1 hp)

theorem ne_unopened (h : Answers P offset answer) : answer ≠ .unopened := by
  cases h <;> nofun

theorem eq_missing (h : Answers P offset answer) : answer = .missing ↔ ∀ k, ¬P k := by
  cases h with
  | @found k here first => exact ⟨nofun, fun never => absurd here (never k)⟩
  | missing never => exact ⟨fun _ => never, fun _ => rfl⟩

theorem eq_found (h : Answers P offset answer) {i : Nat} :
    answer = .found i ↔ ∃ k, i = offset + k ∧ P k ∧ ∀ j < k, ¬P j := by
  cases h with
  | @found k here first =>
    constructor
    · rintro ⟨⟩
      exact ⟨k, rfl, here, first⟩
    · rintro ⟨j, rfl, hj, hfirst⟩
      obtain rfl : k = j :=
        Nat.le_antisymm (Nat.le_of_not_lt fun hlt => first j hlt hj)
          (Nat.le_of_not_lt fun hlt => hfirst k hlt here)
      rfl
  | missing never => exact ⟨nofun, fun ⟨k, _, hk, _⟩ => absurd hk (never k)⟩

end Answers

/-- The front of some bytes, up to a byte of them, is level. -/
def LevelFront (depth : Nat) (bytes : List UInt8) (k : Nat) : Prop :=
  k < bytes.length ∧ Level depth (bytes.take (k + 1))

theorem levelFront_cons {later : Nat}
    (h : ∀ piece, Level depth (b :: piece) ↔ Level later piece) (k : Nat) :
    LevelFront depth (b :: rest) (k + 1) ↔ LevelFront later rest k := by
  rw [LevelFront, LevelFront, List.length_cons, Nat.succ_lt_succ_iff, List.take_succ_cons, h]

/-- Where a brace is open, the search finds the first byte behind which none is. -/
theorem closing_answers (depth offset : Nat) (bytes : List UInt8) :
    Answers (LevelFront (depth + 1) bytes) offset (closing (depth + 1) offset bytes) := by
  induction bytes generalizing depth offset with
  | nil => exact .missing fun k h => absurd h.1 (Nat.not_lt_zero k)
  | cons b rest ih =>
    -- the front that is this byte alone is level only if it closes the last open brace
    by_cases hopen : b = openBrace
    · subst hopen
      rw [closing_open]
      exact (ih (depth + 1) _).later (fun h => not_level_nil (level_open.1 h.2))
        (levelFront_cons fun _ => level_open)
    · by_cases hclose : b = closeBrace
      · subst hclose
        cases depth with
        | zero =>
          rw [closing_last]
          exact @Answers.found _ _ 0 ⟨Nat.succ_pos _, level_close.2 rfl⟩
            fun j hj => absurd hj (Nat.not_lt_zero j)
        | succ depth =>
          rw [closing_close]
          exact (ih depth _).later (fun h => not_level_nil (level_close.1 h.2))
            (levelFront_cons fun _ => level_close)
      · rw [closing_other hopen hclose]
        exact (ih depth _).later (fun h => not_level_nil ((level_other hopen hclose).1 h.2))
          (levelFront_cons fun _ => level_other hopen hclose)

end Count

/-! ### Bytes and characters -/

section Characters
variable {text : List Char} {start : Nat}

/-- A body as the answer of the search, which began at an offset. -/
def Closing.ofBody (offset : Nat) : Option (List Char) → Closing
  | some body => .found (offset + Utf8.size body)
  | none => .missing

theorem ofBody_map (offset : Nat) (c : Char) (body : Option (List Char)) :
    Closing.ofBody offset (body.map (c :: ·)) = Closing.ofBody (offset + c.utf8Size) body := by
  cases body with
  | none => rfl
  | some body =>
    rw [Option.map_some, Closing.ofBody, Closing.ofBody, Utf8.size_cons, Nat.add_assoc]

/-- No byte of another character is a brace. -/
theorem brace_notMem_encodeChar {c : Char} (hopen : c ≠ '{') (hclose : c ≠ '}') :
    openBrace ∉ String.utf8EncodeChar c ∧ closeBrace ∉ String.utf8EncodeChar c :=
  ⟨fun h => hopen (Utf8.encodeChar_of_mem h (by decide)).1,
    fun h => hclose (Utf8.encodeChar_of_mem h (by decide)).1⟩

theorem closing_encode (depth offset : Nat) (text : List Char) :
    closing (depth + 1) offset (Utf8.encode text) = .ofBody offset (untilClose depth text) := by
  induction text generalizing depth offset with
  | nil => rfl
  | cons c rest ih =>
    rw [Utf8.encode_cons]
    by_cases hopen : c = '{'
    · subst hopen
      rw [untilClose_open, ofBody_map, ← ih]
      exact closing_open _ _ _
    · by_cases hclose : c = '}'
      · subst hclose
        cases depth with
        | zero => rw [untilClose_end]; rfl
        | succ depth =>
          rw [untilClose_close, ofBody_map, ← ih]
          exact closing_close _ _ _
      · obtain ⟨hnopen, hnclose⟩ := brace_notMem_encodeChar hopen hclose
        rw [untilClose_char hopen hclose, ofBody_map, ← ih, closing_others hnopen hnclose,
          String.length_utf8EncodeChar]

/-- The bytes from one offset of a text up to another hold as many closing braces as opening
ones. -/
structure LevelAt (text : List Char) (start stop : Nat) : Prop where
  order : start ≤ stop
  inside : stop < Utf8.size text
  level : Level 0 (((Utf8.encode text).drop start).take (stop + 1 - start))

theorem levelAt_iff {k : Nat} :
    LevelAt text start (start + k) ↔ LevelFront 0 ((Utf8.encode text).drop start) k := by
  have hlength := Utf8.length_encode text
  have hwidth : start + k + 1 - start = k + 1 := by omega
  constructor
  · rintro ⟨-, hinside, hlevel⟩
    rw [hwidth] at hlevel
    exact ⟨by rw [List.length_drop]; omega, hlevel⟩
  · rintro ⟨hinside, hlevel⟩
    rw [List.length_drop] at hinside
    exact ⟨Nat.le_add_right start k, by omega, by rwa [hwidth]⟩

theorem first_levelAt {stop : Nat} :
    (∃ k, stop = start + k ∧ LevelAt text start (start + k) ∧
        ∀ j < k, ¬LevelAt text start (start + j)) ↔
      LevelAt text start stop ∧ ∀ i < stop, ¬LevelAt text start i := by
  constructor
  · rintro ⟨k, rfl, hlevel, hfirst⟩
    refine ⟨hlevel, fun i hi h => ?_⟩
    obtain ⟨j, rfl⟩ := Nat.exists_eq_add_of_le h.order
    exact hfirst j (Nat.lt_of_add_lt_add_left hi) h
  · rintro ⟨hlevel, hfirst⟩
    obtain ⟨k, rfl⟩ := Nat.exists_eq_add_of_le hlevel.order
    exact ⟨k, rfl, hlevel, fun j hj => hfirst _ (Nat.add_lt_add_left hj start)⟩

theorem none_levelAt :
    (∀ k, ¬LevelAt text start (start + k)) ↔ ∀ stop, ¬LevelAt text start stop := by
  refine ⟨fun h stop hstop => ?_, fun h k => h _⟩
  obtain ⟨k, rfl⟩ := Nat.exists_eq_add_of_le hstop.order
  exact h k hstop

theorem matchBrace_answers (h : (Utf8.encode text)[start]? = some openBrace) :
    Answers (fun k => LevelAt text start (start + k)) start (matchBrace text start) := by
  obtain ⟨hstart, hbyte⟩ := List.getElem?_eq_some_iff.1 h
  have hdrop := List.drop_eq_getElem_cons hstart
  rw [hbyte] at hdrop
  simp only [levelAt_iff]
  rw [matchBrace, hdrop, closing_open]
  exact (closing_answers 0 _ _).later (fun h => not_level_nil (level_open.1 h.2))
    (levelFront_cons fun _ => level_open)

/-- The search by bytes ends where reading the characters behind the brace does. -/
theorem matchBrace_eq_ofBody (h : (Utf8.encode text)[start]? = some openBrace) :
    ∃ before inside, text = before ++ '{' :: inside ∧ Utf8.size before = start ∧
      matchBrace text start = .ofBody (start + 1) (untilClose 0 inside) := by
  obtain ⟨before, inside, htext, hsize⟩ := Utf8.exists_char_of_byte h (by decide)
  have hlength := Utf8.length_encode before
  refine ⟨before, inside, htext, hsize, ?_⟩
  rw [matchBrace, htext, Utf8.encode_append, List.drop_left' (by omega), ← closing_encode]
  exact closing_open _ _ _

end Characters

/-! ### Copies and braces -/

/-- A text without its comments is the text with these blanked where they stand, and blanking a
span touches nothing outside it. A brace is matched by the end of the shortest level piece that
begins with it, and by nothing when there is none. Structs that are closed and enums are cut out
of a text by blanking their spans. -/
theorem copies_faithful (text : List Char) :
    (Faithful text (stripComments text) (InComment text) ∧
        (∀ i : Nat, (Utf8.encode (stripComments text))[i]? = some lineFeed ↔
          (Utf8.encode text)[i]? = some lineFeed) ∧
        ¬['/', '/'] <:+: stripComments text ∧
        stripComments (stripComments text) = stripComments text ∧
        stripComments text = (comments 0 text).foldl blankSpan text) ∧
      (∀ span : Span, span.Fits text →
        Faithful text (blankSpan text span) span.Contains ∧
          ∀ i : Nat, (Utf8.encode (blankSpan text span))[i]? = some lineFeed ↔
            (Utf8.encode text)[i]? = some lineFeed) ∧
      (∀ start : Nat, (Utf8.encode text)[start]? = some openBrace →
        matchBrace text start ≠ .unopened ∧
          (∀ stop, matchBrace text start = .found stop ↔
            LevelAt text start stop ∧ ∀ i < stop, ¬LevelAt text start i) ∧
          (matchBrace text start = .missing ↔ ∀ stop, ¬LevelAt text start stop) ∧
          ∃ before inside, text = before ++ '{' :: inside ∧ Utf8.size before = start ∧
            matchBrace text start = .ofBody (start + 1) (untilClose 0 inside)) ∧
      ((∀ block ∈ (structBlocks text).1, block.2.closed = true) →
        Faithful (stripComments text) (structBlocks text).2
            (Covered (blockSpans (structBlocks text).1)) ∧
          (structBlocks text).2 =
            (blockSpans (structBlocks text).1).foldl blankSpan (stripComments text)) ∧
      Faithful (structBlocks text).2 (enumBlocks text).2
          (Covered (blockSpans (enumBlocks text).1)) ∧
        (enumBlocks text).2 =
          (blockSpans (enumBlocks text).1).foldl blankSpan (structBlocks text).2 := by
  have hstrip := stripComments_faithful text
  have hleft := stripComments_uncommented text
  have hspans := (blanking_comments.1 text 0).foldl [] Utf8.size_nil
  refine ⟨⟨hstrip, hstrip.lines, hleft.not_infix, hleft.strip, hspans.symm⟩,
    fun span hspan => ⟨blankSpan_faithful hspan, (blankSpan_faithful hspan).lines⟩,
    fun start hopen => ?_, fun hclosed => ?_, ?_⟩
  · have hanswers := matchBrace_answers hopen
    exact ⟨hanswers.ne_unopened, fun stop => hanswers.eq_found.trans first_levelAt,
      hanswers.eq_missing.trans none_levelAt, matchBrace_eq_ofBody hopen⟩
  · have hstructs := structAt?_finder.blanking hclosed
    exact ⟨hstructs.faithful, (hstructs.foldl [] Utf8.size_nil).symm⟩
  · have henums : Blanking 0 (structBlocks text).2 (blockSpans (enumBlocks text).1)
        (enumBlocks text).2 := enumAt?_finder.blanking fun _ _ => trivial
    exact ⟨henums.faithful, (henums.foldl [] Utf8.size_nil).symm⟩

/-- A comment with a brace in it, behind a character of two bytes. The brace before it is closed
only when the comment is taken out. A struct is blanked up to the brace that closes it. -/
theorem copies_faithful_sample :
    let text := ['a', '{', 'é', '/', '/', 'é', '{', '\n', '{', '}', '}']
    let left := ['a', '{', 'é', ' ', ' ', ' ', ' ', ' ', '\n', '{', '}', '}']
    Faithful text left (InComment text) ∧
      Span.Fits ⟨4, 9⟩ text ∧ blankSpan text ⟨4, 9⟩ = left ∧
      Faithful text left (Span.Contains ⟨4, 9⟩) ∧
      (Utf8.encode text)[1]? = some openBrace ∧ (∀ stop, ¬LevelAt text 1 stop) ∧
      (Utf8.encode left)[1]? = some openBrace ∧ LevelAt left 1 12 ∧
      (∀ i < 12, ¬LevelAt left 1 i) ∧
      Faithful "struct A{}".toList (blank "struct A{}".toList) (Covered [⟨0, 10⟩]) := by
  intro text left
  have hfits : Span.Fits ⟨4, 9⟩ text := ⟨by decide, ⟨['a', '{', 'é'], _, rfl, by decide⟩,
    ⟨['a', '{', 'é', '/', '/', 'é', '{'], _, rfl, by decide⟩⟩
  have hstrip : stripComments text = left := by decide
  have hblank : blankSpan text ⟨4, 9⟩ = left := by decide
  have hopen : (Utf8.encode text)[1]? = some openBrace := by decide
  have hopenLeft : (Utf8.encode left)[1]? = some openBrace := by decide
  obtain ⟨hcomments, hspans, hbraces, -⟩ := copies_faithful text
  have hlevel := ((copies_faithful left).2.2.1 1 hopenLeft).2.1 12
  have hclosed : ∀ block ∈ (structBlocks "struct A{}".toList).1, block.2.closed = true := by
    decide +kernel
  have hstruct := ((copies_faithful "struct A{}".toList).2.2.2.1 hclosed).1
  have hspan : blockSpans (structBlocks "struct A{}".toList).1 = [⟨0, 10⟩] := by decide +kernel
  exact ⟨hstrip ▸ hcomments.1, hfits, hblank, hblank ▸ (hspans _ hfits).1, hopen,
    (hbraces 1 hopen).2.2.1.1 (by decide), hopenLeft, (hlevel.1 (by decide)).1,
    (hlevel.1 (by decide)).2, hspan ▸ hstruct⟩

end WireSchema.Schema
