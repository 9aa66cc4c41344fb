import WireSchema.Proofs.Schema.Grammar

/-! Tokens with gaps between them. Without its comments a text is the same tokens with blanks
between, and such a text is taken apart token by token. -/

namespace WireSchema.Grammar

open Schema
open Text (Blanks)

/-! ### Comments -/

theorem stripComments_cons_of_ne {c : Char} (hc : c ≠ '/') (rest : List Char) :
    stripComments (c :: rest) = c :: stripComments rest :=
  stripComments.eq_3 c rest fun _ h => absurd h hc

theorem stripComments_append {front : List Char} (h : '/' ∉ front) (rest : List Char) :
    stripComments (front ++ rest) = front ++ stripComments rest := by
  induction front with
  | nil => rfl
  | cons c front ih =>
    rw [List.mem_cons, not_or] at h
    rw [List.cons_append, stripComments_cons_of_ne (Ne.symm h.1), ih h.2, List.cons_append]

theorem stripComment_append {body : List Char} (h : '\n' ∉ body) (rest : List Char) :
    stripComment (body ++ rest) = Schema.blank body ++ stripComment rest := by
  induction body with
  | nil => rfl
  | cons c body ih =>
    rw [List.mem_cons, not_or] at h
    rw [List.cons_append, stripComment.eq_3 c _ (Ne.symm h.1), ih h.2, blank_cons,
      List.append_assoc]

/-- A gap without its comments is blanks, and some if it was not empty. -/
theorem Gap.strip {gap : List Char} (h : Gap gap) :
    ∃ space, Blanks space ∧ (gap ≠ [] → space ≠ []) ∧
      ∀ rest, stripComments (gap ++ rest) = space ++ stripComments rest := by
  induction h with
  | nothing => exact ⟨[], Blanks.nil, fun h => absurd rfl h, fun _ => rfl⟩
  | @blank c gap hc _ ih =>
    obtain ⟨space, hspace, -, hstrip⟩ := ih
    refine ⟨c :: space, hspace.cons hc, fun _ => List.cons_ne_nil _ _, fun rest => ?_⟩
    have hne : c ≠ '/' := fun he => absurd (he ▸ hc) (by decide)
    rw [List.cons_append, stripComments_cons_of_ne hne, hstrip, List.cons_append]
  | @comment body gap hbody _ ih =>
    obtain ⟨space, hspace, -, hstrip⟩ := ih
    refine ⟨' ' :: ' ' :: (Schema.blank body ++ '\n' :: space), ?_, fun _ => List.cons_ne_nil _ _,
      fun rest => ?_⟩
    · exact (((blanks_blank body).append (hspace.cons (by decide))).cons (by decide)).cons
        (by decide)
    · simp only [List.cons_append, List.append_assoc, stripComments, stripComment_append hbody,
        stripComment, hstrip]

theorem LastGap.strip {gap : List Char} (h : LastGap gap) : Blanks (stripComments gap) := by
  cases h with
  | gap h =>
    obtain ⟨space, hspace, -, hstrip⟩ := h.strip
    have hnil := hstrip []
    rw [List.append_nil] at hnil
    rw [hnil]
    exact hspace.append Blanks.nil
  | @comment gap body h hbody =>
    obtain ⟨space, hspace, -, hstrip⟩ := h.strip
    have hend := stripComment_append hbody []
    rw [List.append_nil] at hend
    rw [hstrip, stripComments, hend]
    exact hspace.append
      ((((blanks_blank body).append Blanks.nil).cons (by decide)).cons (by decide))

/-! ### Tokens with blanks between -/

/-- A text of tokens with blanks between and at the end. -/
abbrev Laid : Bool → List Token → List Char → Prop := Spaced Blanks Blanks

section Laid
variable {Between Last : List Char → Prop} {w : Bool} {token : Token} {tokens later : List Token}
  {text : List Char}

theorem Spaced.strip (h : Spaced Gap LastGap w tokens text)
    (hslash : ∀ token ∈ tokens, '/' ∉ token.text) : Laid w tokens (stripComments text) := by
  induction h with
  | nil last => exact .nil last.strip
  | cons between apart _ ih =>
    obtain ⟨hfirst, hslash⟩ := List.forall_mem_cons.1 hslash
    obtain ⟨space, hspace, hne, hstrip⟩ := between.strip
    rw [hstrip, stripComments_append hfirst]
    exact .cons hspace (fun hw ht => hne (apart hw ht)) (ih hslash)

/-- The first token, what stands before it, and the rest. -/
theorem Spaced.uncons (h : Spaced Between Last w (token :: tokens) text) :
    ∃ gap rest, text = gap ++ (token.text ++ rest) ∧ Between gap ∧
      (w → token.isWord → gap ≠ []) ∧ Spaced Between Last token.isWord tokens rest := by
  cases h with
  | cons between apart more => exact ⟨_, _, rfl, between, apart, more⟩

/-- Whether the last of some tokens is a word. -/
def wordAfter (w : Bool) (tokens : List Token) : Bool :=
  (tokens.getLast?.map Token.isWord).getD w

theorem wordAfter_cons (w : Bool) (token : Token) (tokens : List Token) :
    wordAfter w (token :: tokens) = wordAfter token.isWord tokens := by
  cases tokens with
  | nil => rfl
  | cons next tokens => simp [wordAfter, List.getLast?_cons]

/-- A text of two rows of tokens is cut between them, the gap going to the second. -/
theorem Spaced.unappend (h : Spaced Between Last w (tokens ++ later) text) :
    ∃ front rest, text = front ++ rest ∧ Spaced Between (· = []) w tokens front ∧
      Spaced Between Last (wordAfter w tokens) later rest := by
  induction tokens generalizing w text with
  | nil => exact ⟨[], text, rfl, .nil rfl, h⟩
  | cons token tokens ih =>
    obtain ⟨gap, behind, rfl, hgap, hapart, hmore⟩ := h.uncons
    obtain ⟨front, rest, rfl, hfront, hrest⟩ := ih hmore
    refine ⟨gap ++ (token.text ++ front), rest, by simp, .cons hgap hapart hfront, ?_⟩
    rwa [wordAfter_cons]

/-- Tokens without a gap at the end, and one put there. -/
theorem Spaced.close (h : Spaced Between (· = []) w tokens text) {gap : List Char}
    (hgap : Last gap) : Spaced Between Last w tokens (text ++ gap) := by
  induction h with
  | nil last =>
    rw [last]
    exact .nil hgap
  | cons between apart _ ih =>
    rw [List.append_assoc, List.append_assoc]
    exact .cons between apart ih

/-- Two rows of tokens one after the other. -/
theorem Spaced.append {rest : List Char} (h : Spaced Between (· = []) w tokens text)
    (hrest : Spaced Between Last (wordAfter w tokens) later rest) :
    Spaced Between Last w (tokens ++ later) (text ++ rest) := by
  induction h with
  | nil last =>
    rw [last]
    exact hrest
  | cons between apart _ ih =>
    rw [wordAfter_cons] at hrest
    rw [List.append_assoc, List.append_assoc]
    exact .cons between apart (ih hrest)

/-- Blanks before a laid text are a part of it. -/
theorem Laid.pad (h : Laid w tokens text) {space : List Char} (hspace : Blanks space) :
    Laid w tokens (space ++ text) := by
  cases h with
  | nil last => exact .nil (hspace.append last)
  | cons between apart more =>
    rw [← List.append_assoc]
    refine .cons (hspace.append between) (fun hw ht hnil => ?_) more
    exact apart hw ht (List.append_eq_nil_iff.1 hnil).2

/-- A character of no token and no gap is not in the text. -/
theorem Spaced.notMem {c : Char} (h : Spaced Between Last w tokens text)
    (hbetween : ∀ gap, Between gap → c ∉ gap) (hlast : ∀ gap, Last gap → c ∉ gap)
    (htokens : ∀ token ∈ tokens, c ∉ token.text) : c ∉ text := by
  induction h with
  | nil last => exact hlast _ last
  | cons between _ _ ih =>
    obtain ⟨hfirst, hmore⟩ := List.forall_mem_cons.1 htokens
    simp only [List.mem_append, not_or]
    exact ⟨hbetween _ between, hfirst, ih hmore⟩

theorem wordAfter_concat (w : Bool) (tokens : List Token) (token : Token) :
    wordAfter w (tokens ++ [token]) = token.isWord := by
  simp [wordAfter]

/-! ### Parts and blocks -/

/-- Tokens up to a semicolon, and the rest behind it. -/
theorem Laid.unpart (h : Laid w (tokens ++ .mark ';' :: later) text) :
    ∃ front after rest, text = front ++ (after ++ ';' :: rest) ∧
      Spaced Blanks (· = []) w tokens front ∧ Blanks after ∧ Laid false later rest := by
  obtain ⟨front, behind, rfl, hfront, hbehind⟩ := h.unappend
  obtain ⟨after, rest, rfl, hafter, -, hrest⟩ := hbehind.uncons
  exact ⟨front, after, rest, rfl, hfront, hafter, hrest⟩

theorem wordAfter_block (w : Bool) (keyword name : String) (body : List Token) :
    wordAfter w (block keyword name body) = false :=
  wordAfter_concat w (.word keyword.toList :: .word name.toList :: .mark '{' :: body) (.mark '}')

/-- A block, what stands before it, and the rest. -/
theorem Laid.unblock {keyword name : String} {body : List Token}
    (ident : Text.isIdentifier name.toList) (h : Laid w (block keyword name body ++ later) text) :
    ∃ (gap piece rest : List Char) (b : Block), text = gap ++ (piece ++ rest) ∧ Blanks gap ∧
      b.name = name ∧ b.Written keyword piece ∧ Laid false body b.body ∧
        Spaced Blanks (· = []) w (block keyword name body) (gap ++ piece) ∧
          Laid false later rest := by
  obtain ⟨front, rest, rfl, hfront, hrest⟩ := h.unappend
  rw [wordAfter_block] at hrest
  have hlaid := hfront
  obtain ⟨gap, _, rfl, hgap, -, hfront⟩ := hfront.uncons
  obtain ⟨first, _, rfl, hfirst, hapart, hfront⟩ := hfront.uncons
  obtain ⟨second, _, rfl, hsecond, -, hfront⟩ := hfront.uncons
  obtain ⟨inside, _, rfl, hinside, hend⟩ := hfront.unappend
  obtain ⟨last, _, rfl, hlast, -, hend⟩ := hend.uncons
  cases hend with
  | nil hnil =>
    subst hnil
    have hopening : Opening keyword.toList name.toList _ :=
      .mk ident (hapart rfl rfl) hfirst hsecond
    refine ⟨gap, _, rest, ⟨name, _, inside ++ last, true⟩, List.append_assoc _ _ _, hgap, rfl,
      ⟨rfl, _, hopening, rfl, ?_⟩, hinside.close hlast, hlaid, hrest⟩
    simp [Token.text]

end Laid

end WireSchema.Grammar
