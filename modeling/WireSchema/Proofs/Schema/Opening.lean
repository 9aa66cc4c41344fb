import WireSchema.Proofs.Schema.Block
import WireSchema.Proofs.Text.Identifier

/-! Blocks as they are written: a keyword, a name and a body in braces. A block is found where
one is written, whatever follows it, and nothing else is taken for one. No block starts in a
text in which a mark comes before the next brace. -/

namespace WireSchema.Schema

open Text (Blanks)

/-! ### The text before a body -/

/-- A keyword, a name and an opening brace, with blanks between them. -/
inductive Opening (keyword name : List Char) : List Char → Prop
  | mk {first second : List Char} (ident : Text.isIdentifier name) (apart : first ≠ [])
      (hfirst : Blanks first) (hsecond : Blanks second) :
      Opening keyword name (keyword ++ (first ++ (name ++ (second ++ ['{']))))

section Heads
variable {keyword name text inside rest : List Char}

theorem after?_eq_some : after? keyword text = some rest ↔ text = keyword ++ rest := by
  induction keyword generalizing text with
  | nil => simp [after?]
  | cons k keyword ih =>
    cases text with
    | nil => simp [after?]
    | cons c more =>
      rw [after?]
      split
      · next hc => rw [ih, hc, List.cons_append, List.cons.injEq, and_iff_right rfl]
      · next hc => simp [Ne.symm hc]

theorem afterBlanks?_eq_some (h : afterBlanks? text = some rest) :
    ∃ space, space ≠ [] ∧ Blanks space ∧ text = space ++ rest := by
  cases text with
  | nil => cases h
  | cons c more =>
    rw [afterBlanks?] at h
    split at h
    · next hc =>
      obtain ⟨space, hspace, hmore⟩ := Text.blanks_skipped more
      rw [Option.some.inj h] at hmore
      exact ⟨c :: space, List.cons_ne_nil c space, hspace.cons hc, congrArg (c :: ·) hmore⟩
    · cases h

theorem afterBlanks?_of_blanks {space : List Char} (hne : space ≠ []) (hs : Blanks space)
    (hrest : ∀ c ∈ rest.head?, ¬Text.isBlank c) : afterBlanks? (space ++ rest) = some rest := by
  cases space with
  | nil => exact absurd rfl hne
  | cons c more =>
    obtain ⟨hc, hmore⟩ := List.forall_mem_cons.1 hs
    rw [List.cons_append, afterBlanks?, if_pos hc, Text.skipBlanks_append hmore,
      Text.skipBlanks_of_head hrest]

theorem head?_eq_some (h : head? keyword text = some (name, inside)) :
    ∃ opening, Opening keyword name opening ∧ text = opening ++ inside := by
  simp only [head?, Option.bind_eq_bind, Option.bind_eq_some_iff] at h
  obtain ⟨afterWord, hword, word, hblanks, ⟨found, afterName⟩, hname, h⟩ := h
  obtain ⟨first, hne, hfirst, rfl⟩ := afterBlanks?_eq_some hblanks
  obtain ⟨second, hsecond, hskip⟩ := Text.blanks_skipped afterName
  have hident := Text.identifier?_isIdentifier hname
  have happend := Text.identifier?_append hname
  split at h
  · next inside' hbrace =>
    obtain ⟨rfl, rfl⟩ := Prod.mk.inj (Option.some.inj h)
    refine ⟨_, .mk hident hne hfirst hsecond, ?_⟩
    rw [after?_eq_some.1 hword, ← happend, hskip, hbrace]
    simp only [List.append_assoc, List.cons_append, List.nil_append]
  · cases h

/-- A blank or an opening brace ends a name. -/
theorem brace_ends {second : List Char} (hs : Blanks second) :
    ∀ c ∈ (second ++ '{' :: rest).head?, ¬Text.isIdentChar c :=
  hs.append_ends (by simp; decide)

theorem head?_of_opening {opening : List Char} (h : Opening keyword name opening) :
    head? keyword (opening ++ rest) = some (name, rest) := by
  obtain @⟨first, second, hident, hne, hfirst, hsecond⟩ := h
  have hstart : ∀ c ∈ (name ++ (second ++ '{' :: rest)).head?, ¬Text.isBlank c :=
    fun c hc => Text.not_isBlank_of_isIdentChar (Text.isIdentChar_of_head hident _ c hc)
  simp only [List.append_assoc, List.cons_append, List.nil_append, head?,
    after?_eq_some.2 rfl, afterBlanks?_of_blanks hne hfirst hstart,
    Text.identifier?_of_isIdentifier hident (brace_ends hsecond),
    Text.skipBlanks_append hsecond, Option.bind_eq_bind, Option.bind_some]
  rw [Text.skipBlanks_cons (by decide)]
  rfl

end Heads

/-! ### Where no block starts -/

/-- What may stand in an opening before its brace. -/
def isWordy (c : Char) : Bool := Text.isIdentChar c || Text.isBlank c

theorem Opening.wordy {keyword name opening : List Char} (h : Opening keyword name opening)
    (hk : ∀ c ∈ keyword, Text.isIdentChar c) :
    ∃ words, opening = words ++ ['{'] ∧ ∀ c ∈ words, isWordy c := by
  obtain @⟨first, second, hident, -, hfirst, hsecond⟩ := h
  refine ⟨keyword ++ (first ++ (name ++ second)), by simp, ?_⟩
  simp only [List.forall_mem_append, isWordy, Bool.or_eq_true]
  exact ⟨fun c hc => .inl (hk c hc), fun c hc => .inr (hfirst c hc),
    fun c hc => .inl (Text.isIdentChar_of_mem hident c hc), fun c hc => .inr (hsecond c hc)⟩

section Nowhere
variable {keyword name text rest : List Char}

theorem head?_eq_none_of_first {c : Char} (hc : c ∉ keyword.head?) (hk : keyword ≠ []) :
    head? keyword (c :: rest) = none := by
  rw [Option.eq_none_iff_forall_ne_some]
  rintro ⟨name, inside⟩ h
  obtain ⟨opening, ⟨-, -, -, -⟩, htext⟩ := head?_eq_some h
  cases keyword with
  | nil => exact hk rfl
  | cons k keyword =>
    simp only [List.cons_append, List.cons.injEq] at htext
    exact hc (congrArg some htext.1.symm)

/-- What stands before a mark that it does not hold, in a text that is cut in two ways. -/
theorem append_cons_inj {a b c d : List Char} {x y : Char} (ha : y ∉ a) (hb : x ∉ b)
    (h : a ++ x :: c = b ++ y :: d) : a = b ∧ x = y := by
  rw [List.append_eq_append_iff] at h
  obtain ⟨extra, rfl, hrest⟩ | ⟨extra, rfl, hrest⟩ := h
  · cases extra with
    | nil => exact ⟨(List.append_nil a).symm, (List.cons.inj hrest).1⟩
    | cons e extra =>
      obtain ⟨rfl, -⟩ := List.cons.inj hrest
      exact absurd (by simp) hb
  · cases extra with
    | nil => exact ⟨List.append_nil b, (List.cons.inj hrest).1.symm⟩
    | cons e extra =>
      obtain ⟨rfl, -⟩ := List.cons.inj hrest
      exact absurd (by simp) ha

/-- Where a mark comes before the next opening brace, no block starts. -/
theorem head?_eq_none {mark : Char} (hk : ∀ c ∈ keyword, Text.isIdentChar c) (ht : '{' ∉ text)
    (hm : ¬isWordy mark) (hne : mark ≠ '{') : head? keyword (text ++ mark :: rest) = none := by
  rw [Option.eq_none_iff_forall_ne_some]
  rintro ⟨name, inside⟩ h
  obtain ⟨opening, hopening, heq⟩ := head?_eq_some h
  obtain ⟨words, rfl, hwords⟩ := hopening.wordy hk
  rw [List.append_assoc, List.singleton_append] at heq
  -- up to the mark and up to the brace would be the same text
  exact hne (append_cons_inj ht (fun hmem => hm (hwords mark hmem)) heq).2

/-- A name in front of a brace is one word, so no opening starts there. -/
theorem head?_eq_none_of_name {word second : List Char} (hk : ∀ c ∈ keyword, Text.isIdentChar c)
    (hw : ∀ c ∈ word, Text.isIdentChar c) (hs : Blanks second) :
    head? keyword (word ++ (second ++ '{' :: rest)) = none := by
  rw [Option.eq_none_iff_forall_ne_some]
  rintro ⟨name, inside⟩ h
  obtain ⟨opening, hopening, heq⟩ := head?_eq_some h
  obtain @⟨first, second', hident, hne, hfirst, -⟩ := hopening
  simp only [List.append_assoc, List.singleton_append] at heq
  have hends : ∀ c ∈ (first ++ (name ++ (second' ++ '{' :: inside))).head?,
      ¬Text.isIdentChar c := by
    rw [List.head?_append_of_ne_nil _ hne]
    exact hfirst.ends
  have hstart := Text.isIdentChar_of_head hident (second' ++ '{' :: inside)
  -- behind the first word and the blanks comes the brace, but also the name
  have hbehind := congrArg (List.dropWhile Text.isIdentChar) heq
  rw [(Text.word_append hw (brace_ends hs)).2, (Text.word_append hk hends).2] at hbehind
  have hskip := congrArg Text.skipBlanks hbehind
  rw [Text.skipBlanks_append hs, Text.skipBlanks_append hfirst, Text.skipBlanks_cons (by decide),
    Text.skipBlanks_identifier hident] at hskip
  rw [← hskip] at hstart
  exact absurd (hstart '{' rfl) (by decide)

end Nowhere

/-! ### Bodies -/

/-- Every opening brace has its closing one. -/
inductive Balanced : List Char → Prop
  | nil : Balanced []
  | char {c : Char} {rest : List Char} (hopen : c ≠ '{') (hclose : c ≠ '}')
      (more : Balanced rest) : Balanced (c :: rest)
  | braces {inner rest : List Char} (within : Balanced inner) (more : Balanced rest) :
      Balanced ('{' :: (inner ++ '}' :: rest))

/-- No braces at all. -/
def Braceless (text : List Char) : Prop := '{' ∉ text ∧ '}' ∉ text

section Bodies
variable {a b text body rest : List Char} {depth : Nat}

theorem braceless_append : Braceless (a ++ b) ↔ Braceless a ∧ Braceless b := by
  simp only [Braceless, List.mem_append, not_or]
  tauto

theorem Braceless.balanced (h : Braceless text) : Balanced text := by
  induction text with
  | nil => exact .nil
  | cons c more ih =>
    simp only [Braceless, List.mem_cons, not_or] at h
    exact .char (Ne.symm h.1.1) (Ne.symm h.2.1) (ih ⟨h.1.2, h.2.2⟩)

theorem Balanced.append (ha : Balanced a) (hb : Balanced b) : Balanced (a ++ b) := by
  induction ha with
  | nil => exact hb
  | char hopen hclose _ ih => exact .char hopen hclose ih
  | braces within _ _ ih =>
    rw [List.cons_append, List.append_assoc, List.cons_append]
    exact .braces within ih

theorem untilClose_open (depth : Nat) (text : List Char) :
    untilClose depth ('{' :: text) = (untilClose (depth + 1) text).map ('{' :: ·) := by
  rw [untilClose.eq_def]
  rfl

theorem untilClose_close (depth : Nat) (text : List Char) :
    untilClose (depth + 1) ('}' :: text) = (untilClose depth text).map ('}' :: ·) := by
  rw [untilClose.eq_def]
  rfl

theorem untilClose_end (text : List Char) : untilClose 0 ('}' :: text) = some [] := by
  rw [untilClose.eq_def]
  rfl

theorem untilClose_char {c : Char} (hopen : c ≠ '{') (hclose : c ≠ '}') (depth : Nat)
    (text : List Char) :
    untilClose depth (c :: text) = (untilClose depth text).map (c :: ·) := by
  rw [untilClose.eq_def]
  simp only [if_neg hopen, if_neg hclose]

/-- A balanced text is passed over. -/
theorem Balanced.untilClose (h : Balanced a) (depth : Nat) (text : List Char) :
    untilClose depth (a ++ text) = (untilClose depth text).map (a ++ ·) := by
  induction h generalizing depth text with
  | nil => simp
  | char hopen hclose _ ih =>
    rw [List.cons_append, untilClose_char hopen hclose, ih, Option.map_map]
    rfl
  | @braces inner rest within _ ihin ih =>
    rw [List.cons_append, List.append_assoc, List.cons_append, untilClose_open, ihin,
      untilClose_close, ih]
    simp only [Option.map_map]
    congr 1
    funext t
    simp

theorem Balanced.untilClose_body (h : Balanced body) (rest : List Char) :
    Schema.untilClose 0 (body ++ '}' :: rest) = some body := by
  rw [h.untilClose, untilClose_end, Option.map_some, List.append_nil]

/-- Balanced texts with so many closing braces between them. -/
inductive Closes : Nat → List Char → Prop
  | last {text : List Char} (h : Balanced text) : Closes 0 text
  | more {depth : Nat} {text later : List Char} (h : Balanced text) (more : Closes depth later) :
      Closes (depth + 1) (text ++ '}' :: later)

theorem Closes.prepend (h : Closes depth b) (ha : Balanced a) : Closes depth (a ++ b) := by
  cases h with
  | last h => exact .last (ha.append h)
  | more h later =>
    rw [← List.append_assoc]
    exact .more (ha.append h) later

theorem closes_of_untilClose (h : untilClose depth text = some body) :
    Closes depth body ∧ ∃ rest, text = body ++ '}' :: rest := by
  induction text generalizing depth body with
  | nil => cases h
  | cons c more ih =>
    by_cases hopen : c = '{'
    · subst hopen
      rw [untilClose_open, Option.map_eq_some_iff] at h
      obtain ⟨inner, hinner, rfl⟩ := h
      obtain ⟨hcloses, rest, rfl⟩ := ih hinner
      refine ⟨?_, rest, rfl⟩
      cases hcloses with
      | more h later =>
        have hbraces := later.prepend (.braces h .nil)
        rwa [List.cons_append, List.append_assoc, List.cons_append, List.nil_append] at hbraces
    · by_cases hclose : c = '}'
      · subst hclose
        cases depth with
        | zero =>
          rw [untilClose_end, Option.some.injEq] at h
          exact h ▸ ⟨.last .nil, more, rfl⟩
        | succ depth =>
          rw [untilClose_close, Option.map_eq_some_iff] at h
          obtain ⟨later, hlater, rfl⟩ := h
          obtain ⟨hcloses, rest, rfl⟩ := ih hlater
          exact ⟨.more .nil hcloses, rest, rfl⟩
      · rw [untilClose_char hopen hclose, Option.map_eq_some_iff] at h
        obtain ⟨later, hlater, rfl⟩ := h
        obtain ⟨hcloses, rest, rfl⟩ := ih hlater
        exact ⟨hcloses.prepend (.char hopen hclose .nil), rest, rfl⟩

/-- What stands before the brace that closes the outermost one is balanced. -/
theorem balanced_of_untilClose (h : untilClose 0 text = some body) :
    Balanced body ∧ ∃ rest, text = body ++ '}' :: rest := by
  obtain ⟨hcloses, hrest⟩ := closes_of_untilClose h
  cases hcloses with
  | last h => exact ⟨h, hrest⟩

theorem takeWhile_braceless (h : Braceless body) (rest : List Char) :
    (body ++ '}' :: rest).takeWhile (fun c => c != '{' && c != '}') = body := by
  have hall : ∀ c ∈ body, (c != '{' && c != '}') = true := by
    intro c hc
    rw [Bool.and_eq_true, bne_iff_ne, bne_iff_ne]
    exact ⟨fun he => h.1 (he ▸ hc), fun he => h.2 (he ▸ hc)⟩
  rw [List.takeWhile_append_of_pos hall, List.takeWhile_cons_of_neg (by decide), List.append_nil]

end Bodies

/-! ### Blocks -/

/-- The text of a block: what opens it, its body, and the closing brace. -/
structure Block.Written (b : Block) (keyword : String) (piece : List Char) : Prop where
  closed : b.closed = true
  text : ∃ opening, Opening keyword.toList b.name.toList opening ∧ b.bodyAt = Utf8.size opening ∧
    piece = opening ++ (b.body ++ ['}'])

section Blocks
variable {b : Block} {length : Nat} {text piece : List Char}

theorem structAt?_of_written (h : b.Written "struct" piece) (hb : Balanced b.body)
    (rest : List Char) : structAt? (piece ++ rest) = some (b, piece.length) := by
  obtain ⟨hclosed, opening, hopening, hat, rfl⟩ := h
  obtain ⟨name, bodyAt, body, closed⟩ := b
  obtain rfl : closed = true := hclosed
  obtain rfl : bodyAt = Utf8.size opening := hat
  simp only [List.append_assoc, List.singleton_append, structAt?, head?_of_opening hopening,
    Option.bind_eq_bind, Option.bind_some, hb.untilClose_body, String.ofList_toList,
    Utf8.size_append, Nat.add_sub_cancel, List.length_append, List.length_singleton,
    Nat.add_assoc]

theorem enumAt?_of_written (h : b.Written "enum" piece) (hb : Braceless b.body)
    (rest : List Char) : enumAt? (piece ++ rest) = some (b, piece.length) := by
  obtain ⟨hclosed, opening, hopening, hat, rfl⟩ := h
  obtain ⟨name, bodyAt, body, closed⟩ := b
  obtain rfl : closed = true := hclosed
  obtain rfl : bodyAt = Utf8.size opening := hat
  simp only [List.append_assoc, List.singleton_append, enumAt?, head?_of_opening hopening,
    Option.bind_eq_bind, Option.bind_some, takeWhile_braceless hb, List.drop_left,
    String.ofList_toList, Utf8.size_append, Nat.add_sub_cancel, List.length_append,
    List.length_singleton, Nat.add_assoc]

/-- A struct that is found and closed is written there. -/
theorem structAt?_eq_some (h : structAt? text = some (b, length)) (hclosed : b.closed = true) :
    Balanced b.body ∧ ∃ piece rest, text = piece ++ rest ∧ b.Written "struct" piece ∧
      length = piece.length := by
  simp only [structAt?, Option.bind_eq_bind, Option.bind_eq_some_iff] at h
  obtain ⟨⟨name, inside⟩, hhead, h⟩ := h
  obtain ⟨opening, hopening, rfl⟩ := head?_eq_some hhead
  split at h
  · next body hbody =>
    obtain ⟨rfl, rfl⟩ := Prod.mk.inj (Option.some.inj h)
    obtain ⟨hbalanced, rest, rfl⟩ := balanced_of_untilClose hbody
    refine ⟨hbalanced, opening ++ (body ++ ['}']), rest, by simp, ⟨rfl, opening, ?_, ?_, rfl⟩, ?_⟩
    · exact (String.toList_ofList (l := name)).symm ▸ hopening
    · simp
    · simp [Nat.add_assoc]
  · obtain ⟨rfl, -⟩ := Prod.mk.inj (Option.some.inj h)
    cases hclosed

/-- An enum that is found is written there. -/
theorem enumAt?_eq_some (h : enumAt? text = some (b, length)) :
    Braceless b.body ∧ ∃ piece rest, text = piece ++ rest ∧ b.Written "enum" piece ∧
      length = piece.length := by
  simp only [enumAt?, Option.bind_eq_bind, Option.bind_eq_some_iff] at h
  obtain ⟨⟨name, inside⟩, hhead, h⟩ := h
  obtain ⟨opening, hopening, rfl⟩ := head?_eq_some hhead
  have hbody : Braceless (inside.takeWhile fun c => c != '{' && c != '}') := by
    constructor <;> exact fun hmem => absurd (List.mem_takeWhile_imp hmem) (by decide)
  obtain ⟨after, hafter⟩ := List.takeWhile_prefix (fun c => c != '{' && c != '}') (l := inside)
  dsimp only at h
  generalize inside.takeWhile (fun c => c != '{' && c != '}') = body at hbody hafter h
  subst hafter
  rw [List.drop_left] at h
  split at h
  · next rest =>
    obtain ⟨rfl, rfl⟩ := Prod.mk.inj (Option.some.inj h)
    refine ⟨hbody, opening ++ (body ++ ['}']), rest, by simp, ⟨rfl, opening, ?_, ?_, rfl⟩, ?_⟩
    · exact (String.toList_ofList (l := name)).symm ▸ hopening
    · simp
    · simp [Nat.add_assoc]
  · cases h

end Blocks

end WireSchema.Schema
