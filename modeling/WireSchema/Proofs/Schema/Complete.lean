import WireSchema.Proofs.Schema.Parts

/-! Every text that the grammar writes is read as what it writes. No pass takes up what belongs
to another: in front of a brace that opens no block of its kind the search finds nothing,
and what it finds it cuts out whole, so that blanks stand for it in the gap before the
next token. -/

namespace WireSchema.Grammar

open Schema
open Text (Blanks)

/-! ### Where no block starts -/

section Barren
variable {find : List Char → Option (Block × Nat)} {keyword piece rest : List Char}

/-- A search that needs a head. -/
def NeedsHead (find : List Char → Option (Block × Nat)) (keyword : List Char) : Prop :=
  ∀ text, head? keyword text = none → find text = none

theorem structAt?_needsHead : NeedsHead structAt? "struct".toList := fun text h => by
  rw [structAt?, h]
  rfl

theorem enumAt?_needsHead : NeedsHead enumAt? "enum".toList := fun text h => by
  rw [enumAt?, h]
  rfl

theorem barren_of_first (hf : NeedsHead find keyword) (hk : keyword ≠ [])
    (h : ∀ c ∈ piece, c ∉ keyword.head?) : Barren find piece rest :=
  barren_of_suffix fun c _ hmore =>
    hf _ (head?_eq_none_of_first (h c (hmore.subset List.mem_cons_self)) hk)

theorem barren_of_blanks (hf : NeedsHead find keyword) (hne : keyword ≠ [])
    (hk : ∀ c ∈ keyword, Text.isIdentChar c) (h : Blanks piece) : Barren find piece rest :=
  barren_of_first hf hne fun c hc hfirst =>
    Text.not_isBlank_of_isIdentChar (hk c (List.mem_of_head? hfirst)) (h c hc)

/-- No block starts before a mark that comes before the next opening brace. -/
theorem barren_of_mark (hf : NeedsHead find keyword) (hk : ∀ c ∈ keyword, Text.isIdentChar c)
    {mark : Char} (hm : ¬isWordy mark) (hne : mark ≠ '{') (h : '{' ∉ piece) :
    Barren find (piece ++ [mark]) rest := by
  refine barren_of_suffix fun c more hmore => hf _ ?_
  rw [List.suffix_concat_iff] at hmore
  obtain hnil | ⟨front, heq, hfront⟩ := hmore
  · cases hnil
  · have hopen : '{' ∉ front := fun hmem => h (hfront.subset hmem)
    rw [← List.cons_append, heq, List.append_assoc]
    exact head?_eq_none hk hopen hm hne

/-- A block of another kind holds no start. -/
theorem barren_of_enum {b : Block} (written : b.Written "enum" piece) (hbody : '{' ∉ b.body)
    (ident : Text.isIdentifier b.name.toList) : Barren structAt? piece rest := by
  obtain ⟨opening, hopening, -, rfl⟩ := written.text
  obtain @⟨first, second, -, -, hfirst, hsecond⟩ := hopening
  have hkeyword (rest : List Char) : Barren structAt? "enum".toList rest :=
    barren_of_first structAt?_needsHead (by decide) (by decide)
  have hblanks {space : List Char} (h : Blanks space) (rest : List Char) :
      Barren structAt? space rest :=
    barren_of_blanks structAt?_needsHead (by decide) (by decide) h
  have hname : Barren structAt? b.name.toList (second ++ '{' :: (b.body ++ '}' :: rest)) := by
    refine barren_of_suffix fun c more hmore => structAt?_needsHead _ ?_
    have hword : ∀ d ∈ c :: more, Text.isIdentChar d := fun d hd =>
      Text.isIdentChar_of_mem ident d (hmore.subset hd)
    exact head?_eq_none_of_name (by decide) hword hsecond
  have hbrace (rest : List Char) : Barren structAt? ['{'] rest :=
    barren_of_first structAt?_needsHead (by decide) (by decide)
  have hinside : Barren structAt? (b.body ++ ['}']) rest :=
    barren_of_mark structAt?_needsHead (by decide) (by decide) (by decide) hbody
  refine .append (.append (hkeyword _) (.append (hblanks hfirst _) (.append ?_
    (.append (hblanks hsecond _) (hbrace _))))) hinside
  simpa using hname

end Barren

/-! ### Marks of the tokens -/

/-- A character that is in none of some tokens. -/
def Clear (c : Char) (tokens : List Token) : Prop := ∀ token ∈ tokens, c ∉ token.text

section Clear
variable {c : Char} {tokens later : List Token} {token : Token}

theorem Clear.cons (ht : c ∉ token.text) (h : Clear c tokens) : Clear c (token :: tokens) :=
  List.forall_mem_cons.2 ⟨ht, h⟩

theorem Clear.append (h : Clear c tokens) (hl : Clear c later) : Clear c (tokens ++ later) :=
  List.forall_mem_append.2 ⟨h, hl⟩

theorem clear_nil (c : Char) : Clear c [] := List.forall_mem_nil _

theorem Clear.notMem {w : Bool} {text : List Char} (h : Clear c tokens) (hl : Laid w tokens text)
    (hc : ¬Text.isBlank c) : c ∉ text :=
  Spaced.notMem hl (fun _ hb => hb.notMem hc) (fun _ hb => hb.notMem hc) h

theorem AllSolid.clear (h : AllSolid tokens) (hc : c ∈ [';', '{', '}', '/']) : Clear c tokens :=
  fun token ht => (h token ht).marks c hc

theorem clear_name {name : String} (ident : Text.isIdentifier name.toList)
    (hc : c ∈ [';', '{', '}', '/']) : c ∉ (Token.word name.toList).text :=
  (solid_of_isIdentifier ident).marks c hc

theorem Entries.clear {next : Int} {ms : List Member} (h : Entries next ms tokens)
    (hc : c ∈ ['{', '}', '/']) : Clear c tokens := by
  have hmark : c ∉ (Token.mark '=').text ∧ c ∉ (Token.mark ';').text := by
    revert c
    decide
  have hc : c ∈ [';', '{', '}', '/'] := List.mem_cons_of_mem _ hc
  induction h with
  | nil => exact clear_nil c
  | written ident integer _ ih =>
    exact .cons (clear_name ident hc) (.cons hmark.1 (.cons (integer.solid.marks c hc)
      (.cons hmark.2 ih)))
  | counted ident _ _ ih => exact .cons (clear_name ident hc) (.cons hmark.2 ih)

theorem Decl.clear {f : Field} (h : Decl f tokens) (hc : c ∈ ['{', '}', '/']) :
    Clear c tokens := by
  have hmark : c ∉ (Token.mark ';').text := by
    revert c
    decide
  obtain ⟨inner, rfl, hinner⟩ := h.solid
  exact (hinner.clear (List.mem_cons_of_mem _ hc)).append (.cons hmark (clear_nil c))

theorem clear_block {keyword name : String} {body : List Token} (hk : '/' ∉ keyword.toList)
    (ident : Text.isIdentifier name.toList) (h : Clear '/' body) :
    Clear '/' (block keyword name body) :=
  .cons hk (.cons (clear_name ident (by decide)) (.cons (by decide)
    (h.append (.cons (by decide) (clear_nil '/')))))

theorem Enum.clear {e : EnumDef} (h : Enum e tokens) : Clear '/' tokens := by
  obtain ⟨ident, entries⟩ := h
  exact clear_block (by decide) ident (entries.clear (by decide))

theorem Items.clear {fs : List Field} {es : List EnumDef} (h : Items fs es tokens) :
    Clear '/' tokens := by
  induction h with
  | nil => exact clear_nil '/'
  | field decl _ ih => exact (decl.clear (by decide)).append ih
  | enum enum _ ih => exact enum.clear.append ih

theorem Definitions.clear {ss : List StructDef} {es : List EnumDef}
    (h : Definitions ss es tokens) : Clear '/' tokens := by
  induction h with
  | nil => exact clear_nil '/'
  | struct struct _ ih =>
    obtain ⟨ident, items, -, -⟩ := struct
    exact (clear_block (by decide) ident items.clear).append ih
  | enum enum _ ih => exact enum.clear.append ih

/-- Fields alone hold no brace. -/
theorem Items.braceless {fs : List Field} {text : List Char} {w : Bool} (h : Items fs [] tokens)
    (hl : Laid w tokens text) : Braceless text := by
  have hclear {c : Char} (hc : c ∈ ['{', '}', '/']) : Clear c tokens := by
    generalize hes : ([] : List EnumDef) = es at h
    clear hl
    induction h with
    | nil => exact clear_nil c
    | field decl _ ih => exact (decl.clear hc).append (ih hes)
    | enum => cases hes
  exact ⟨(hclear (by decide)).notMem hl (by decide), (hclear (by decide)).notMem hl (by decide)⟩

end Clear

/-! ### Cutting the enums -/

theorem mayStart_none : mayStart none := rfl

theorem mayStart_blank {c : Char} (h : Text.isBlank c) : mayStart (some c) := by
  rw [mayStart, Bool.not_eq_true', Bool.eq_false_iff]
  exact Text.not_isWordChar_of_isBlank h

/-- Behind blanks a block may start if it might before them. -/
theorem mayStart_blanks {before : Option Char} {gap : List Char} (h : mayStart before)
    (hgap : Blanks gap) : mayStart (lastOf before gap) := by
  obtain rfl | ⟨front, c, rfl⟩ := gap.eq_nil_or_concat'
  · exact h
  · rw [lastOf, List.getLast?_concat]
    exact mayStart_blank (hgap c (by simp))

theorem lastOf_concat (before : Option Char) (front : List Char) (c : Char) :
    lastOf before (front ++ [c]) = some c := by
  rw [lastOf, List.getLast?_concat]
  rfl

theorem mayStart_close {b : Block} {keyword : String} {piece : List Char} (before : Option Char)
    (h : b.Written keyword piece) : mayStart (lastOf before piece) := by
  obtain ⟨opening, -, -, rfl⟩ := h.text
  rw [← List.append_assoc, lastOf_concat]
  decide +kernel

section Enums
variable {w : Bool} {text : List Char} {tokens later : List Token} {fs : List Field}
  {es : List EnumDef}

/-- An enum is a block that is read as it. -/
theorem Enum.unlay {e : EnumDef} (h : Enum e tokens) (hl : Laid w (tokens ++ later) text) :
    ∃ (gap piece rest : List Char) (b : Block), text = gap ++ (piece ++ rest) ∧ Blanks gap ∧
      Text.isIdentifier b.name.toList ∧ b.Written "enum" piece ∧ Braceless b.body ∧ b.IsEnum e ∧
        Spaced Blanks (· = []) w tokens (gap ++ piece) ∧ wordAfter w tokens = false ∧
          Laid false later rest := by
  obtain @⟨name, ms, body, ident, entries⟩ := h
  obtain ⟨gap, piece, rest, b, rfl, hgap, rfl, hwritten, hbody, hlaid, hrest⟩ := hl.unblock ident
  have hbraceless : Braceless b.body :=
    ⟨(entries.clear (by decide)).notMem hbody (by decide),
      (entries.clear (by decide)).notMem hbody (by decide)⟩
  refine ⟨gap, piece, rest, b, rfl, hgap, ident, hwritten, hbraceless, ⟨rfl, ?_⟩, hlaid,
    wordAfter_block _ _ _ _, hrest⟩
  refine entries.read hbody fun code hcode => ?_
  rw [Option.some.injEq, ← Int64.toInt_inj, hcode]
  rfl

/-- A declaration is a text up to a semicolon. -/
theorem Decl.unlay {f : Field} (h : Decl f tokens) (hl : Laid w (tokens ++ later) text) :
    ∃ front rest, text = (front ++ [';']) ++ rest ∧ Braceless front ∧
      Spaced Blanks (· = []) w tokens (front ++ [';']) ∧ wordAfter w tokens = false ∧
        Laid false later rest := by
  obtain ⟨inner, rfl, hinner⟩ := h.solid
  rw [List.append_assoc] at hl
  obtain ⟨front, after, rest, rfl, hfront, hafter, hrest⟩ := Laid.unpart hl
  refine ⟨front ++ after, rest, by simp, ?_, ?_, wordAfter_concat _ _ _, hrest⟩
  · refine braceless_append.2 ⟨⟨?_, ?_⟩, hafter.notMem (by decide), hafter.notMem (by decide)⟩
    · exact hfront.notMem_of_solid hinner (by decide)
    · exact hfront.notMem_of_solid hinner (by decide)
  · have hsemi : Spaced Blanks (· = []) (wordAfter w inner) [.mark ';'] (after ++ ([';'] ++ [])) :=
      .cons hafter (fun _ ht => absurd ht (by decide)) (.nil rfl)
    rw [List.append_assoc]
    exact hfront.append hsemi

/-- The enums among fields are found, and the fields are left. -/
theorem Items.cut (h : Items fs es tokens) (hl : Laid false tokens text) {before : Option Char}
    (hb : mayStart before) (offset : Nat) :
    ∃ found left, cutBlocks enumAt? before offset 0 text = (found, left) ∧
      List.Forall₂ Block.IsEnum (found.map Prod.snd) es ∧
        ∃ kept, Items fs [] kept ∧ Laid false kept left := by
  have hgap {gap : List Char} (h : Blanks gap) (rest : List Char) : Barren enumAt? gap rest :=
    barren_of_blanks enumAt?_needsHead (by decide) (by decide) h
  induction h generalizing text before offset with
  | nil =>
    cases hl with
    | nil last =>
      have hkept := cutBlocks_kept before offset (hgap last [])
      rw [List.append_nil] at hkept
      exact ⟨_, _, hkept, .nil, [], .nil, .nil (by simpa [cutBlocks] using last)⟩
  | field decl _ ih =>
    obtain ⟨front, rest, rfl, hfront, hlaid, hafter, hrest⟩ := decl.unlay hl
    have hbarren : Barren enumAt? (front ++ [';']) rest :=
      barren_of_mark enumAt?_needsHead (by decide) (by decide) (by decide) hfront.1
    have hstart : mayStart (lastOf before (front ++ [';'])) := by
      rw [lastOf_concat]
      decide +kernel
    obtain ⟨found, left, hcut, hes, kept, hkept, hleft⟩ := ih hrest hstart _
    rw [cutBlocks_kept before offset hbarren, hcut]
    exact ⟨_, _, rfl, hes, _, .field decl hkept, hlaid.append (by rwa [hafter])⟩
  | enum enum _ ih =>
    obtain ⟨gap, piece, rest, b, rfl, hblanks, -, hwritten, hbody, he, -, -, hrest⟩ :=
      enum.unlay hl
    obtain ⟨found, left, hcut, hes, kept, hkept, hleft⟩ := ih hrest (mayStart_close _ hwritten) _
    rw [cutBlocks_kept before offset (hgap hblanks _), cutBlocks_found _ hwritten.ne_nil
      (enumAt?_of_written hwritten hbody rest) (mayStart_blanks hb hblanks), hcut]
    exact ⟨_, _, rfl, .cons he hes, kept, hkept,
      Laid.pad (Laid.pad hleft (blanks_blank piece)) hblanks⟩

/-- Fields alone are read one after another. -/
theorem Items.fields (h : Items fs [] tokens) (hl : Laid false tokens text) :
    Fields (segments text) fs := by
  generalize hes : ([] : List EnumDef) = es at h
  induction h generalizing text with
  | nil =>
    cases hl with
    | nil last =>
      rw [segments_of_blanks last]
      exact .nil
  | field decl _ ih =>
    obtain ⟨part, rest, hsegments, hrest, hread⟩ := decl.read hl
    rw [hsegments]
    exact hread (ih hrest hes)
  | enum => cases hes

theorem Block.Written.balanced {b : Block} {keyword : String} {piece : List Char}
    (h : b.Written keyword piece) (hk : ∀ c ∈ keyword.toList, Text.isIdentChar c)
    (hb : Balanced b.body) : Balanced piece := by
  obtain ⟨opening, hopening, -, rfl⟩ := h.text
  obtain ⟨words, rfl, hwords⟩ := hopening.wordy hk
  have hfront : Braceless words :=
    ⟨fun hmem => absurd (hwords _ hmem) (by decide), fun hmem => absurd (hwords _ hmem) (by decide)⟩
  rw [List.append_assoc]
  exact hfront.balanced.append (.braces hb .nil)

/-- Every brace among the items is that of an enum, which closes it. -/
theorem Items.balanced (h : Items fs es tokens) (hl : Laid w tokens text) : Balanced text := by
  have hgap {gap : List Char} (h : Blanks gap) : Balanced gap :=
    Braceless.balanced ⟨h.notMem (by decide), h.notMem (by decide)⟩
  induction h generalizing w text with
  | nil =>
    cases hl with
    | nil last => exact hgap last
  | field decl _ ih =>
    obtain ⟨front, rest, rfl, hfront, -, -, hrest⟩ := decl.unlay hl
    have hsemi : Braceless [';'] := ⟨by decide, by decide⟩
    exact (braceless_append.2 ⟨hfront, hsemi⟩).balanced.append (ih hrest)
  | enum enum _ ih =>
    obtain ⟨gap, piece, rest, b, rfl, hblanks, -, hwritten, hbody, -, -, -, hrest⟩ :=
      enum.unlay hl
    exact (hgap hblanks).append ((Block.Written.balanced hwritten (by decide) hbody.balanced).append
      (ih hrest))

/-- A struct is a block that is read as it. -/
theorem Struct.unlay {s : StructDef} (h : Struct s tokens) (hl : Laid w (tokens ++ later) text) :
    ∃ (gap piece rest : List Char) (b : Block), text = gap ++ (piece ++ rest) ∧ Blanks gap ∧
      b.Written "struct" piece ∧ Balanced b.body ∧ b.IsStruct s ∧ Laid false later rest := by
  obtain @⟨name, fs, es, body, ident, items, hfields, henums⟩ := h
  obtain ⟨gap, piece, rest, b, rfl, hgap, rfl, hwritten, hbody, -, hrest⟩ := hl.unblock ident
  obtain ⟨found, left, hcut, hes, kept, hkept, hleft⟩ := items.cut hbody mayStart_none 0
  have hblocks : blocks enumAt? 0 b.body = (found, left) := hcut
  refine ⟨gap, piece, rest, b, rfl, hgap, hwritten, items.balanced hbody, ?_, hrest⟩
  refine ⟨hwritten.closed, rfl, ⟨es, ?_, henums, rfl⟩, ?_, ?_, hfields⟩
  · rwa [hblocks]
  · rw [hblocks]
    exact hkept.braceless hleft
  · rw [hblocks]
    exact hkept.fields hleft

/-- The structs are found, and the enums are left. -/
theorem Definitions.cut {ss : List StructDef} (h : Definitions ss es tokens)
    (hl : Laid false tokens text) {before : Option Char} (hb : mayStart before) (offset : Nat) :
    ∃ found left, cutBlocks structAt? before offset 0 text = (found, left) ∧
      List.Forall₂ Block.IsStruct (found.map Prod.snd) ss ∧
        ∃ kept, Items [] es kept ∧ Laid false kept left := by
  have hgap {gap : List Char} (h : Blanks gap) (rest : List Char) : Barren structAt? gap rest :=
    barren_of_blanks structAt?_needsHead (by decide) (by decide) h
  induction h generalizing text before offset with
  | nil =>
    cases hl with
    | nil last =>
      have hkept := cutBlocks_kept before offset (hgap last [])
      rw [List.append_nil] at hkept
      exact ⟨_, _, hkept, .nil, [], .nil, .nil (by simpa [cutBlocks] using last)⟩
  | struct struct _ ih =>
    obtain ⟨gap, piece, rest, b, rfl, hblanks, hwritten, hbody, hs, hrest⟩ := struct.unlay hl
    obtain ⟨found, left, hcut, hss, kept, hkept, hleft⟩ := ih hrest (mayStart_close _ hwritten) _
    rw [cutBlocks_kept before offset (hgap hblanks _), cutBlocks_found _ hwritten.ne_nil
      (structAt?_of_written hwritten hbody rest) (mayStart_blanks hb hblanks), hcut]
    exact ⟨_, _, rfl, .cons hs hss, kept, hkept,
      Laid.pad (Laid.pad hleft (blanks_blank piece)) hblanks⟩
  | enum enum _ ih =>
    obtain ⟨gap, piece, rest, b, rfl, hblanks, ident, hwritten, hbody, -, hlaid, hafter, hrest⟩ :=
      enum.unlay hl
    have hbarren : Barren structAt? (gap ++ piece) rest :=
      (hgap hblanks _).append (barren_of_enum hwritten hbody.1 ident)
    have hstart : mayStart (lastOf before (gap ++ piece)) := by
      obtain ⟨opening, -, -, rfl⟩ := hwritten.text
      rw [← List.append_assoc, ← List.append_assoc, lastOf_concat]
      decide +kernel
    obtain ⟨found, left, hcut, hss, kept, hkept, hleft⟩ := ih hrest hstart _
    rw [← List.append_assoc, cutBlocks_kept before offset hbarren, hcut]
    exact ⟨_, _, rfl, hss, _, .enum enum hkept, hlaid.append (by rwa [hafter])⟩

end Enums

/-- What the grammar writes is what is read. -/
theorem Writes.defines {ss : List StructDef} {es : List EnumDef} {text : List Char}
    (h : Writes ss es text) : Defines text ss es := by
  obtain ⟨tokens, hdefs, hspaced⟩ := h.tokens
  obtain ⟨found, outside, hcut, hss, kept, hkept, houtside⟩ :=
    hdefs.cut (hspaced.strip hdefs.clear) mayStart_none 0
  obtain ⟨found', left, hcut', hes, kept', hkept', hleft⟩ :=
    hkept.cut houtside mayStart_none 0
  have hstructs : structBlocks text = (found, outside) := hcut
  have henums : enumBlocks text = (found', left) := by
    rw [enumBlocks, hstructs]
    exact hcut'
  refine ⟨by rwa [hstructs], by rwa [henums], h.structNames, h.enumNames, ?_⟩
  rw [henums]
  cases hkept' with
  | nil =>
    cases hleft with
    | nil last => exact last

/-! ### A text from its gaps -/

/-- Tokens, each with the gap before it, and the gap at the end. -/
def layOut : List (List Char × Token) → List Char → List Char
  | [], last => last
  | (gap, token) :: more, last => gap ++ (token.text ++ layOut more last)

/-- Whether there is something between every two words. -/
def apart : Bool → List (List Char × Token) → Bool
  | _, [] => true
  | w, (gap, token) :: more => (!(w && token.isWord) || !gap.isEmpty) && apart token.isWord more

theorem spaced_layOut {w : Bool} {pieces : List (List Char × Token)} {last : List Char}
    (hgaps : ∀ piece ∈ pieces, Gap piece.1) (hlast : LastGap last) (h : apart w pieces) :
    Spaced Gap LastGap w (pieces.map Prod.snd) (layOut pieces last) := by
  induction pieces generalizing w with
  | nil => exact .nil hlast
  | cons piece pieces ih =>
    obtain ⟨gap, token⟩ := piece
    rw [List.forall_mem_cons] at hgaps
    simp only [apart, Bool.and_eq_true, Bool.or_eq_true, Bool.not_eq_true', Bool.and_eq_false_iff,
      List.isEmpty_eq_false_iff] at h
    refine .cons hgaps.1 (fun hw ht => ?_) (ih hgaps.2 h.2)
    obtain (hw' | ht') | hne := h.1
    · exact absurd hw (by simp [hw'])
    · exact absurd ht (by simp [ht'])
    · exact hne

end WireSchema.Grammar

namespace WireSchema.Document

/-- A text that the grammar writes is read as the structs and enums that it writes. -/
theorem parse_written {ss : List StructDef} {es : List EnumDef} {text : String}
    (h : Grammar.Writes ss es text.toList) : parse text = .ok (Schema.documentOf ss es) :=
  Schema.document_eq_ok.2 ⟨ss, es, h.defines, rfl⟩

/-- Names that are keywords, braces in comments, an enum before the fields, and a comment that
the end of the text cuts off. -/
def keywordNames : String :=
  "enum struct\x7benum;A=-007//\x7d\n;\x7dstruct enum\x7b//\x7b\n enum struct \x7b x ; \x7d " ++
    "int[ 0,5 ]struct:a b//\n;struct enum;\x7d// struct"

/-- The tokens of it with the gaps before them. -/
def keywordNamesPieces : List (List Char × Grammar.Token) :=
  [([], .word "enum".toList), ([' '], .word "struct".toList), ([], .mark '{'),
    ([], .word "enum".toList), ([], .mark ';'),
    ([], .word "A".toList), ([], .mark '='), ([], .literal "-007".toList),
    (['/', '/', '}', '\n'], .mark ';'), ([], .mark '}'),
    ([], .word "struct".toList), ([' '], .word "enum".toList), ([], .mark '{'),
    (['/', '/', '{', '\n', ' '], .word "enum".toList), ([' '], .word "struct".toList),
    ([' '], .mark '{'), ([' '], .word "x".toList), ([' '], .mark ';'), ([' '], .mark '}'),
    ([' '], .word "int".toList), ([], .mark '['), ([' '], .literal "0".toList), ([], .mark ','),
    ([], .literal "5".toList), ([' '], .mark ']'), ([], .word "struct".toList), ([], .mark ':'),
    ([], .literal "a b".toList), (['/', '/', '\n'], .mark ';'),
    ([], .word "struct".toList), ([' '], .word "enum".toList), ([], .mark ';'), ([], .mark '}')]

open Grammar in
theorem writes_keywordNames : Writes
    [⟨"enum", [⟨"struct", .int .int32 (some ⟨0, 5⟩), some "a b"⟩, ⟨"enum", .named "struct", none⟩],
      Table.ofList [("struct", ⟨"struct", [⟨"x", 0⟩]⟩)]⟩]
    [⟨"struct", [⟨"enum", 0⟩, ⟨"A", -7⟩]⟩] keywordNames.toList where
  structNames := by decide
  enumNames := by decide
  tokens := by
    have hdigit (c : Char) (hc : c.isDigit) : Numeral (Text.digitValue c) [c] := .digit hc
    have hseven : Integer (-7 : Int64).toInt "-007".toList :=
      .minus (((hdigit '0' (by decide)).more (c := '0') (by decide)).more (c := '7') (by decide))
    have hzero : Integer (0 : Int64).toInt "0".toList := .plain (hdigit '0' (by decide))
    have hfive : Integer (5 : Int64).toInt "5".toList := .plain (hdigit '5' (by decide))
    have hglobal : Enum ⟨"struct", [⟨"enum", 0⟩, ⟨"A", -7⟩]⟩ _ :=
      .mk (by decide) (.counted (by decide) (by decide) (.written (by decide) hseven .nil))
    have hlocal : Enum ⟨"struct", [⟨"x", 0⟩]⟩ _ :=
      .mk (by decide) (.counted (by decide) (by decide) .nil)
    have hsolid : Solid "a b".toList :=
      ⟨by decide, ⟨by rintro _ ⟨⟩; decide, by rintro _ ⟨⟩; decide⟩, by decide⟩
    have hint : ("int", IntKind.int32) ∈ integers := by decide
    have hbounded : Decl ⟨"struct", .int .int32 (some ⟨0, 5⟩), some "a b"⟩ _ :=
      .mk (.bounded hint hzero hfive) (by decide) (.some hsolid)
    have hnamed : Decl ⟨"enum", .named "struct", none⟩ _ :=
      .mk (.named (by decide) (by decide)) (by decide) .none
    have hstruct : Struct ⟨"enum", _, _⟩ _ :=
      .mk (by decide) (.enum hlocal (.field hbounded (.field hnamed .nil))) (by decide) (by decide)
    have hdefs : Definitions _ _ (keywordNamesPieces.map Prod.snd) :=
      .enum hglobal (.struct hstruct .nil)
    have hgaps : ∀ gap ∈ [[], [' '], ['/', '/', '}', '\n'], ['/', '/', '{', '\n', ' '],
        ['/', '/', '\n']], Gap gap := by
      simp only [List.forall_mem_cons]
      refine ⟨.nothing, .blank (by decide) .nothing, ?_, ?_, ?_, List.forall_mem_nil _⟩
      · exact .comment (by decide : '\n' ∉ ['}']) .nothing
      · exact .comment (by decide : '\n' ∉ ['{']) (.blank (by decide) .nothing)
      · exact .comment List.not_mem_nil .nothing
    have hlast : LastGap "// struct".toList :=
      .comment .nothing (by decide : '\n' ∉ " struct".toList)
    have htext : keywordNames.toList = layOut keywordNamesPieces "// struct".toList := by
      decide +kernel
    refine ⟨_, hdefs, ?_⟩
    rw [htext]
    refine spaced_layOut (fun piece hpiece => hgaps _ ?_) hlast (by decide)
    revert piece
    decide

theorem parse_keywordNames : parse keywordNames = .ok (Schema.documentOf
    [⟨"enum", [⟨"struct", .int .int32 (some ⟨0, 5⟩), some "a b"⟩, ⟨"enum", .named "struct", none⟩],
      Table.ofList [("struct", ⟨"struct", [⟨"x", 0⟩]⟩)]⟩]
    [⟨"struct", [⟨"enum", 0⟩, ⟨"A", -7⟩]⟩]) :=
  parse_written writes_keywordNames

end WireSchema.Document
