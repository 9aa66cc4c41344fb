import WireSchema.Proofs.Number.Power
import WireSchema.Proofs.Schema.Layout

/-! The parts of a body as the grammar writes them are read as what they stand for: an entry as
a member with its code, a declaration as a field with its type and default. -/

namespace WireSchema.Grammar

open Schema
open Text (Blanks)

/-! ### Integers -/

theorem Numeral.digits {n : Nat} {text : List Char} (h : Numeral n text) :
    text ≠ [] ∧ ∀ c ∈ text, c.isDigit := by
  induction h with
  | digit hc => exact ⟨List.cons_ne_nil _ _, by simpa using hc⟩
  | more _ hc ih => exact ⟨by simp, List.forall_mem_append.2 ⟨ih.2, by simpa using hc⟩⟩

/-- A numeral starts with no sign. -/
theorem Numeral.not_sign {n : Nat} {text rest : List Char} {c : Char} (h : Numeral n text)
    (hc : ¬c.isDigit) : text ≠ c :: rest := by
  rintro rfl
  exact hc (h.digits.2 c List.mem_cons_self)

theorem Numeral.nat? {n : Nat} {text : List Char} (h : Numeral n text) :
    Text.nat? text = some n := by
  obtain ⟨hne, hdigits⟩ := h.digits
  rw [Text.nat?, if_pos ⟨hne, List.all_eq_true.2 hdigits⟩, Option.some.injEq]
  induction h with
  | digit => simp
  | @more n digits c front hc ih =>
    obtain ⟨hne, hdigits⟩ := front.digits
    rw [List.foldl_append, ih hne hdigits, List.foldl_cons, List.foldl_nil, Nat.mul_comm]

variable {text : List Char}

theorem Integer.chars {n : Int} (h : Integer n text) :
    text ≠ [] ∧ ∀ c ∈ text, c = '-' ∨ c.isDigit := by
  cases h with
  | plain h => exact ⟨h.digits.1, fun c hc => .inr (h.digits.2 c hc)⟩
  | minus h =>
    exact ⟨List.cons_ne_nil _ _,
      List.forall_mem_cons.2 ⟨.inl rfl, fun c hc => .inr (h.digits.2 c hc)⟩⟩

/-- An integer that has 64 bits stays when it is cut to them. -/
theorem ofInt_fits {value : Option Int} {code : Int64} (h : value = some code.toInt) :
    (value.bind fun n =>
      if -(pow2 63 : Int) ≤ n ∧ n < pow2 63 then some (Int64.ofInt n) else none) = some code := by
  have hlow := code.le_toInt
  have hhigh := code.toInt_lt
  have hfits : -(pow2 63 : Int) ≤ code.toInt ∧ code.toInt < pow2 63 := by
    rw [pow2_eq]
    omega
  rw [h, Option.bind_some, if_pos hfits, Int64.ofInt_toInt]

theorem Integer.int64? {code : Int64} (h : Integer code.toInt text) :
    Text.int64? text = some code := by
  generalize hn : code.toInt = n at h
  unfold Text.int64?
  refine ofInt_fits ?_
  rw [hn]
  cases h with
  | plain h =>
    split
    · exact absurd rfl (h.not_sign (by decide))
    · exact absurd rfl (h.not_sign (by decide))
    · simp [h.nat?]
  | minus h => simp [h.nat?]

theorem Integer.isLiteral {n : Int} (h : Integer n text) : isLiteral text := by
  have hall {n : Nat} {digits : List Char} (h : Numeral n digits) :
      (!digits.isEmpty && digits.all Text.isAnyDigit) = true := by
    obtain ⟨hne, hdigits⟩ := h.digits
    simp only [Bool.and_eq_true, Bool.not_eq_true', List.isEmpty_eq_false_iff, List.all_eq_true]
    exact ⟨hne, fun c hc => Text.isAnyDigit_of_isDigit (hdigits c hc)⟩
  cases h with
  | plain h =>
    rw [Schema.isLiteral]
    · exact hall h
    · exact fun _ => h.not_sign (by decide)
  | minus h => exact hall h

/-- Digits are the numeral of their number. -/
theorem Numeral.of_digits (hne : text ≠ []) (hdigits : ∀ c ∈ text, c.isDigit) :
    Numeral (Nat.ofDigitChars 10 text 0) text := by
  induction text using List.reverseRecOn with
  | nil => exact absurd rfl hne
  | append_singleton front c ih =>
    rw [List.forall_mem_append, List.forall_mem_singleton] at hdigits
    rw [Nat.ofDigitChars_append, Nat.ofDigitChars_cons, Nat.ofDigitChars_nil]
    cases front with
    | nil =>
      rw [Nat.ofDigitChars_nil, Nat.mul_zero, Nat.zero_add]
      exact .digit hdigits.2
    | cons d front => exact .more (ih (List.cons_ne_nil d front) hdigits.1) hdigits.2

theorem Numeral.of_nat? {n : Nat} (h : Text.nat? text = some n) : Numeral n text := by
  have hdigits : text ≠ [] ∧ text.all Char.isDigit := by
    rw [Text.nat?, Option.ite_none_right_eq_some] at h
    exact h.1
  have hnumeral := Numeral.of_digits hdigits.1 (List.all_eq_true.1 hdigits.2)
  rw [hnumeral.nat?, Option.some_inj] at h
  exact h ▸ hnumeral

/-- A literal that has 64 bits is an integer without a plus. -/
theorem Integer.of_int64? {code : Int64} (hl : Schema.isLiteral text)
    (h : Text.int64? text = some code) : Integer code.toInt text := by
  unfold Text.int64? at h
  obtain ⟨n, hn, h⟩ := Option.bind_eq_some_iff.1 h
  rw [Option.ite_none_right_eq_some, pow2_eq] at h
  obtain ⟨⟨hlow, hhigh⟩, h⟩ := h
  rw [← Option.some.inj h, Int64.toInt_ofInt_of_le hlow hhigh]
  have hplus : ¬Text.isAnyDigit '+' := by decide
  split at hn <;>
    simp only [Option.map_eq_some_iff, Option.bind_eq_bind, Option.bind_eq_some_iff,
      Option.pure_def, Option.some.injEq] at hn <;>
    obtain ⟨_, ⟨m, hm, rfl⟩, rfl⟩ := hn
  · exact .minus (.of_nat? hm)
  · simp [Schema.isLiteral, hplus] at hl
  · exact .plain (.of_nat? hm)

theorem numeral_natChars (n : Nat) : Numeral n (Text.natChars n) := by
  have h : Numeral (Nat.ofDigitChars 10 (Nat.toDigits 10 n) 0) (Text.natChars n) :=
    .of_digits Nat.toDigits_ne_nil fun c => Nat.isDigit_of_mem_toDigits (by decide) (by decide)
  rwa [Nat.ofDigitChars_ten_toDigits] at h

/-- The text of an integer is that integer. -/
theorem integer_intChars (n : Int) : Integer n (Text.intChars n) := by
  cases n with
  | ofNat n => exact .plain (numeral_natChars n)
  | negSucc n => exact .minus (numeral_natChars (n + 1))

/-! ### Solid tokens -/

/-- Every token is something without blanks around and without marks. -/
def AllSolid (tokens : List Token) : Prop := ∀ token ∈ tokens, Solid token.text

theorem solid_of_forall (hne : text ≠ []) (hblank : ∀ c ∈ text, ¬Text.isBlank c)
    (hmarks : ∀ mark ∈ [';', '{', '}', '/'], mark ∉ text) : Solid text where
  nonempty := hne
  trimmed := ⟨fun c hc => hblank c (List.mem_of_head? hc),
    fun c hc => hblank c (List.mem_of_getLast? hc)⟩
  marks := hmarks

theorem solid_of_isIdentifier (h : Text.isIdentifier text) : Solid text := by
  have hchars := Text.isIdentChar_of_mem h
  have hmarks : ∀ mark ∈ [';', '{', '}', '/'], ¬Text.isIdentChar mark := by decide
  exact solid_of_forall (Text.isIdentifier_ne_nil h)
    (fun c hc => Text.not_isBlank_of_isIdentChar (hchars c hc))
    fun mark hmark hmem => hmarks mark hmark (hchars mark hmem)

theorem Integer.solid {n : Int} (h : Integer n text) : Solid text := by
  obtain ⟨hne, hchars⟩ := h.chars
  have hmarks : ∀ mark ∈ [';', '{', '}', '/'], ¬(mark = '-' ∨ mark.isDigit) := by decide
  refine solid_of_forall hne (fun c hc => ?_)
    fun mark hmark hmem => hmarks mark hmark (hchars mark hmem)
  obtain rfl | hdigit := hchars c hc
  · decide
  · exact Text.not_isBlank_of_isAnyDigit (Text.isAnyDigit_of_isDigit hdigit)

theorem solid_mark {c : Char} (hblank : ¬Text.isBlank c) (hmark : c ∉ [';', '{', '}', '/']) :
    Solid [c] := by
  refine solid_of_forall (List.cons_ne_nil _ _) (by simpa using hblank) fun mark hm hmem => ?_
  exact hmark (List.mem_singleton.1 hmem ▸ hm)

theorem isIdentifier_scalar : ∀ row ∈ scalars, Text.isIdentifier row.1.toList := by decide

theorem isIdentifier_integer : ∀ row ∈ integers, Text.isIdentifier row.1.toList := by decide

theorem TypeToken.solid {type : FieldType} {tokens : List Token} (h : TypeToken type tokens) :
    AllSolid tokens := by
  have hkeyword {keyword : String} {more : List Token} (hk : Text.isIdentifier keyword.toList)
      (hmore : AllSolid more) : AllSolid (.word keyword.toList :: more) :=
    List.forall_mem_cons.2 ⟨solid_of_isIdentifier hk, hmore⟩
  cases h with
  | scalar h => exact hkeyword (isIdentifier_scalar _ h) (List.forall_mem_nil _)
  | int h => exact hkeyword (isIdentifier_integer _ h) (List.forall_mem_nil _)
  | bounded h min max =>
    refine hkeyword (isIdentifier_integer _ h) ?_
    simp only [AllSolid, List.forall_mem_cons, Token.text]
    exact ⟨solid_mark (by decide) (by decide), min.solid, solid_mark (by decide) (by decide),
      max.solid, solid_mark (by decide) (by decide), List.forall_mem_nil _⟩
  | named ident _ => exact hkeyword ident (List.forall_mem_nil _)

theorem Default.solid {default : Option String} {tokens : List Token} (h : Default default tokens) :
    AllSolid tokens := by
  cases h with
  | none => exact List.forall_mem_nil _
  | some h =>
    simp only [AllSolid, List.forall_mem_cons, Token.text]
    exact ⟨solid_mark (by decide) (by decide), h, List.forall_mem_nil _⟩

section Parts
variable {Between Last : List Char → Prop} {w : Bool} {token : Token} {tokens later : List Token}

/-- A row of solid tokens ends with no blank. -/
theorem Spaced.getLast_of_solid (h : Spaced Between (· = []) w tokens text)
    (hs : AllSolid tokens) : ∀ c ∈ text.getLast?, ¬Text.isBlank c := by
  induction h with
  | nil last =>
    rw [last]
    exact fun c hc => nomatch hc
  | @cons _ gap rest token tokens _ _ _ ih =>
    obtain ⟨hfirst, hs⟩ := List.forall_mem_cons.1 hs
    intro c hc
    rw [List.getLast?_append_of_ne_nil _ (by simp [hfirst.nonempty])] at hc
    cases rest with
    | nil => exact hfirst.trimmed.last c (by rwa [List.append_nil] at hc)
    | cons d rest =>
      rw [List.getLast?_append_of_ne_nil _ (List.cons_ne_nil d rest)] at hc
      exact ih hs c hc

/-- No mark is in a row of solid tokens. -/
theorem Spaced.notMem_of_solid (h : Spaced Blanks (· = []) w tokens text) (hs : AllSolid tokens)
    {c : Char} (hc : c ∈ [';', '{', '}', '/']) : c ∉ text := by
  have hblank : ∀ c ∈ [';', '{', '}', '/'], ¬Text.isBlank c := by decide
  refine h.notMem (fun gap hgap => hgap.notMem (hblank c hc)) (fun gap hgap => ?_)
    fun token ht => (hs token ht).marks c hc
  rw [hgap]
  exact List.not_mem_nil

/-- Solid tokens up to a semicolon are one segment of the text. -/
theorem AllSolid.segment (hs : AllSolid (token :: tokens))
    (h : Laid w ((token :: tokens) ++ .mark ';' :: later) text) :
    ∃ inner rest, Spaced Blanks (· = []) token.isWord tokens inner ∧ Laid false later rest ∧
      segments text = (token.text ++ inner) :: segments rest := by
  obtain ⟨front, after, rest, rfl, hfront, hafter, hrest⟩ := h.unpart
  have hsemi := hfront.notMem_of_solid hs (c := ';') (by decide)
  have hlast := hfront.getLast_of_solid hs
  obtain ⟨gap, inner, rfl, hgap, -, hinner⟩ := hfront.uncons
  obtain ⟨hsolid, -⟩ := List.forall_mem_cons.1 hs
  have hne : token.text ++ inner ≠ [] := by simp [hsolid.nonempty]
  refine ⟨inner, rest, hinner, hrest, ?_⟩
  rw [List.append_assoc]
  refine segments_padded hgap hafter hne ⟨fun c hc => ?_, fun c hc => ?_⟩ ?_ rest
  · rw [List.head?_append_of_ne_nil _ hsolid.nonempty] at hc
    exact hsolid.trimmed.first c hc
  · exact hlast c (by rwa [List.getLast?_append_of_ne_nil _ hne])
  · exact fun hmem => hsemi (List.mem_append_right gap hmem)

end Parts

/-! ### Entries -/

section Entries
variable {w : Bool} {later tokens : List Token}

theorem successor?_eq_some {code after : Int64} (h : after.toInt = code.toInt + 1) :
    successor? code = some after := by
  have hhigh := after.toInt_lt
  have hlow := code.le_toInt
  have hmax : code ≠ Int64.maxValue := by
    rintro rfl
    rw [Int64.toInt_maxValue] at h
    omega
  rw [successor?, if_neg hmax, Option.some.injEq, ← Int64.toInt_inj, h, Int64.toInt_add]
  refine Int.bmod_eq_of_le ?_ ?_
  · change _ ≤ code.toInt + 1
    omega
  · change code.toInt + 1 < _
    omega

/-- Entries are read as members, where the next code is known if there is one. -/
theorem Entries.read {next : Int} {next? : Option Int64} {ms : List Member}
    (h : Entries next ms tokens) (hl : Laid w tokens text)
    (hnext : ∀ code : Int64, code.toInt = next → next? = some code) :
    Schema.Entries next? (segments text) ms := by
  induction h generalizing w text next? with
  | nil =>
    cases hl with
    | nil last =>
      rw [segments_of_blanks last]
      exact .nil
  | @written next name code literal ms tokens ident integer _ ih =>
    have hsolid : AllSolid [.word name.toList, .mark '=', .literal literal] := by
      simp only [AllSolid, List.forall_mem_cons, Token.text]
      exact ⟨solid_of_isIdentifier ident, solid_mark (by decide) (by decide), integer.solid,
        List.forall_mem_nil _⟩
    obtain ⟨inner, rest, hinner, hrest, hsegments⟩ := hsolid.segment hl
    obtain ⟨first, _, rfl, hfirst, -, hinner⟩ := hinner.uncons
    obtain ⟨second, _, rfl, hsecond, -, hinner⟩ := hinner.uncons
    cases hinner with
    | nil last =>
      have hentry := Entry.coded ident hfirst hsecond integer.isLiteral
      have hread : Schema.Entries next? _ _ := .cons hentry integer.int64?
        (ih hrest fun _ => successor?_eq_some)
      rw [hsegments, last]
      simpa [Token.text] using hread
  | @counted next name code ms tokens ident hcode _ ih =>
    have hsolid : AllSolid [.word name.toList] := by
      simp only [AllSolid, List.forall_mem_cons, Token.text]
      exact ⟨solid_of_isIdentifier ident, List.forall_mem_nil _⟩
    obtain ⟨inner, rest, hinner, hrest, hsegments⟩ := hsolid.segment hl
    cases hinner with
    | nil last =>
      have hentry := Entry.bare ident Blanks.nil
      have hread : Schema.Entries next? _ _ := .cons hentry (hnext code hcode)
        (ih hrest fun _ => successor?_eq_some)
      rw [hsegments, last]
      simpa [Token.text] using hread

end Entries

/-! ### Declarations -/

section Declarations
variable {later tokens : List Token}

theorem ofKeyword?_scalar : ∀ row ∈ scalars,
    IntKind.ofKeyword? row.1 = none ∧ plainType row.1 = row.2 := by
  decide

theorem ofKeyword?_integer : ∀ row ∈ integers, IntKind.ofKeyword? row.1 = some row.2 := by
  decide

/-- A name that is no keyword is a type of its own. -/
theorem plainType_of_notMem {name : String}
    (h : name ∉ scalars.map Prod.fst ++ integers.map Prod.fst) :
    IntKind.ofKeyword? name = none ∧ plainType name = .named name := by
  simp only [scalars, integers, List.map_cons, List.map_nil, List.cons_append, List.nil_append,
    List.mem_cons, List.not_mem_nil, or_false, not_or] at h
  constructor
  · unfold IntKind.ofKeyword?
    split <;> simp_all
  · unfold plainType
    split <;> simp_all

theorem Integer.notMem {n : Int} {c : Char} (h : Integer n text) (hc : ¬(c = '-' ∨ c.isDigit)) :
    c ∉ text := fun hmem => hc (h.chars.2 c hmem)

/-- Around an integer stands what is neither a blank nor of an integer. -/
theorem Integer.notMem_padded {n : Int} {before after : List Char} {c : Char} (h : Integer n text)
    (hb : Blanks before) (ha : Blanks after) (hblank : ¬Text.isBlank c)
    (hchar : ¬(c = '-' ∨ c.isDigit)) : c ∉ before ++ (text ++ after) := by
  simp only [List.mem_append, not_or]
  exact ⟨hb.notMem hblank, h.notMem hchar, ha.notMem hblank⟩

/-- A type in front of a name is read as its keyword, and its bounds as what separates both. -/
theorem TypeToken.read {type : FieldType} (h : TypeToken type tokens) (Last : List Char → Prop) :
    ∃ keyword more, tokens = .word keyword :: more ∧ Text.isIdentifier keyword ∧
      ∀ {name later inner}, Spaced Blanks Last true (more ++ .word name :: later) inner →
        ∃ brackets separator rest, inner = separator ++ (name ++ rest) ∧
          Separator brackets separator ∧ TypeOf keyword brackets type ∧
            Spaced Blanks Last true later rest := by
  -- with no bounds the name comes next, behind blanks
  have halone {keyword : List Char} (htype : TypeOf keyword none type) {name later inner}
      (hl : Spaced Blanks Last true (.word name :: later) inner) :
      ∃ brackets separator rest, inner = separator ++ (name ++ rest) ∧
        Separator brackets separator ∧ TypeOf keyword brackets type ∧
          Spaced Blanks Last true later rest := by
    obtain ⟨space, rest, rfl, hspace, hapart, hrest⟩ := hl.uncons
    exact ⟨none, space, rest, rfl, .blanks (hapart rfl rfl) hspace, htype, hrest⟩
  cases h with
  | @scalar keyword _ h =>
    obtain ⟨hkind, hplain⟩ := ofKeyword?_scalar _ h
    refine ⟨_, [], rfl, isIdentifier_scalar _ h, halone ?_⟩
    have htype : TypeOf keyword.toList none _ := .plain (by rwa [String.ofList_toList])
    rwa [String.ofList_toList, hplain] at htype
  | int h =>
    refine ⟨_, [], rfl, isIdentifier_integer _ h, halone (.int ?_)⟩
    rw [String.ofList_toList]
    exact ofKeyword?_integer _ h
  | @named name ident other =>
    obtain ⟨hkind, hplain⟩ := plainType_of_notMem other
    refine ⟨_, [], rfl, ident, halone ?_⟩
    have htype : TypeOf name.toList none _ := .plain (by rwa [String.ofList_toList])
    rwa [String.ofList_toList, hplain] at htype
  | @bounded keyword kind b low high h min max =>
    refine ⟨_, _, rfl, isIdentifier_integer _ h, fun {name later inner} hl => ?_⟩
    obtain ⟨before, _, rfl, hbefore, -, hl⟩ := hl.uncons
    obtain ⟨g₁, _, rfl, hg₁, -, hl⟩ := hl.uncons
    obtain ⟨g₂, _, rfl, hg₂, -, hl⟩ := hl.uncons
    obtain ⟨g₃, _, rfl, hg₃, -, hl⟩ := hl.uncons
    obtain ⟨g₄, _, rfl, hg₄, -, hl⟩ := hl.uncons
    obtain ⟨after, rest, rfl, hafter, -, hrest⟩ := hl.uncons
    have hbounds : Bounds.Written b (g₁ ++ (low ++ g₂) ++ ',' :: (g₃ ++ (high ++ g₄))) := by
      refine ⟨_, _, rfl, min.notMem_padded hg₁ hg₂ (by decide) (by decide),
        max.notMem_padded hg₃ hg₄ (by decide) (by decide), ?_, ?_⟩
      · rw [Text.trim_padded hg₁ hg₂ min.solid.trimmed, min.int64?]
      · rw [Text.trim_padded hg₃ hg₄ max.solid.trimmed, max.int64?]
    have hclose : ']' ∉ g₁ ++ (low ++ g₂) ++ ',' :: (g₃ ++ (high ++ g₄)) := by
      rw [List.mem_append, List.mem_cons, not_or, not_or]
      exact ⟨min.notMem_padded hg₁ hg₂ (by decide) (by decide), by decide,
        max.notMem_padded hg₃ hg₄ (by decide) (by decide)⟩
    refine ⟨_, _, rest, ?_, .brackets hbefore hclose hafter,
      .bounded ?_ (bounds?_eq_some.2 hbounds), hrest⟩
    · simp [Token.text]
    · rw [String.ofList_toList]
      exact ofKeyword?_integer _ h

/-- What follows a name up to the semicolon is read as the default. -/
theorem Default.read {default : Option String} {w : Bool} (h : Default default tokens)
    (hl : Spaced Blanks (· = []) w tokens text) :
    Ending (default.map String.toList) text ∧ default.map String.toList ≠ Option.some [] := by
  cases h with
  | none =>
    cases hl with
    | nil last =>
      rw [last]
      exact ⟨.nothing Blanks.nil, by simp⟩
  | @some raw h =>
    obtain ⟨space, _, rfl, hspace, -, hl⟩ := hl.uncons
    obtain ⟨second, _, rfl, hsecond, -, hl⟩ := hl.uncons
    cases hl with
    | nil last =>
      have hending := Ending.literal hspace (second ++ (raw.toList ++ []))
      rw [Text.trim_padded hsecond Blanks.nil h.trimmed] at hending
      refine ⟨?_, by simpa using h.nonempty⟩
      rw [last]
      exact hending

/-- A declaration is solid up to its semicolon. -/
theorem AllSolid.declared {name : String} (ht : AllSolid tokens)
    (ident : Text.isIdentifier name.toList) (hd : AllSolid later) :
    AllSolid (tokens ++ .word name.toList :: later) := by
  rw [AllSolid, List.forall_mem_append, List.forall_mem_cons]
  exact ⟨ht, solid_of_isIdentifier ident, hd⟩

theorem Decl.solid {f : Field} (h : Decl f tokens) :
    ∃ inner, tokens = inner ++ [.mark ';'] ∧ AllSolid inner := by
  obtain @⟨name, type, default, typeTokens, defaultTokens, htype, ident, hdefault⟩ := h
  exact ⟨_, by simp, htype.solid.declared ident hdefault.solid⟩

/-- A declaration is one segment, which is read as its field. -/
theorem Decl.read {f : Field} (h : Decl f tokens) (hl : Laid false (tokens ++ later) text) :
    ∃ part rest, segments text = part :: segments rest ∧ Laid false later rest ∧
      ∀ {parts fs}, Fields parts fs → Fields (part :: parts) (f :: fs) := by
  obtain @⟨name, type, default, typeTokens, defaultTokens, htype, ident, hdefault⟩ := h
  have hsolid := htype.solid
  obtain ⟨keyword, more, rfl, hkeyword, hread⟩ := htype.read (· = [])
  have hall : AllSolid (.word keyword :: (more ++ .word name.toList :: defaultTokens)) :=
    hsolid.declared ident hdefault.solid
  have htokens : (Token.word keyword :: more) ++
        .word name.toList :: (defaultTokens ++ [.mark ';']) ++ later =
      (.word keyword :: (more ++ .word name.toList :: defaultTokens)) ++ .mark ';' :: later := by
    simp
  rw [htokens] at hl
  obtain ⟨inner, rest, hinner, hrest, hsegments⟩ := hall.segment hl
  obtain ⟨brackets, separator, ending, rfl, hseparator, htypeOf, hending⟩ := hread hinner
  obtain ⟨hending, hgiven⟩ := hdefault.read hending
  refine ⟨_, rest, hsegments, hrest, fun hfs => ?_⟩
  have hwritten : Declaration.Written ⟨keyword, brackets, name.toList, default.map String.toList⟩
      (keyword ++ (separator ++ (name.toList ++ ending))) :=
    ⟨hkeyword, ident, _, _, hseparator, hending, rfl⟩
  have hfield := Fields.field hwritten htypeOf hgiven hfs
  simpa [Function.comp_def, Token.text] using hfield

end Declarations

end WireSchema.Grammar
