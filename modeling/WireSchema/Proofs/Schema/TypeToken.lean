import WireSchema.Proofs.Schema.Parts
import WireSchema.Proofs.Typing.Resolve

/-! Types that stand alone. A type is read from a keyword and perhaps brackets, with or without
blanks around both. Its own text is read as that type again, and so what a field is declared as
stands for the same thing whether it is given as a type or as the text of one. -/

namespace WireSchema

open Outcome
open Text (Blanks)

namespace Schema

variable {text : List Char} {keyword : List Char} {brackets : Option (List Char)}
  {type : FieldType}

/-! ### Tokens -/

/-- What stands behind a keyword: blanks, or brackets with or without blanks around. -/
inductive Tail : Option (List Char) → List Char → Prop
  | blanks {space : List Char} (hspace : Blanks space) : Tail none space
  | brackets {before inside after : List Char} (hbefore : Blanks before) (hinside : ']' ∉ inside)
      (hafter : Blanks after) :
      Tail (some ('[' :: (inside ++ [']']))) (before ++ '[' :: (inside ++ ']' :: after))

theorem Tail.ends {tail : List Char} (h : Tail brackets tail) :
    ∀ c ∈ tail.head?, ¬Text.isIdentChar c := by
  cases h with
  | blanks hspace => exact hspace.ends
  | brackets hbefore _ _ => exact hbefore.append_ends (by simp; decide)

/-- A type as a text of its own: a keyword and perhaps brackets. -/
structure TokenWritten (keyword : List Char) (brackets : Option (List Char)) (text : List Char) :
    Prop where
  ident : Text.isIdentifier keyword
  text : ∃ before tail, Blanks before ∧ Tail brackets tail ∧ text = before ++ (keyword ++ tail)

theorem typeToken?_eq_some :
    typeToken? text = some (keyword, brackets) ↔ TokenWritten keyword brackets text := by
  constructor
  · intro h
    obtain ⟨before, hbefore, htext⟩ := Text.blanks_skipped text
    simp only [typeToken?, Option.bind_eq_bind, Option.bind_eq_some_iff] at h
    obtain ⟨⟨word, rest⟩, hword, h⟩ := h
    obtain ⟨hident, -, hskip⟩ := Text.identifier?_eq_some.1 hword
    rw [hskip] at htext
    split at h
    · next hnil =>
      obtain ⟨rfl, rfl⟩ := Prod.mk.inj (Option.some.inj h)
      exact ⟨hident, before, rest, hbefore, .blanks (Text.skipBlanks_eq_nil.1 hnil), htext⟩
    · obtain ⟨⟨found, behind⟩, hfound, h⟩ := Option.bind_eq_some_iff.1 h
      obtain ⟨inside, hinside, rfl, hopen⟩ := brackets?_eq_some.1 hfound
      obtain ⟨space, hspace, hrest⟩ := Text.blanks_skipped rest
      rw [hopen] at hrest
      split at h
      · next hnil =>
        obtain ⟨rfl, rfl⟩ := Prod.mk.inj (Option.some.inj h)
        rw [hrest] at htext
        exact ⟨hident, before, _, hbefore,
          .brackets hspace hinside (Text.skipBlanks_eq_nil.1 hnil), htext⟩
      · cases h
  · rintro ⟨hident, before, tail, hbefore, htail, rfl⟩
    simp only [typeToken?, Text.skipBlanks_append hbefore, Text.skipBlanks_identifier hident,
      Text.identifier?_of_isIdentifier hident htail.ends, Option.bind_eq_bind, Option.bind_some]
    cases htail with
    | blanks hspace => rw [hspace.skip]
    | @brackets space inside after hspace hinside hafter =>
      have hread : brackets? ('[' :: (inside ++ ']' :: after)) =
          some ('[' :: (inside ++ [']']), after) :=
        brackets?_eq_some.2 ⟨inside, hinside, rfl, rfl⟩
      rw [Text.skipBlanks_append hspace, Text.skipBlanks_cons (c := '[') (by decide)]
      simp only [hread, Option.bind_some, hafter.skip]

/-- A type is read from its keyword and brackets, the text being the owner. -/
theorem ofToken_of_written {token : String} (h : TokenWritten keyword brackets token.toList) :
    FieldType.ofToken token = fieldType (String.ofList keyword) brackets token := by
  rw [FieldType.ofToken, typeToken?_eq_some.2 h]

theorem ofToken_eq_ok {token : String} :
    FieldType.ofToken token = .ok type ↔
      ∃ keyword brackets, TokenWritten keyword brackets token.toList ∧
        TypeOf keyword brackets type := by
  constructor
  · intro h
    rw [FieldType.ofToken] at h
    split at h
    · next keyword brackets htoken =>
      exact ⟨keyword, brackets, typeToken?_eq_some.1 htoken, fieldType_eq_ok.1 h⟩
    · cases h
  · rintro ⟨keyword, brackets, hwritten, htype⟩
    rw [ofToken_of_written hwritten]
    exact fieldType_eq_ok.2 htype

/-- Bounds at fault are those of a type that is written, whoever owns it. -/
theorem ofToken_eq_error {token owner : String} {cause : BoundsCause}
    (h : FieldType.ofToken token = .error (.badBounds owner cause)) :
    ∃ keyword brackets, TokenWritten keyword brackets token.toList ∧
      ∀ other, fieldType (String.ofList keyword) brackets other =
        .error (.badBounds other cause) := by
  rw [FieldType.ofToken] at h
  split at h
  · next keyword brackets htoken =>
    obtain ⟨cause', hfault, hother⟩ := fieldType_eq_error h
    obtain ⟨-, rfl⟩ := Fault.badBounds.inj hfault
    exact ⟨keyword, brackets, typeToken?_eq_some.1 htoken, hother⟩
  · cases h

/-- A keyword may stand at the front. -/
theorem ofToken_of_tail {token : String} {tail : List Char} (hident : Text.isIdentifier keyword)
    (htail : Tail brackets tail) (htoken : token.toList = keyword ++ tail)
    (htype : TypeOf keyword brackets type) : FieldType.ofToken token = .ok type :=
  ofToken_eq_ok.2
    ⟨keyword, brackets, ⟨hident, [], tail, Blanks.nil, htail, htoken⟩, htype⟩

/-! ### The text of a type -/

theorem kind_keyword (kind : IntKind) :
    Text.isIdentifier kind.keyword.toList ∧ IntKind.ofKeyword? kind.keyword = some kind := by
  cases kind <;> decide

theorem ofToken_scalar : ∀ row ∈ Grammar.scalars, FieldType.ofToken row.2.text = .ok row.2 := by
  decide

/-- The text of bounds is these bounds in brackets. -/
theorem toList_boundsText (b : Bounds) :
    ∃ inside, b.text.toList = '[' :: (inside ++ [']']) ∧ ']' ∉ inside ∧
      Bounds.Written b inside := by
  have hmin := Grammar.integer_intChars b.min.toInt
  have hmax := Grammar.integer_intChars b.max.toInt
  have htrim {n : Int} {digits : List Char} (h : Grammar.Integer n digits) :
      Text.trim digits = digits := by
    simpa using Text.trim_padded Blanks.nil Blanks.nil h.solid.trimmed
  refine ⟨Text.intChars b.min.toInt ++ ',' :: Text.intChars b.max.toInt, ?_, ?_, _, _, rfl,
    hmin.notMem (by decide), hmax.notMem (by decide), ?_, ?_⟩
  · simp [Bounds.text]
  · rw [List.mem_append, List.mem_cons, not_or, not_or]
    exact ⟨hmin.notMem (by decide), by decide, hmax.notMem (by decide)⟩
  · rw [htrim hmin, hmin.int64?]
  · rw [htrim hmax, hmax.int64?]

/-- The text of a type that a keyword stands for is read as that type. -/
theorem TypeOf.ofToken_text (hident : Text.isIdentifier keyword)
    (h : TypeOf keyword brackets type) : FieldType.ofToken type.text = .ok type := by
  cases h with
  | @int kind _ =>
    obtain ⟨hkeyword, hkind⟩ := kind_keyword kind
    refine ofToken_of_tail hkeyword (.blanks Blanks.nil) (by simp [FieldType.text]) (.int ?_)
    rwa [String.ofList_toList]
  | @bounded kind brackets b _ _ =>
    obtain ⟨hkeyword, hkind⟩ := kind_keyword kind
    obtain ⟨inside, htext, hinside, hwritten⟩ := toList_boundsText b
    refine ofToken_of_tail hkeyword (.brackets Blanks.nil hinside Blanks.nil) ?_
      (.bounded ?_ (bounds?_eq_some.2 hwritten))
    · simp [FieldType.text, htext]
    · rwa [String.ofList_toList]
  | plain hkind =>
    by_cases hscalar : String.ofList keyword ∈ Grammar.scalars.map Prod.fst
    · obtain ⟨row, hrow, hname⟩ := List.mem_map.1 hscalar
      rw [← hname, (Grammar.ofKeyword?_scalar row hrow).2]
      exact ofToken_scalar row hrow
    · have hother : String.ofList keyword ∉
          Grammar.scalars.map Prod.fst ++ Grammar.integers.map Prod.fst := by
        rw [List.mem_append, not_or]
        refine ⟨hscalar, fun hmem => ?_⟩
        obtain ⟨row, hrow, hname⟩ := List.mem_map.1 hmem
        rw [← hname, Grammar.ofKeyword?_integer row hrow] at hkind
        cases hkind
      have hplain := (Grammar.plainType_of_notMem hother).2
      exact ofToken_of_tail hident (.blanks Blanks.nil) (by simp [hplain, FieldType.text])
        (.plain hkind)

/-! ### Fields -/

/-- A struct of a text that is read comes from a block. -/
theorem exists_block {d : Document} {name : String} {s : StructDef} (h : document text = .ok d)
    (hs : d.struct? name = some s) : ∃ b : Block, b.IsStruct s := by
  obtain ⟨ss, es, hdefines, rfl⟩ := document_eq_ok.1 h
  obtain ⟨t, ht, hrow⟩ := List.mem_map.1 (Table.mem_of_find?_ofList hs)
  obtain rfl : t = s := (Prod.mk.inj hrow).2
  obtain ⟨i, hi, rfl⟩ := List.mem_iff_getElem.1 ht
  exact ⟨_, List.Forall₂.get hdefines.structs (hdefines.structs.length_eq.symm ▸ hi) hi⟩

theorem Fields.ofToken_text {parts : List (List Char)} {fs : List Field} (h : Fields parts fs) :
    ∀ f ∈ fs, FieldType.ofToken f.type.text = .ok f.type := by
  induction h with
  | nil => exact List.forall_mem_nil _
  | skip _ _ _ ih => exact ih
  | field hwritten htype _ _ ih =>
    exact List.forall_mem_cons.2 ⟨htype.ofToken_text hwritten.type, ih⟩

end Schema

namespace Document

open Schema

/-- A type with bounds that fit stands for the same thing as its text. -/
theorem resolveToken_text (d : Document) (scope : Option StructDef) {type : FieldType}
    (htext : FieldType.ofToken type.text = .ok type)
    (hfit : ∀ kind b, type = .int kind (some b) → b.Fit kind) :
    d.resolveToken scope type.text = d.resolve scope type := by
  have hcheck : checkToken type.text type = .ok () := by
    unfold checkToken
    split
    · exact checkBounds_eq_ok.2 (hfit _ _ rfl)
    · rfl
  simp only [resolveToken, htext, Except.mapError, ok_bind, hcheck]

/-- A type that is read from a text, or that a field of a compiled schema has, is read from its own
text. Of a field of a compiled schema the text stands for what the type stands for, and if for
nothing, then because the type is a name that is not known. -/
theorem text_resolves :
    (∀ token type, FieldType.ofToken token = .ok type → FieldType.ofToken type.text = .ok type) ∧
    ∀ text d, compile text = .ok d → ∀ name s, d.struct? name = some s → ∀ f ∈ s.fields,
      FieldType.ofToken f.type.text = .ok f.type ∧
      d.resolveToken (some s) f.type.text = d.resolve (some s) f.type ∧
      ∀ fault, d.resolveToken (some s) f.type.text = .error fault →
        ∃ unknown, f.type = .named unknown ∧ fault = .unknownType unknown (some s.name) := by
  refine ⟨fun token type h => ?_, fun text d h name s hs f hf => ?_⟩
  · obtain ⟨keyword, brackets, hwritten, htype⟩ := ofToken_eq_ok.1 h
    exact htype.ofToken_text hwritten.ident
  · obtain ⟨-, hbounds⟩ := compile_inBounds h
    obtain ⟨parsed, hparse, hcheck⟩ := bind_eq_ok.1 h
    obtain ⟨_, -, hsame⟩ := bind_eq_ok.1 hcheck
    obtain rfl := Except.ok.inj hsame
    obtain ⟨b, hb⟩ := exists_block hparse hs
    have htext := hb.fields.ofToken_text f hf
    have hresolve := parsed.resolveToken_text (some s) htext (hbounds name s hs f hf)
    refine ⟨htext, hresolve, fun fault hfault => ?_⟩
    rw [hresolve] at hfault
    exact eq_named_of_resolve hfault

/-- Bounds are written without the plus, the zero and the blanks that they were read with, and a
name that is not known is named. -/
theorem text_resolves_sample :
    let bounded : FieldType := .int .int32 (some ⟨1, 9⟩)
    let s : StructDef := ⟨"S", [⟨"a", bounded, none⟩, ⟨"b", .named "Gone", none⟩], .empty⟩
    let d := documentOf [s] []
    FieldType.ofToken " int\t[ +1 , 09 ] " = .ok bounded ∧
      compile "struct S \x7b int[+1, 09]a; Gone b; \x7d" = .ok d ∧
      FieldType.ofToken "int32[1,9]" = .ok bounded ∧
      d.resolveToken (some s) "int32[1,9]" = d.resolve (some s) bounded ∧
      d.resolveToken (some s) "Gone" = .error (.unknownType "Gone" (some "S")) := by
  intro bounded s d
  have htoken : FieldType.ofToken " int\t[ +1 , 09 ] " = .ok bounded := by decide +kernel
  have hcompile : compile "struct S \x7b int[+1, 09]a; Gone b; \x7d" = .ok d := by decide +kernel
  have hstruct : d.struct? "S" = some s := by decide +kernel
  have htext : bounded.text = "int32[1,9]" := by decide +kernel
  have hfields := text_resolves.2 _ d hcompile "S" s hstruct
  obtain ⟨-, hresolve, -⟩ := hfields ⟨"a", bounded, none⟩ (by simp [s])
  obtain ⟨-, hgone, -⟩ := hfields ⟨"b", .named "Gone", none⟩ (by simp [s])
  have hread := text_resolves.1 _ bounded htoken
  rw [htext] at hread hresolve
  exact ⟨htoken, hcompile, hread, hresolve, hgone.trans (by decide +kernel)⟩

end Document

end WireSchema
