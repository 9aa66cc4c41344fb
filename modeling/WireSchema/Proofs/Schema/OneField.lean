import WireSchema.Proofs.Schema.Sound
import WireSchema.Proofs.Schema.TypeToken

/-! A schema that is one struct, and one of a single field. Up to its owner a field is what its
declaration is, and the type of a declaration is read as it is read by itself: where the type ends
and what stands in its brackets does not depend on the name that follows. -/

namespace WireSchema

open Outcome
open Text (Blanks)

namespace Schema

/-! ### One struct -/

section OneStruct
variable {b : Block} {piece body : List Char}

/-- Nothing is cut out of a text without closing braces. -/
theorem blocks_enumAt?_of_notMem {text : List Char} (offset : Nat) (h : '}' ∉ text) :
    blocks enumAt? offset text = ([], text) := by
  obtain ⟨hblocks, hleft⟩ := blocks_offset enumAt? offset text
  obtain ⟨hnone, hall⟩ := (enumAt?_cut text).of_notMem h
  rw [hnone, List.map_eq_nil_iff] at hblocks
  exact Prod.ext hblocks (hleft.trans hall)

/-- A text that is one block of fields has them as the fields of its one struct. -/
theorem document_of_written (hu : Uncommented piece) (hw : b.Written "struct" piece)
    (hb : Braceless b.body) :
    document piece = (fields piece b.name [] (declarations b.bodyAt b.body)).map fun fs =>
      documentOf [⟨b.name, fs, .empty⟩] [] := by
  have hfind : structAt? (piece ++ []) = some (b, piece.length) :=
    structAt?_of_written hw hb.balanced []
  have hcut := cutBlocks_found 0 hw.ne_nil hfind (rfl : mayStart none)
  rw [List.append_nil] at hcut
  have hblocks : blocks structAt? 0 (stripComments piece) = ([(0, b)], blank piece) := by
    rw [hu.strip, blocks]
    simpa [cutBlocks] using hcut
  have hblank := blanks_blank piece
  have houtside := blocks_enumAt?_of_notMem 0 (hblank.notMem (by decide))
  have hbody : structOfBlock piece 0 b =
      (fields piece b.name [] (declarations b.bodyAt b.body)).map fun fs =>
        ⟨b.name, fs, .empty⟩ := by
    simp only [structOfBlock, Nat.zero_add, blocks_enumAt?_of_notMem _ hb.2, enumsOfBlocks, ok_bind,
      brace?_eq_none.2 hb]
    cases fields piece b.name [] (declarations b.bodyAt b.body) <;> rfl
  simp only [document, hblocks, structsOfBlocks, hw.closed, hbody, houtside, enumsOfBlocks]
  cases fields piece b.name [] (declarations b.bodyAt b.body) with
  | error fault => rfl
  | ok fs =>
    simp only [map_ok, ok_bind, hblank.skip]
    rfl

/-- What opens a struct of the name `S`. -/
def soleOpening : List Char := "struct".toList ++ ([' '] ++ ("S".toList ++ ([' '] ++ ['{'])))

theorem blanks_space : Blanks [' '] := Blanks.nil.cons rfl

theorem document_sole (hu : Uncommented body) (hb : Braceless body) :
    document (soleOpening ++ (body ++ ['}'])) =
      (fields (soleOpening ++ (body ++ ['}'])) "S" [] (declarations 10 body)).map fun fs =>
        documentOf [⟨"S", fs, .empty⟩] [] := by
  have hopening : Opening "struct".toList "S".toList soleOpening :=
    .mk (by decide) (List.cons_ne_nil _ _) blanks_space blanks_space
  have hsize : 10 = Utf8.size soleOpening := by decide
  have hwritten : Block.Written ⟨"S", 10, body, true⟩ "struct" (soleOpening ++ (body ++ ['}'])) :=
    ⟨rfl, _, hopening, hsize, rfl⟩
  exact document_of_written (uncommented_append (by decide) (hu.append (by decide))) hwritten hb

end OneStruct

/-! ### A type in front of a name -/

section OneField
variable {keyword name front : List Char} {brackets : Option (List Char)}

theorem Separator.ne_nil {separator : List Char} (h : Separator brackets separator) :
    separator ≠ [] := by
  cases h with
  | blanks apart _ => exact apart
  | brackets _ _ _ => simp

/-- With a blank behind it, what may stand behind a type is what may stand before a name. -/
theorem separator_concat : Separator brackets (front ++ [' ']) ↔ Tail brackets front := by
  constructor
  · intro h
    generalize htext : front ++ [' '] = text at h
    cases h with
    | blanks _ hspace => exact .blanks fun c hc => hspace c (htext ▸ List.mem_append_left _ hc)
    | @brackets before inside after hbefore hinside hafter =>
      obtain rfl | ⟨space, c, rfl⟩ := after.eq_nil_or_concat
      · have hcut : front ++ [' '] = (before ++ '[' :: inside) ++ [']'] := by simpa using htext
        exact absurd (List.append_inj' hcut rfl).2 (by decide)
      · have hcut : front ++ [' '] = (before ++ '[' :: (inside ++ ']' :: space)) ++ [c] := by
          rw [htext]
          simp
        obtain ⟨rfl, -⟩ := List.append_inj' hcut rfl
        exact .brackets hbefore hinside fun c hc => hafter c (by simp [hc])
  · intro h
    cases h with
    | blanks hspace => exact .blanks (by simp) (hspace.append blanks_space)
    | brackets hbefore hinside hafter =>
      have h := Separator.brackets hbefore hinside (hafter.append blanks_space)
      simpa using h

/-- A type and a name behind a blank, without blanks around. -/
def joined (type name : List Char) : List Char := Text.skipBlanks (type ++ ' ' :: name)

variable {type : List Char}

theorem joined_padded (type name : List Char) :
    ∃ space, Blanks space ∧ type ++ ' ' :: name = space ++ joined type name :=
  Text.blanks_skipped _

theorem trimmed_joined (type : List Char) (hname : Text.isIdentifier name) :
    joined type name ≠ [] ∧ Text.Trimmed (joined type name) := by
  obtain ⟨space, hspace, htext⟩ := joined_padded type name
  have hlast : ∀ c ∈ (type ++ ' ' :: name).getLast?, ¬Text.isBlank c := by
    intro c hc
    refine (Text.trimmed_of_isIdentifier hname).last c ?_
    rwa [← List.singleton_append, ← List.append_assoc,
      List.getLast?_append_of_ne_nil _ (Text.isIdentifier_ne_nil hname)] at hc
  have hne : joined type name ≠ [] := by
    intro hnil
    rw [hnil, List.append_nil] at htext
    have hmem : name.getLast (Text.isIdentifier_ne_nil hname) ∈ space := by
      rw [← htext]
      simp
    exact (Text.trimmed_of_isIdentifier hname).last _
      (List.getLast?_eq_some_getLast _) (hspace _ hmem)
  refine ⟨hne, fun c => Text.skipBlanks_head, fun c hc => hlast c ?_⟩
  rwa [htext, List.getLast?_append_of_ne_nil _ hne]

/-- A type is written by itself just when it is written in front of a name. -/
theorem joined_iff (hname : Text.isIdentifier name) :
    Declaration.Written ⟨keyword, brackets, name, none⟩ (joined type name) ↔
      TokenWritten keyword brackets type := by
  constructor
  · rintro ⟨hkeyword, -, separator, ending, hseparator, hending, htext⟩
    obtain ⟨space, hspace, hall⟩ := joined_padded type name
    -- no blank stands behind the name, and before it the last blank belongs to what separates
    obtain rfl : ending = [] := by
      cases hending with
      | nothing hblanks =>
        have htrimmed := (trimmed_joined type hname).2
        rw [htext, ← List.append_assoc, ← List.append_assoc] at htrimmed
        exact htrimmed.eq_nil_of_append hblanks
    have hcut : type ++ [' '] = space ++ (keyword ++ separator) := by
      have h : (type ++ [' ']) ++ name = (space ++ (keyword ++ separator)) ++ name := by
        simpa [htext] using hall
      exact List.append_cancel_right h
    obtain ⟨front, c, rfl⟩ := separator.eq_nil_or_concat.resolve_left hseparator.ne_nil
    have hlast : type ++ [' '] = (space ++ (keyword ++ front)) ++ [c] := by
      simpa using hcut
    obtain ⟨rfl, hblank⟩ := List.append_inj' hlast rfl
    rw [List.concat_eq_append, ← hblank] at hseparator
    exact ⟨hkeyword, space, front, hspace, separator_concat.1 hseparator, rfl⟩
  · rintro ⟨hkeyword, before, tail, hbefore, htail, rfl⟩
    refine ⟨hkeyword, hname, tail ++ [' '], [], separator_concat.2 htail, .nothing Blanks.nil, ?_⟩
    simp only [joined, List.append_assoc, Text.skipBlanks_append hbefore,
      Text.skipBlanks_identifier hkeyword]
    simp

end OneField

/-! ### One field -/

/-- The body of a struct with one field. -/
def fieldBody (type name : List Char) : List Char := ' ' :: (type ++ ' ' :: (name ++ [';', ' ']))

/-- A schema of one field, with its type as it is written. -/
def fieldText (type name : String) : String := "struct S \x7b " ++ type ++ " " ++ name ++ "; \x7d"

/-- What the schema is meant to define. -/
def fieldDocument (type : FieldType) (name : String) : Document :=
  documentOf [⟨"S", [⟨name, type, none⟩], .empty⟩] []

section FieldText
variable {type name : String}

theorem toList_fieldText (type name : String) :
    (fieldText type name).toList =
      soleOpening ++ (fieldBody type.toList name.toList ++ ['}']) := by
  have hfront : "struct S \x7b ".toList = soleOpening ++ [' '] := by decide
  have hbehind : "; \x7d".toList = [';', ' ', '}'] := by decide
  have hspace : " ".toList = [' '] := by decide
  simp only [fieldText, fieldBody, String.toList_append, hfront, hbehind, hspace]
  simp

/-- The field is the one declaration of the body. -/
theorem segments_fieldBody {type name : List Char} (hname : Text.isIdentifier name)
    (hsemi : ';' ∉ type) : segments (fieldBody type name) = [joined type name] := by
  obtain ⟨space, hspace, htext⟩ := joined_padded type name
  obtain ⟨hne, htrimmed⟩ := trimmed_joined type hname
  have hmark : ';' ∉ joined type name := by
    have hall : ';' ∉ type ++ ' ' :: name := by
      rw [List.mem_append, List.mem_cons, not_or, not_or]
      exact ⟨hsemi, by decide, fun h => absurd (Text.isIdentChar_of_mem hname _ h) (by decide)⟩
    exact fun h => hall (htext ▸ List.mem_append_right _ h)
  have hbody : fieldBody type name =
      (' ' :: space) ++ (joined type name ++ ([] ++ ';' :: [' '])) := by
    have h := congrArg (fun whole => ' ' :: (whole ++ [';', ' '])) htext
    simpa [fieldBody] using h
  rw [hbody, segments_padded (hspace.cons rfl) Blanks.nil hne htrimmed hmark,
    segments_of_blanks blanks_space]

variable {keyword : List Char} {brackets : Option (List Char)}
  (hname : Text.isIdentifier name.toList)
  (hmarks : ∀ mark ∈ [';', '{', '}'], mark ∉ type.toList)
  (hcomment : ¬['/', '/'] <:+: type.toList)
include hname hmarks hcomment

/-- The schema is read by reading its one declaration. -/
theorem parse_fieldText :
    ∃ place, Document.parse (fieldText type name) =
      (fields (fieldText type name).toList "S" []
        [(place, joined type.toList name.toList)]).map fun fs =>
          documentOf [⟨"S", fs, .empty⟩] [] := by
  have hchars := Text.isIdentChar_of_mem hname
  have hbehind {mark : Char} (hmark : ¬Text.isIdentChar mark) (hother : mark ∉ [' ', ';']) :
      mark ∉ ' ' :: (name.toList ++ [';', ' ']) := by
    simp only [List.mem_cons, List.mem_append, List.not_mem_nil, or_false, not_or] at hother ⊢
    exact ⟨hother.1, fun hmem => hmark (hchars mark hmem), hother.2, hother.1⟩
  have hbraceless : Braceless (fieldBody type.toList name.toList) := by
    constructor <;> rw [fieldBody, List.mem_cons, List.mem_append, not_or, not_or]
    · exact ⟨by decide, hmarks '{' (by simp), hbehind (by decide) (by decide)⟩
    · exact ⟨by decide, hmarks '}' (by simp), hbehind (by decide) (by decide)⟩
  have huncommented : Uncommented (fieldBody type.toList name.toList) :=
    ((uncommented_of_notInfix hcomment).append (hbehind (by decide) (by decide))).cons (by simp)
  obtain ⟨place, hplace⟩ : ∃ place, declarations 10 (fieldBody type.toList name.toList) =
      [(place, joined type.toList name.toList)] := by
    have hsegments := declarations_segments 10 (fieldBody type.toList name.toList)
    rw [segments_fieldBody hname (hmarks ';' (by simp))] at hsegments
    obtain ⟨⟨place, part⟩, hplace, rfl⟩ := List.map_eq_singleton_iff.1 hsegments
    exact ⟨place, hplace⟩
  refine ⟨place, ?_⟩
  rw [Document.parse, toList_fieldText, document_sole huncommented hbraceless, hplace]

/-- A type that is written is read as that of the field, and the field is its owner. -/
theorem parse_fieldText_of_written (hwritten : TokenWritten keyword brackets type.toList) :
    Document.parse (fieldText type name) =
      (fieldType (String.ofList keyword) brackets ("S." ++ name)).map fun type =>
        fieldDocument type name := by
  obtain ⟨place, hparse⟩ := parse_fieldText hname hmarks hcomment
  have hread := declaration?_eq_some.2 ((joined_iff hname).2 hwritten)
  have howner : "S" ++ "." = "S." := by decide
  rw [hparse]
  simp only [fields, hread, fieldOfDeclaration, String.ofList_toList, howner]
  cases fieldType (String.ofList keyword) brackets ("S." ++ name) <;> rfl

/-- If the schema has the one field and no default, the type is written by itself as well. -/
theorem ofToken_of_parse_fieldText {d : Document} {f : Field}
    (h : Document.parse (fieldText type name) = .ok d)
    (hfields : d.structs.values.flatMap (·.fields) = [f]) (hfname : f.name = name)
    (hdefault : f.default = none) : FieldType.ofToken type = .ok f.type := by
  obtain ⟨place, hparse⟩ := parse_fieldText hname hmarks hcomment
  obtain ⟨all, hall, rfl⟩ := map_eq_ok.1 (hparse.symm.trans h)
  have hone : (documentOf [⟨"S", all, .empty⟩] []).structs.values.flatMap (·.fields) = all :=
    List.append_nil all
  obtain rfl := hone.symm.trans hfields
  obtain ⟨fs, hfs, heq, -⟩ := (fields_eq_ok (by simp)).1 hall
  rw [List.nil_append] at heq
  subst heq
  cases hfs with
  | skip _ _ more => cases more
  | @field d t _ _ _ hwritten htype hgiven more =>
    obtain ⟨keyword, brackets, word, default⟩ := d
    obtain rfl : default = none := Option.map_eq_none_iff.1 hdefault
    obtain rfl : word = name.toList := by rw [← hfname, String.toList_ofList]
    exact ofToken_eq_ok.2 ⟨keyword, brackets, (joined_iff hname).1 hwritten, htype⟩

end FieldText

end Schema

namespace Document

open Schema

variable {text token : String} {d : Document} {kind : IntKind} {b : Bounds}

/-! ### Bounds of a type -/

theorem exists_compile (h : parse text = .ok d) :
    (∃ d', compile text = .ok d') ↔ checkDocument d = .ok () := by
  rw [compile, h, ok_bind]
  cases checkDocument d <;> simp

theorem checkDocument_fieldDocument {name : String} :
    checkDocument (fieldDocument (.int kind (some b)) name) = .ok () ↔ b.Fit kind := by
  have hvalues : (fieldDocument (.int kind (some b)) name).structs.values =
      [⟨"S", [⟨name, .int kind (some b), none⟩], .empty⟩] := rfl
  simp only [checkDocument, hvalues, forM_eq_ok, List.forall_mem_singleton, checkStruct, checkField,
    checkBounds_eq_ok]

/-- An integer with bounds is resolved just when they fit. -/
theorem exists_resolveToken {scope : Option StructDef}
    (h : FieldType.ofToken token = .ok (.int kind (some b))) :
    (∃ type, d.resolveToken scope token = .ok type) ↔ b.Fit kind := by
  rw [← @checkBounds_eq_ok (String.ofList (Text.trim token.toList))]
  simp only [resolveToken, h, Except.mapError, ok_bind, checkToken]
  cases checkBounds (String.ofList (Text.trim token.toList)) kind b <;> simp [resolve]

/-! ### Agreement -/

/-- A text without marks and slashes is read by itself as it is read in front of a name. A field has
the type that is read by itself; bounds that are at fault by themselves are at fault in the field,
which is named then; if the schema has the one field of the name and no default, its type is what
is read by itself. Bounds of an integer are refused by both or by none. -/
theorem parse_fieldText_agrees (type name : String) (hname : Text.isIdentifier name.toList)
    (hmarks : ∀ mark ∈ [';', '{', '}'], mark ∉ type.toList)
    (hcomment : ¬['/', '/'] <:+: type.toList) :
    (∀ t, FieldType.ofToken type = .ok t →
      parse (fieldText type name) = .ok (fieldDocument t name)) ∧
    (∀ owner cause, FieldType.ofToken type = .error (.badBounds owner cause) →
      parse (fieldText type name) = .error (.badBounds ("S." ++ name) cause)) ∧
    (∀ d f, parse (fieldText type name) = .ok d → d.structs.values.flatMap (·.fields) = [f] →
      f.name = name → f.default = none → FieldType.ofToken type = .ok f.type) ∧
    ∀ kind b, FieldType.ofToken type = .ok (.int kind (some b)) → ∀ (d : Document) scope,
      (∃ t, d.resolveToken scope type = .ok t) ↔ ∃ d', compile (fieldText type name) = .ok d' := by
  have hok (t : FieldType) (h : FieldType.ofToken type = .ok t) :
      parse (fieldText type name) = .ok (fieldDocument t name) := by
    obtain ⟨keyword, brackets, hwritten, htype⟩ := ofToken_eq_ok.1 h
    rw [parse_fieldText_of_written hname hmarks hcomment hwritten, fieldType_eq_ok.2 htype, map_ok]
  refine ⟨hok, fun owner cause h => ?_, fun d f h hfields hfname hdefault => ?_,
    fun kind b h d scope => ?_⟩
  · obtain ⟨keyword, brackets, hwritten, hother⟩ := ofToken_eq_error h
    rw [parse_fieldText_of_written hname hmarks hcomment hwritten, hother, map_error]
  · exact ofToken_of_parse_fieldText hname hmarks hcomment h hfields hfname hdefault
  · rw [exists_resolveToken h, exists_compile (hok _ h), checkDocument_fieldDocument]

/-- Blanks, a plus and a slash alone are no hindrance, and brackets on a type that has no bounds are
the fault of the field. -/
theorem parse_fieldText_agrees_sample :
    let type : FieldType := .int .int8 (some ⟨-5, 9⟩)
    (∀ mark ∈ [';', '{', '}'], mark ∉ "int8 [-5 ,\t+9 ] ".toList) ∧
      FieldType.ofToken "int8 [-5 ,\t+9 ] " = .ok type ∧
      parse "struct S \x7b int8 [-5 ,\t+9 ]  x; \x7d" = .ok (fieldDocument type "x") ∧
      (∃ d, compile "struct S \x7b int8 [-5 ,\t+9 ]  x; \x7d" = .ok d) ∧
      parse "struct S \x7b bool[1/] x; \x7d" = .error (.badBounds "S.x" (.notInteger "bool")) := by
  intro type
  have hmarks : ∀ mark ∈ [';', '{', '}'], mark ∉ "int8 [-5 ,\t+9 ] ".toList := by decide +kernel
  have htoken : FieldType.ofToken "int8 [-5 ,\t+9 ] " = .ok type := by decide +kernel
  have hother : FieldType.ofToken "bool[1/]" =
      .error (.badBounds "bool[1/]" (.notInteger "bool")) := by decide +kernel
  have hresolve : (fieldDocument .any "x").resolveToken none "int8 [-5 ,\t+9 ] " =
      .ok (.int .int8 (some ⟨-5, 9⟩)) := by decide +kernel
  obtain ⟨hread, -, -, hbounds⟩ :=
    parse_fieldText_agrees "int8 [-5 ,\t+9 ] " "x" (by decide) hmarks (by decide +kernel)
  obtain ⟨-, hfault, -, -⟩ :=
    parse_fieldText_agrees "bool[1/]" "x" (by decide) (by decide +kernel) (by decide +kernel)
  exact ⟨hmarks, htoken, hread type htoken, (hbounds _ _ htoken _ none).1 ⟨_, hresolve⟩,
    hfault _ _ hother⟩

end Document

end WireSchema
