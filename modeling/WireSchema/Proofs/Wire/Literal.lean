import WireSchema.Proofs.Json.ReadBack
import WireSchema.Proofs.Schema.OneField
import WireSchema.Proofs.Wire.Direct
import WireSchema.Wire.Default

/-! Default literals as they are written. A schema is cut up at its marks wherever these stand, also
in the quotation marks of a JSON string. So a literal is kept as it is exactly if it has no
mark of the schema in it and no two slashes, and then a JSON value is written on the wire by
the very text that stands in the schema. -/

namespace WireSchema

open Outcome
open Text (Blanks)

namespace Schema

/-! ### One field with a literal -/

/-- What stands before the literal, up to the blank in front of it. -/
def literalFront : List Char := ['a', 'n', 'y', ' ', 'f', ' ', ':', ' ']

/-- The body of a struct with one field and its default. -/
def literalBody (raw : List Char) : List Char := ' ' :: (literalFront ++ raw ++ [';', ' '])

section OneField
variable {raw : List Char}

theorem notMem_literalBody {c : Char} (h : c ∉ raw) (hc : c ∉ literalFront ++ [';', ' ']) :
    c ∉ literalBody raw := by
  simp only [literalBody, List.mem_append, List.mem_cons, not_or] at hc ⊢
  exact ⟨hc.2.2.1, ⟨hc.1, h⟩, hc.2⟩

theorem uncommented_literalBody (h : Uncommented raw) : Uncommented (literalBody raw) := by
  rw [literalBody, List.append_assoc, ← List.cons_append]
  exact uncommented_append (by decide) (h.append (by decide))

/-- The literal and what stands before it are one part of the body. -/
theorem segments_literalBody (h : Literal raw) :
    segments (literalBody raw) = [literalFront ++ raw] := by
  have htrimmed : Text.Trimmed (literalFront ++ raw) := by
    refine ⟨fun c hc => ?_, fun c hc => h.trimmed.last c ?_⟩
    · obtain rfl : 'a' = c := Option.some.inj hc
      decide
    · rwa [List.getLast?_append_of_ne_nil _ h.nonempty] at hc
  have hsemi : ';' ∉ literalFront ++ raw := by
    rw [List.mem_append, not_or]
    exact ⟨by decide, h.marks ';' (by simp)⟩
  have hsegments := segments_padded blanks_space Blanks.nil (by simp [literalFront]) htrimmed hsemi
    [' ']
  rw [segments_of_blanks blanks_space] at hsegments
  rw [← hsegments]
  simp [literalBody]

/-- The declaration is read with the literal for its default. -/
theorem fields_literalBody (h : Literal raw) :
    Fields (segments (literalBody raw)) [⟨"f", .any, some (String.ofList raw)⟩] := by
  have htrim : Text.trim (' ' :: raw) = raw := by
    have hpadded := Text.trim_padded blanks_space Blanks.nil h.trimmed
    rwa [List.append_nil] at hpadded
  have hending : Ending (some (Text.trim (' ' :: raw))) ([' '] ++ ':' :: ' ' :: raw) :=
    .literal blanks_space _
  rw [htrim] at hending
  have hany : Text.isIdentifier ['a', 'n', 'y'] := by decide
  have hname : Text.isIdentifier ['f'] := by decide
  have hwritten : Declaration.Written ⟨['a', 'n', 'y'], none, ['f'], some raw⟩
      (literalFront ++ raw) :=
    ⟨hany, hname, [' '], _, .blanks (List.cons_ne_nil _ _) blanks_space, hending, rfl⟩
  have htype : TypeOf ['a', 'n', 'y'] none (plainType (String.ofList ['a', 'n', 'y'])) :=
    .plain (by decide)
  rw [segments_literalBody h]
  exact .field hwritten htype (by simpa using h.nonempty) .nil

end OneField

/-- A schema of one field of any value, with a literal for its default. -/
def literalText (raw : String) : String := "struct S \x7b any f : " ++ raw ++ "; \x7d"

/-- What the schema is meant to define. -/
def literalStruct (raw : String) : StructDef := ⟨"S", [⟨"f", .any, some raw⟩], .empty⟩

def literalDocument (raw : String) : Document := documentOf [literalStruct raw] []

theorem toList_literalText (raw : String) :
    (literalText raw).toList = soleOpening ++ (literalBody raw.toList ++ ['}']) := by
  have hfront : "struct S \x7b any f : ".toList = soleOpening ++ ' ' :: literalFront := by
    decide
  have hbehind : "; \x7d".toList = [';', ' ', '}'] := by decide
  unfold literalText literalBody
  rw [String.toList_append, String.toList_append, hfront, hbehind]
  simp only [List.append_assoc, List.cons_append, List.nil_append]

section Compile
variable {raw : String}

theorem document_literalText (h : Literal raw.toList) :
    document (literalText raw).toList = .ok (literalDocument raw) := by
  have hbraceless : Braceless (literalBody raw.toList) :=
    ⟨notMem_literalBody (h.marks '{' (by simp)) (by decide),
      notMem_literalBody (h.marks '}' (by simp)) (by decide)⟩
  have huncommented := uncommented_literalBody (uncommented_of_notInfix h.comment)
  have hfields : Fields (segments (literalBody raw.toList)) (literalStruct raw).fields := by
    have hf := fields_literalBody h
    rwa [String.ofList_toList] at hf
  rw [← declarations_segments 10] at hfields
  rw [toList_literalText, document_sole huncommented hbraceless,
    (fields_eq_ok (by simp)).2 ⟨_, hfields, rfl, by simp [literalStruct]⟩]
  rfl

/-- A literal is kept exactly if nothing in it means something to the schema. -/
theorem compile_literalText :
    Document.compile (literalText raw) = .ok (literalDocument raw) ↔ Literal raw.toList := by
  have hstruct : (literalDocument raw).struct? "S" = some (literalStruct raw) := rfl
  constructor
  · intro h
    obtain ⟨hwell, -⟩ := Document.compile_inBounds h
    exact ((hwell.structs "S" _ hstruct).2.fields _ List.mem_cons_self).default raw rfl
  · intro h
    have hcheck : checkDocument (literalDocument raw) = .ok () := rfl
    rw [Document.compile, Document.parse, document_literalText h, ok_bind, hcheck, ok_bind]

end Compile

end Schema

/-! ### JSON text -/

namespace Json

theorem laterItems_close (items : List Value) : ∃ front, laterItems items = front ++ [']'] := by
  induction items with
  | nil => exact ⟨[], rfl⟩
  | cons item more ih =>
    obtain ⟨front, hfront⟩ := ih
    exact ⟨',' :: (chars item ++ front), by rw [laterItems, hfront]; simp⟩

theorem laterMembers_close {low : Option String} (members : Rows Value low) :
    ∃ front, laterMembers members = front ++ ['}'] := by
  induction members with
  | nil => exact ⟨[], rfl⟩
  | cons key v rest _ ih =>
    obtain ⟨front, hfront⟩ := ih
    exact ⟨',' :: (Text.quotedChars key.toList ++ ':' :: (chars v ++ front)),
      by rw [laterMembers, hfront]; simp⟩

theorem not_isBlank_of_mem_natChars {n : Nat} {c : Char} (h : c ∈ Text.natChars n) :
    ¬Text.isBlank c :=
  Text.not_isBlank_of_isAnyDigit (Text.isAnyDigit_of_isDigit (isDigit_of_mem_natChars h))

theorem not_isBlank_of_mem_intChars {n : Int} {c : Char} (h : c ∈ Text.intChars n) :
    ¬Text.isBlank c := by
  cases n with
  | ofNat n => exact not_isBlank_of_mem_natChars h
  | negSucc n =>
    obtain rfl | h := List.mem_cons.1 h
    · decide
    · exact not_isBlank_of_mem_natChars h

/-- The text of a value without floats has no blanks around. -/
theorem trimmed_chars {v : Value} (hf : v.floatFree) : Text.Trimmed (chars v) := by
  cases v with
  | null => exact Text.trimmed_of_forall (by decide)
  | bool b => cases b <;> exact Text.trimmed_of_forall (by decide)
  | int n => exact Text.trimmed_of_forall fun c => not_isBlank_of_mem_intChars
  | float x => cases hf
  | string s => exact Text.trimmed_between _ (by decide) (by decide)
  | array items =>
    cases items with
    | nil => exact Text.trimmed_between [] (by decide) (by decide)
    | cons item more =>
      obtain ⟨front, hfront⟩ := laterItems_close more
      rw [chars, hfront, ← List.append_assoc]
      exact Text.trimmed_between _ (by decide) (by decide)
  | object members =>
    cases members with
    | nil => exact Text.trimmed_between [] (by decide) (by decide)
    | cons key v rest after =>
      obtain ⟨front, hfront⟩ := laterMembers_close rest
      have hchars : chars (.object (.cons key v rest after)) =
          '{' :: (Text.quotedChars key.toList ++ ':' :: (chars v ++ front) ++ ['}']) := by
        rw [chars, hfront]
        simp
      rw [hchars]
      exact Text.trimmed_between _ (by decide) (by decide)

end Json

/-! ### Literals of JSON -/

namespace Schema

variable {j : Value}

/-- Of a JSON text as a literal only the marks and the slashes matter. -/
theorem literal_toJson (hf : j.floatFree) :
    Literal j.toJson.toList ↔
      (∀ mark ∈ [';', '{', '}'], mark ∉ j.toJson.toList) ∧ ¬['/', '/'] <:+: j.toJson.toList := by
  have hchars : j.toJson.toList = Json.chars j := by rw [Value.toJson, String.toList_ofList]
  obtain ⟨c, more, hcons, -, -⟩ := (Json.value_chars j hf (Nat.le_refl _)).head
  refine ⟨fun h => ⟨h.marks, h.comment⟩, fun h => ⟨?_, ?_, h.1, h.2⟩⟩
  · rw [hchars, hcons]
    exact List.cons_ne_nil c more
  · rw [hchars]
    exact Json.trimmed_chars hf

/-- A field that is left out is written as the text of its default behind the length of it. -/
theorem encode_literalDocument (raw : String) (limits : Limits) :
    (literalDocument raw).encode limits "S" (.object .nil) =
      Direct.framed limits (Utf8.encode (Json.chars (ResolvedType.any.liftDefault raw))) "S.f" := by
  have hstruct : (literalDocument raw).struct? "S" = some (literalStruct raw) := rfl
  have hgiven : Direct.given? .nil ⟨"f", .any, some raw⟩ =
      some fun type => type.liftDefault raw := rfl
  have hpath : "S" ++ "." ++ "f" = "S.f" := by decide
  rw [Document.encode_direct, Document.encodeDirect, hstruct]
  simp only [Limits.levels, Direct.struct, literalStruct, Direct.parts, Direct.field, hgiven,
    Document.resolve, ResolvedType.validate, ResolvedType.accepts, if_true, ok_bind, hpath,
    Direct.value_any]
  cases Direct.framed limits _ "S.f" with
  | error fault => rfl
  | ok bytes => simp

/-- The text of a JSON value is lifted to the value, which is printed as that text again. -/
theorem chars_liftDefault_toJson (hf : j.floatFree) (hd : j.depth ≤ Json.maxDepth) :
    Json.chars (ResolvedType.any.liftDefault j.toJson) = j.toJson.toList := by
  simp only [ResolvedType.liftDefault, Value.ofJson_toJson hf hd]
  rw [Value.toJson, String.toList_ofList]

end Schema

namespace Document

open Schema

/-- The text of a JSON value without floats, as the default of a field of any value, is kept as it
is exactly if it has no semicolon, no brace and no two slashes in a row, in quotation marks or
not. An empty object is then written as that text behind its length, if the length is allowed. -/
theorem compile_json_default (j : Value) (hf : j.floatFree) (hd : j.depth ≤ Json.maxDepth) :
    (compile (literalText j.toJson) = .ok (literalDocument j.toJson) ↔
      (∀ mark ∈ [';', '{', '}'], mark ∉ j.toJson.toList) ∧ ¬['/', '/'] <:+: j.toJson.toList) ∧
    ∀ limits, (literalDocument j.toJson).encode limits "S" (.object .nil) =
      if (Utf8.encode j.toJson.toList).length ≤ limits.maxLength.toNat then
        .ok (Varint.encode (Utf8.encode j.toJson.toList).length ++ Utf8.encode j.toJson.toList)
      else
        .error (.tooLong "S.f" (Utf8.encode j.toJson.toList).length limits.maxLength.toNat) := by
  refine ⟨compile_literalText.trans (literal_toJson hf), fun limits => ?_⟩
  rw [encode_literalDocument, chars_liftDefault_toJson hf hd, Direct.framed]

/-- A literal with a colon, a comma and a slash in quotation marks. -/
theorem compile_json_default_array :
    compile "struct S \x7b any f : [1,\"a:b,/\"]; \x7d" =
        .ok (literalDocument "[1,\"a:b,/\"]") ∧
      (literalDocument "[1,\"a:b,/\"]").encode {} "S" (.object .nil) =
        .ok [11, 91, 49, 44, 34, 97, 58, 98, 44, 47, 34, 93] := by
  have h := compile_json_default (.array [.int 1, .string "a:b,/"]) (by decide) (by decide)
  have hjson : Value.toJson (.array [.int 1, .string "a:b,/"]) = "[1,\"a:b,/\"]" := by
    decide +kernel
  rw [hjson] at h
  have htext : literalText "[1,\"a:b,/\"]" = "struct S \x7b any f : [1,\"a:b,/\"]; \x7d" := by
    decide +kernel
  rw [htext] at h
  exact ⟨h.1.2 ⟨by decide, by decide +kernel⟩, by rw [h.2 {}]; decide +kernel⟩

/-- A semicolon in quotation marks ends the literal, and what follows is passed over as a
declaration of one word. -/
theorem compile_json_default_cut :
    compile (literalText (Value.string "a;b").toJson) = .ok (literalDocument "\"a") ∧
      (literalDocument "\"a").encode {} "S" (.object .nil) = .ok [5, 34, 92, 34, 97, 34] :=
  ⟨by decide +kernel, by decide +kernel⟩

end Document

end WireSchema
