import WireSchema.Proofs.Json.ReadBack
import WireSchema.Proofs.Wire.Refused

/-! Defaults that name a member of an enum. A literal is read as JSON before it counts as text.
The names of members are identifiers, and of all identifiers three are JSON: a default that
names a member stands for the member unless its name is one of these. -/

namespace WireSchema

open Outcome

namespace Json

/-! ### Identifiers that are JSON -/

/-- The identifiers that are read as JSON. -/
def reserved : List String := ["null", "true", "false"]

section Words
variable {text rest : List Char} {v w : Value}

theorem word_eq_append {letters : List Char} (h : word v letters text = .ok (w, rest)) :
    text = letters ++ rest := by
  induction letters generalizing text with
  | nil => exact (Prod.mk.inj (Except.ok.inj h)).2
  | cons letter letters ih =>
    cases text with
    | nil => cases h
    | cons c more =>
      rw [word] at h
      split at h
      · next hc => rw [hc, List.cons_append, ih h]
      · cases h

/-- The first character of an identifier begins neither a number nor anything in marks. -/
theorem head_identifier {c : Char} (h : Text.isIdentStart c) :
    isSpace c = false ∧ c.isDigit = false ∧ c ∉ ['-', '"', '[', '{'] := by
  refine ⟨?_, ?_, fun hc => ?_⟩
  · by_contra hc
    simp only [isSpace, Bool.not_eq_false, Bool.or_eq_true, beq_iff_eq, or_assoc] at hc
    rcases hc with rfl | rfl | rfl | rfl <;> exact absurd h (by decide)
  · by_contra hc
    have hletter := Text.isIdentStart_cases h
    simp only [Bool.not_eq_false, Char.isDigit, Bool.and_eq_true, decide_eq_true_eq] at hc
    have hlow : 48 ≤ c.toNat := hc.1
    have hhigh : c.toNat ≤ 57 := hc.2
    omega
  · revert h
    revert c
    decide

/-- An identifier that begins with a value is the word for null or for a truth value, with what the
reader leaves behind it. -/
theorem value_identifier {levels : Nat} (hi : Text.isIdentifier text)
    (h : value levels text = .ok (v, rest)) :
    ∃ name ∈ reserved, text = name.toList ++ rest ∧ v.int? = none ∧ v.toJson = name := by
  obtain ⟨item, hitem⟩ : ∃ item, value levels = valueWith item := by
    cases levels <;> exact ⟨_, rfl⟩
  obtain ⟨c, more, rfl⟩ := List.exists_cons_of_ne_nil (Text.isIdentifier_ne_nil hi)
  rw [Text.isIdentifier, Bool.and_eq_true] at hi
  obtain ⟨hspace, hdigit, hmark⟩ := head_identifier hi.1
  have hne : ∀ mark ∈ ['-', '"', '[', '{'], c ≠ mark := fun mark hm hc => hmark (hc ▸ hm)
  rw [hitem, valueWith, skipSpaces_cons hspace] at h
  split at h
  · next htext => cases htext
  · next after htext =>
    rw [htext, word_eq_append h, word_eq_ok h]
    exact ⟨"null", by decide, rfl, rfl, rfl⟩
  · next after htext =>
    rw [htext, word_eq_append h, word_eq_ok h]
    exact ⟨"true", by decide, rfl, rfl, rfl⟩
  · next after htext =>
    rw [htext, word_eq_append h, word_eq_ok h]
    exact ⟨"false", by decide, rfl, rfl, rfl⟩
  · next after htext => exact absurd (List.cons.inj htext).1 (hne '-' (by simp))
  · next after htext => exact absurd (List.cons.inj htext).1 (hne '"' (by simp))
  · next after htext => exact absurd (List.cons.inj htext).1 (hne '[' (by simp))
  · next after htext => exact absurd (List.cons.inj htext).1 (hne '{' (by simp))
  · next d after _ _ _ _ _ _ _ htext =>
    obtain rfl := (List.cons.inj htext).1
    rw [if_neg (by simp [hdigit])] at h
    cases h

/-- An identifier that is JSON is one of the three. -/
theorem parse_identifier (hi : Text.isIdentifier text) (h : parse text = .ok v) :
    ∃ name ∈ reserved, text = name.toList ∧ v.int? = none ∧ v.toJson = name := by
  unfold parse at h
  split at h
  · next u hdocument =>
    obtain rfl := Except.ok.inj h
    obtain ⟨⟨u, rest⟩, hvalue, hdocument⟩ := bind_eq_ok.1 hdocument
    obtain ⟨name, hname, htext, hint, hjson⟩ := value_identifier hi hvalue
    dsimp only at hdocument
    split at hdocument
    · next hskip =>
      -- what is left are spaces, and an identifier has none
      obtain rfl := Except.ok.inj hdocument
      obtain rfl : rest = [] := by
        cases rest with
        | nil => rfl
        | cons c more =>
          have hc : Text.isIdentChar c :=
            Text.isIdentChar_of_mem hi c (htext ▸ List.mem_append_right _ List.mem_cons_self)
          have hspace : isSpace c := List.dropWhile_eq_nil_iff.1 hskip c List.mem_cons_self
          simp only [isSpace, Bool.or_eq_true, beq_iff_eq, or_assoc] at hspace
          rcases hspace with rfl | rfl | rfl | rfl <;> exact absurd hc (by decide)
      rw [List.append_nil] at htext
      exact ⟨name, hname, htext, hint, hjson⟩
    · cases hdocument
  · cases h

end Words

end Json

/-! ### The value of the default -/

section Default
variable {e : EnumDef} {n : String}

theorem liftDefault_enum (e : EnumDef) (raw : String) :
    (ResolvedType.enum e).liftDefault raw = (Value.ofJson raw).toOption.getD (.string raw) := by
  unfold ResolvedType.liftDefault
  cases Value.ofJson raw <;> rfl

/-- The name of a member is lifted to itself if it is not read as JSON. -/
theorem liftDefault_name (hi : Text.isIdentifier n.toList) (hn : n ∉ Json.reserved) :
    (ResolvedType.enum e).liftDefault n = .string n := by
  rw [liftDefault_enum]
  cases hv : Value.ofJson n with
  | error fault => rfl
  | ok v =>
    obtain ⟨name, hname, htext, -⟩ := Json.parse_identifier hi hv
    exact absurd (String.toList_inj.1 htext ▸ hname) hn

/-- What a reserved name is read as has no code, and is described by the name. -/
theorem liftDefault_reserved (hn : n ∈ Json.reserved) :
    ¬(ResolvedType.enum e).accepts ((ResolvedType.enum e).liftDefault n) ∧
      ((ResolvedType.enum e).liftDefault n).describe = n := by
  simp only [Json.reserved, List.mem_cons, List.not_mem_nil, or_false] at hn
  rw [liftDefault_enum]
  obtain rfl | rfl | rfl := hn <;> exact ⟨Bool.false_ne_true, rfl⟩

end Default

/-- An enum that a field refers to in a document that was read is well-formed. -/
theorem Document.WellFormed.enum_of_resolve {d : Document} (hd : d.WellFormed) {key : String}
    {s : StructDef} (hs : d.struct? key = some s) {type : FieldType} {e : EnumDef}
    (h : d.resolve (some s) type = .ok (.enum e)) : e.WellFormed := by
  cases type with
  | named name =>
    simp only [resolve, named?, Option.bind_some] at h
    cases hlocal : s.enums.find? name with
    | some e' =>
      simp only [hlocal, Except.ok.injEq, ResolvedType.enum.injEq] at h
      exact h ▸ ((hd.structs key s hs).2.enums name e' hlocal).2
    | none =>
      cases hglobal : d.enum? name with
      | some e' =>
        simp only [hlocal, hglobal, Except.ok.injEq, ResolvedType.enum.injEq] at h
        exact h ▸ (hd.enums name e' hglobal).2
      | none =>
        simp only [hlocal, hglobal] at h
        cases hstruct : d.struct? name <;> simp [hstruct] at h
  | _ => cases h

/-- The name of a member is an identifier. -/
theorem EnumDef.WellFormed.isIdentifier {e : EnumDef} (h : e.WellFormed) {n : String}
    {code : Int64} (hcode : e.code? n = some code) : Text.isIdentifier n.toList := by
  obtain ⟨m, hm, -⟩ := Option.map_eq_some_iff.1 hcode
  have hmember := List.mem_reverse.1 (List.mem_of_find?_eq_some hm)
  have hname := List.find?_some hm
  exact eq_of_beq hname ▸ h.members m hmember

namespace Encode

/-! ### Encoding -/

section Field
variable {d : Document} {limits : Limits}
  {nested : StructDef → Value → String → Array Item → Except Fault Plan} {s : StructDef}
  {members members' : Table Value} {path : String} {f : Field} {fs : List Field} {e : EnumDef}
  {n : String} {code : Int64} {items : Array Item}

/-- Fields are encoded alike where they have the same values. -/
theorem fields_congr (h : ∀ f ∈ fs, fieldValue? d s members f = fieldValue? d s members' f) :
    fields d limits nested s members path fs items =
      fields d limits nested s members' path fs items := by
  induction fs generalizing items with
  | nil => rfl
  | cons f more ih =>
    rw [List.forall_mem_cons] at h
    simp only [fields, field, h.1, ih h.2]

/-- A default that is left to its field. -/
theorem fieldValue?_default (htype : d.resolve (some s) f.type = .ok (.enum e))
    (hdefault : f.default = some n) (hm : members.find? f.name = none) :
    fieldValue? d s members f =
      .ok (some (.enum e, (ResolvedType.enum e).liftDefault n)) := by
  simp only [fieldValue?, hm, hdefault, htype, ok_bind]

/-- With the name supplied, all fields have the values that they have without it. -/
theorem fieldValue?_insert (hd : (s.fields.map (·.name)).Nodup) (hf : f ∈ s.fields)
    (htype : d.resolve (some s) f.type = .ok (.enum e))
    (hvalue : fieldValue? d s members f = .ok (some (.enum e, .string n))) {g : Field}
    (hg : g ∈ s.fields) :
    fieldValue? d s members g = fieldValue? d s (members.insert f.name (.string n)) g := by
  by_cases hname : f.name = g.name
  · obtain rfl := List.inj_on_of_nodup_map hd hf hg hname
    rw [hvalue]
    simp only [fieldValue?, Table.find?_insert, if_true, htype, ok_bind]
  · simp only [fieldValue?, Table.find?_insert, if_neg hname]

theorem field_code (hvalue : fieldValue? d s members f = .ok (some (.enum e, .string n)))
    (hcode : e.code? n = some code) :
    field d limits nested s members path f items =
      .ok (item (.varint code.toUInt64) items) := by
  have haccepts : (ResolvedType.enum e).accepts (.string n) := by
    simp [ResolvedType.accepts, hcode]
  rw [field, hvalue, ok_bind]
  simp only [ResolvedType.validate_eq_ok.2 haccepts, ok_bind, value, code?, hcode]

theorem field_refused (htype : d.resolve (some s) f.type = .ok (.enum e))
    (hdefault : f.default = some n) (hm : members.find? f.name = none)
    (hn : n ∈ Json.reserved) :
    field d limits nested s members path f items =
      .error (.mismatch (path ++ "." ++ f.name) (ResolvedType.enum e).describe n) := by
  obtain ⟨hrefused, hdescribe⟩ := liftDefault_reserved (e := e) hn
  rw [field, fieldValue?_default htype hdefault hm, ok_bind]
  simp only [ResolvedType.validate, if_neg hrefused, ResolvedType.refuse, hdescribe, error_bind]

/-- Where fields are encoded, each of them is. -/
theorem exists_field_of_fields {plan : Plan} (hf : f ∈ fs)
    (h : fields d limits nested s members path fs items = .ok plan) :
    ∃ items plan, field d limits nested s members path f items = .ok plan := by
  induction fs generalizing items plan with
  | nil => cases hf
  | cons g more ih =>
    obtain ⟨first, hfirst, h⟩ := bind_eq_ok.1 h
    obtain ⟨later, hlater, -⟩ := bind_eq_ok.1 h
    obtain rfl | hmore := List.mem_cons.1 hf
    · exact ⟨items, first, hfirst⟩
    · exact ih hmore hlater

end Field

section Struct
variable {d : Document} {limits : Limits} {levels : Nat} {s t : StructDef} {v w : Value}
  {members : Table Value} {path : String} {f : Field} {items : Array Item} {plan : Plan}

theorem field_of_passes (h : Passes d limits levels s members path f) (items : Array Item) :
    ∃ plan, field d limits (struct d limits levels) s members path f items = .ok plan := by
  rw [field]
  obtain hnone | ⟨type, v, hvalue, ha, hlisted⟩ := h
  · rw [hnone]
    exact ⟨_, rfl⟩
  · rw [hvalue]
    simp only [ok_bind, ResolvedType.validate_eq_ok.2 ha]
    exact hlisted items

/-- A struct fails as its first field that does not pass. -/
theorem struct_of_passes {before after : List Field} {fault : Fault}
    (hsplit : s.fields = before ++ f :: after)
    (hpassed : ∀ g ∈ before, Passes d limits levels s members path g)
    (hfault : ∀ items, field d limits (struct d limits levels) s members path f items =
      .error fault) (items : Array Item) :
    struct d limits (levels + 1) s (.object members) path items = .error fault := by
  change fields d limits (struct d limits levels) s members path s.fields items = .error fault
  rw [hsplit]
  clear hsplit
  induction before generalizing items with
  | nil => rw [List.nil_append, fields, hfault, error_bind]
  | cons g before ih =>
    rw [List.forall_mem_cons] at hpassed
    obtain ⟨first, hfirst⟩ := field_of_passes hpassed.1 items
    rw [List.cons_append, fields, hfirst, ok_bind, ih hpassed.2, error_bind]

/-- Where a struct is encoded, so is each of its fields. -/
theorem exists_field_of_struct (hf : f ∈ s.fields)
    (h : struct d limits levels s (.object members) path items = .ok plan) :
    ∃ levels items plan, field d limits (struct d limits levels) s members path f items =
      .ok plan := by
  cases levels with
  | zero => cases h
  | succ levels => exact ⟨levels, exists_field_of_fields hf h⟩

/-- Where a value is encoded, so is every struct in it. -/
theorem exists_struct_of_follows {trail : List String} (hfollows : Follows d s v trail t w)
    (h : struct d limits levels s v path items = .ok plan) :
    ∃ levels path items plan, struct d limits levels t w path items = .ok plan := by
  induction hfollows generalizing levels path items plan with
  | here => exact ⟨levels, path, items, plan, h⟩
  | @field s t u v w x f trail hf hpresent hresolved _ ih =>
    cases v with
    | object members =>
      obtain ⟨levels, items, plan, hfield⟩ := exists_field_of_struct hf h
      have hvalue : fieldValue? d s members f = .ok (some (.struct t, w)) := by
        have hfind : members.find? f.name = some w := hpresent
        simp only [fieldValue?, hfind, hresolved, ok_bind]
      rw [field, hvalue, ok_bind] at hfield
      obtain ⟨_, -, hfield⟩ := bind_eq_ok.1 hfield
      obtain ⟨inner, hinner, -⟩ := bind_eq_ok.1 hfield
      exact ih hinner
    | _ => cases hpresent

end Struct

end Encode

theorem trailPath_ne (path name : String) (trail : List String) :
    trailPath path (trail ++ [name]) ≠ path := by
  intro h
  have hchars := congrArg String.toList h
  rw [toList_trailPath, List.append_right_eq_self] at hchars
  simp [trailChars] at hchars

/-- At a field whose value is accepted there is no mismatch, wherever the struct with the field
stands in the value. -/
theorem Document.encode_ne_mismatch {d : Document} (hd : d.WellFormed) {outer : StructDef}
    {name : String} (hs : d.struct? name = some outer) {v : Value} {trail : List String}
    {s : StructDef} {members : Table Value} (h : Follows d outer v trail s (.object members))
    {f : Field} (hf : f ∈ s.fields) {type : ResolvedType} {x : Value}
    (hvalue : Encode.fieldValue? d s members f = .ok (some (type, x))) (ha : type.accepts x)
    (limits : Limits) (expected actual : String) :
    d.encode limits name v ≠
      .error (.mismatch (trailPath name (trail ++ [f.name])) expected actual) := by
  intro hfault
  rw [encode_direct, encodeDirect, hs] at hfault
  obtain ⟨-, -, hpath, -⟩ | ⟨way, type', y, hrejects, hpath, -⟩ :=
    Direct.struct_eq_mismatch.1 hfault
  · exact trailPath_ne _ _ _ hpath
  · obtain ⟨front, t, inner, g, rfl, hfollows, hg, hgiven, hrefused⟩ := hrejects.follows hd hs
    obtain ⟨rfl, hinner, rfl⟩ := h.field_unique hd hs hfollows hf hg hpath
    obtain rfl := Value.object.inj hinner
    rw [hvalue] at hgiven
    obtain ⟨rfl, rfl⟩ := Prod.mk.inj (Option.some.inj (Except.ok.inj hgiven))
    exact hrefused ha

namespace Document

variable {text key n : String} {d : Document} {s : StructDef} {f : Field} {e : EnumDef}
  {code : Int64}

theorem encode_eq_ok {limits : Limits} {name : String} {v : Value} {bytes : List UInt8}
    (h : d.encode limits name v = .ok bytes) :
    ∃ s plan, d.struct? name = some s ∧
      Encode.struct d limits limits.levels s v name #[] = .ok plan := by
  obtain ⟨plan, hplan, -⟩ := bind_eq_ok.1 h
  obtain ⟨s, hs, hplan⟩ := bind_eq_ok.1 hplan
  refine ⟨s, plan, ?_, hplan⟩
  rw [getStruct] at hs
  split at hs
  · next hfound => rw [hfound, Except.ok.inj hs]
  · cases hs

/-- A field of an enum with the name of a member for its default, left out of an object. If the name
is not read as JSON, the code of the member is listed for it; the object is encoded as with the
name supplied; and no mismatch is found at the field, wherever the object stands in a value. A
name that is read as JSON is a mismatch at the field, and is described by itself: so ends the
encoding of the object if the fields before it pass, and no value with the object in it is
encoded. -/
theorem encode_default_member (hc : compile text = .ok d) (hs : d.struct? key = some s)
    (hf : f ∈ s.fields) (htype : d.resolve (some s) f.type = .ok (.enum e))
    (hdefault : f.default = some n) (hcode : e.code? n = some code) {members : Table Value}
    (hm : members.find? f.name = none) (limits : Limits) (levels : Nat) :
    (n ∉ Json.reserved →
      (∀ path items, Encode.field d limits (Encode.struct d limits levels) s members path f items =
        .ok (Encode.item (.varint code.toUInt64) items)) ∧
      (∀ path items, Encode.struct d limits levels s (.object members) path items =
        Encode.struct d limits levels s (.object (members.insert f.name (.string n))) path
          items) ∧
      ∀ name outer v trail expected actual, d.struct? name = some outer →
        Follows d outer v trail s (.object members) →
          d.encode limits name v ≠
            .error (.mismatch (trailPath name (trail ++ [f.name])) expected actual)) ∧
    (n ∈ Json.reserved →
      (∀ path items,
        Encode.field d limits (Encode.struct d limits levels) s members path f items =
          .error (.mismatch (path ++ "." ++ f.name) (ResolvedType.enum e).describe n)) ∧
      (∀ before after path items, s.fields = before ++ f :: after →
        (∀ g ∈ before, Encode.Passes d limits levels s members path g) →
          Encode.struct d limits (levels + 1) s (.object members) path items =
            .error (.mismatch (path ++ "." ++ f.name) (ResolvedType.enum e).describe n)) ∧
      (∀ before after, s.fields = before ++ f :: after →
        (∀ g ∈ before, Encode.Passes d limits limits.maxDepth.toNat s members key g) →
          d.encode limits key (.object members) =
            .error (.mismatch (key ++ "." ++ f.name) (ResolvedType.enum e).describe n)) ∧
      ∀ name outer v trail bytes, d.struct? name = some outer →
        Follows d outer v trail s (.object members) → d.encode limits name v ≠ .ok bytes) := by
  obtain ⟨hd, -⟩ := compile_inBounds hc
  constructor
  · intro hn
    have hi := (hd.enum_of_resolve hs htype).isIdentifier hcode
    have hvalue : Encode.fieldValue? d s members f = .ok (some (.enum e, .string n)) := by
      rw [Encode.fieldValue?_default htype hdefault hm, liftDefault_name hi hn]
    have haccepts : (ResolvedType.enum e).accepts (.string n) := by
      simp [ResolvedType.accepts, hcode]
    refine ⟨fun path items => Encode.field_code hvalue hcode, fun path items => ?_,
      fun name outer v trail expected actual houter hfollows =>
        encode_ne_mismatch hd houter hfollows hf hvalue haccepts limits expected actual⟩
    cases levels with
    | zero => rfl
    | succ levels =>
      have hdistinct := (hd.structs key s hs).2.distinct
      exact Encode.fields_congr fun g hg => Encode.fieldValue?_insert hdistinct hf htype hvalue hg
  · intro hn
    have hrefused : ∀ levels path items,
        Encode.field d limits (Encode.struct d limits levels) s members path f items =
          .error (.mismatch (path ++ "." ++ f.name) (ResolvedType.enum e).describe n) :=
      fun _ _ _ => Encode.field_refused htype hdefault hm hn
    refine ⟨hrefused levels, fun before after path items hsplit hpassed =>
      Encode.struct_of_passes hsplit hpassed (hrefused levels path) items,
      fun before after hsplit hpassed => ?_, fun name outer v trail bytes houter hfollows hok => ?_⟩
    · have hfault := Encode.struct_of_passes hsplit hpassed (hrefused limits.maxDepth.toNat key) #[]
      simp only [encode, plan, getStruct, hs, ok_bind, Limits.levels, hfault, error_bind]
    · obtain ⟨outer', whole, houter', hwhole⟩ := encode_eq_ok hok
      obtain rfl := Option.some.inj (houter.symm.trans houter')
      obtain ⟨_, path, items, plan, hplan⟩ := Encode.exists_struct_of_follows hfollows hwhole
      obtain ⟨levels, items, plan, hfield⟩ := Encode.exists_field_of_struct hf hplan
      rw [hrefused levels path items] at hfield
      cases hfield

/-- A struct with a field for a color, which is green unless it says otherwise. -/
def painted : StructDef :=
  ⟨"S", [⟨"k", .int .uint8 none, none⟩, ⟨"c", .named "C", some "GREEN"⟩], .empty⟩

def colors : EnumDef := ⟨"C", [⟨"RED", 0⟩, ⟨"GREEN", 300⟩]⟩

def framed : StructDef := ⟨"T", [⟨"s", .named "S", none⟩], .empty⟩

def palette : Document :=
  ⟨Table.ofList [("S", painted), ("T", framed)], Table.ofList [("C", colors)]⟩

/-- An object without a color. -/
def plain : Table Value := Table.ofList [("k", .int 7)]

/-- A struct whose field has the name of a member for its default that is read as JSON. -/
def switched : StructDef :=
  ⟨"S", [⟨"k", .int .uint8 none, none⟩, ⟨"e", .named "E", some "true"⟩], .empty⟩

def switches : Document :=
  ⟨Table.ofList [("S", switched)], Table.ofList [("E", ⟨"E", [⟨"null", 0⟩, ⟨"true", 1⟩]⟩)]⟩

/-- Green is written where the color is left out, also in a struct in another one. A switch that is
left out is refused. -/
theorem encode_default_member_green :
    (Encode.struct palette {} 1 painted (.object plain) "S" #[] =
      Encode.struct palette {} 1 painted (.object (plain.insert "c" (.string "GREEN"))) "S" #[]) ∧
      (∀ expected actual, palette.encode {} "T" (.object (Table.ofList [("s", .object plain)])) ≠
        .error (.mismatch "T.s.c" expected actual)) ∧
      palette.encode {} "S" (.object plain) = .ok [7, 172, 2] ∧
      switches.encode {} "S" (.object plain) =
        .error (.mismatch "S.e" "member of enum E" "true") := by
  have hcompile : compile "enum C \x7b RED; GREEN = 300; \x7d
      struct S \x7b uint8 k; C c : GREEN; \x7d struct T \x7b S s; \x7d" = .ok palette := by
    decide +kernel
  have hcolor : (⟨"c", .named "C", some "GREEN"⟩ : Field) ∈ painted.fields := by decide
  have hgreen : colors.code? "GREEN" = some 300 := rfl
  have hplain : plain.find? "c" = none := rfl
  have hinside : Follows palette framed (.object (Table.ofList [("s", .object plain)])) ["s"]
      painted (.object plain) :=
    .field (f := ⟨"s", .named "S", none⟩) List.mem_cons_self rfl rfl .here
  obtain ⟨-, hsame, hnone⟩ := (encode_default_member hcompile
    (rfl : palette.struct? "S" = some painted) hcolor rfl rfl hgreen hplain {} 1).1 (by decide)
  have hcompiled : compile "enum E \x7b null; true; \x7d
      struct S \x7b uint8 k; E e : true; \x7d" = .ok switches := by decide +kernel
  have hswitch : (⟨"e", .named "E", some "true"⟩ : Field) ∈ switched.fields := by decide
  have hleft : plain.find? "e" = none := rfl
  have hnumber : ∀ g ∈ [⟨"k", .int .uint8 none, none⟩],
      Encode.Passes switches {} 64 switched plain "S" g :=
    List.forall_mem_singleton.2 (.inr ⟨.int .uint8 none, .int 7, rfl, rfl, fun _ => ⟨_, rfl⟩⟩)
  obtain ⟨-, -, hrefused, -⟩ := (encode_default_member hcompiled
    (rfl : switches.struct? "S" = some switched) hswitch rfl rfl rfl hleft {} 1).2
    (by decide)
  exact ⟨hsame "S" #[], fun expected actual => hnone "T" _ _ _ expected actual rfl hinside,
    by decide +kernel, hrefused [⟨"k", .int .uint8 none, none⟩] [] rfl hnumber⟩

/-- The name of a member that is read as JSON is no default of its enum, though it can be
supplied. -/
theorem encode_default_true :
    ∃ d s f e, compile "enum E \x7b null; true; \x7d struct S \x7b E e : true; \x7d" = .ok d ∧
      d.struct? "S" = some s ∧ f ∈ s.fields ∧ d.resolve (some s) f.type = .ok (.enum e) ∧
      f.default = some "true" ∧ e.code? "true" = some 1 ∧
      d.encode {} "S" (.object .nil) =
        .error (.mismatch "S.e" "member of enum E" "true") ∧
      d.encode {} "S" (.object (Table.ofList [("e", .string "true")])) = .ok [1] := by
  refine ⟨⟨Table.ofList [("S", ⟨"S", [⟨"e", .named "E", some "true"⟩], .empty⟩)],
    Table.ofList [("E", ⟨"E", [⟨"null", 0⟩, ⟨"true", 1⟩]⟩)]⟩, _, _, _, by decide +kernel, rfl,
    List.mem_cons_self, rfl, rfl, rfl, by decide +kernel, by decide +kernel⟩

end Document

end WireSchema
