import WireSchema.Proofs.Outcome
import WireSchema.Proofs.Schema.Declaration
import WireSchema.Proofs.Table
import WireSchema.Schema.Document

/-! What every schema satisfies once it is read, and once its bounds are checked. Reading
stores each definition under its own name and keeps to identifiers, to fields that differ
and to literals without marks; the check of the bounds refuses only bounds that are wrong. -/

namespace WireSchema

/-! ### Well-formed definitions -/

/-- The text of a default: something, without blanks around, marks of the schema or a comment. -/
structure Schema.Literal (text : List Char) : Prop where
  nonempty : text ≠ []
  trimmed : Text.Trimmed text
  marks : ∀ mark ∈ [';', '{', '}'], mark ∉ text
  comment : ¬['/', '/'] <:+: text

structure Field.WellFormed (f : Field) : Prop where
  name : Text.isIdentifier f.name.toList
  named : ∀ type, f.type = .named type → type ∉ Schema.typeKeywords
  default : ∀ raw, f.default = some raw → Schema.Literal raw.toList

structure EnumDef.WellFormed (e : EnumDef) : Prop where
  name : Text.isIdentifier e.name.toList
  members : ∀ m ∈ e.members, Text.isIdentifier m.name.toList

structure StructDef.WellFormed (s : StructDef) : Prop where
  name : Text.isIdentifier s.name.toList
  fields : ∀ f ∈ s.fields, f.WellFormed
  distinct : (s.fields.map (·.name)).Nodup
  enums : s.enums.All fun key e => e.name = key ∧ e.WellFormed

structure Document.WellFormed (d : Document) : Prop where
  structs : d.structs.All fun key s => s.name = key ∧ s.WellFormed
  enums : d.enums.All fun key e => e.name = key ∧ e.WellFormed

/-- Bounds in order and inside those of the kind. -/
structure Bounds.Fit (b : Bounds) (kind : IntKind) : Prop where
  low : kind.bounds.min ≤ b.min
  ordered : b.min ≤ b.max
  high : b.max ≤ kind.bounds.max

/-- How bounds may be wrong for a kind, and what is said about them. -/
inductive Bounds.Misfit (b : Bounds) (kind : IntKind) : Schema.BoundsCause → Prop
  | inverted (h : b.max < b.min) : Misfit b kind (.inverted b)
  | exceeding (ordered : b.min ≤ b.max)
      (h : b.min < kind.bounds.min ∨ kind.bounds.max < b.max) : Misfit b kind (.exceeding b kind)

/-- All declared bounds fit. -/
def Document.InBounds (d : Document) : Prop :=
  ∀ name s, d.struct? name = some s → ∀ f ∈ s.fields, ∀ kind b, f.type = .int kind (some b) →
    b.Fit kind

namespace Schema

open Outcome

/-! ### Enums -/

variable {text : List Char}

theorem members_named {enum : String} {next : Option Int64} {entries : List (Nat × List Char)}
    {ms : List Member} (h : members text enum next entries = .ok ms) :
    ∀ m ∈ ms, Text.isIdentifier m.name.toList := by
  induction entries generalizing next ms with
  | nil =>
    simp only [members, Except.ok.injEq] at h
    simp [← h]
  | cons entry more ih =>
    obtain ⟨offset, part⟩ := entry
    rw [members] at h
    split at h
    · cases h
    · next name literal hentry =>
      obtain ⟨code, -, h⟩ := bind_eq_ok.1 h
      obtain ⟨later, hlater, h⟩ := bind_eq_ok.1 h
      rw [← Except.ok.inj h, List.forall_mem_cons]
      exact ⟨by simpa using entry?_isIdentifier hentry, ih hlater⟩

theorem enumOfBlock_wellFormed {offset : Nat} {b : Block} {whole : List Char} {e : EnumDef}
    (hb : b.Stands whole) (h : enumOfBlock text offset b = .ok e) :
    e.name = b.name ∧ e.WellFormed := by
  obtain ⟨ms, hms, h⟩ := bind_eq_ok.1 h
  obtain rfl := Except.ok.inj h
  exact ⟨rfl, hb.name, members_named hms⟩

theorem enumsOfBlocks_wellFormed {twice : String → SyntaxCause} {whole : List Char}
    {known enums : Table EnumDef} {blocks : List (Nat × Block)}
    (hk : known.All fun key e => e.name = key ∧ e.WellFormed)
    (hb : ∀ b ∈ blocks, b.2.Stands whole)
    (h : enumsOfBlocks text twice known blocks = .ok enums) :
    enums.All fun key e => e.name = key ∧ e.WellFormed := by
  induction blocks generalizing known with
  | nil => exact Except.ok.inj h ▸ hk
  | cons first more ih =>
    obtain ⟨offset, block⟩ := first
    rw [List.forall_mem_cons] at hb
    rw [enumsOfBlocks] at h
    split at h
    · cases h
    · obtain ⟨e, he, h⟩ := bind_eq_ok.1 h
      exact ih (hk.insert (enumOfBlock_wellFormed hb.1 he)) hb.2 h

/-! ### Fields -/

/-- A part of the body of a struct that no mark interrupts. -/
structure Plain (part : List Char) : Prop where
  marks : ∀ mark ∈ [';', '{', '}'], mark ∉ part
  comment : Uncommented part

theorem Plain.literal {part raw : List Char} (h : Plain part) (hin : raw <:+: part)
    (ht : Text.Trimmed raw) (hne : raw ≠ []) : Literal raw :=
  ⟨hne, ht, fun mark hm hmem => h.marks mark hm (hin.subset hmem),
    fun hs => h.comment.not_infix (hs.trans hin)⟩

theorem fieldOfDeclaration_wellFormed {struct : String} {known : List Field} {offset : Nat}
    {d : Declaration} {part : List Char} {f : Field} (hp : Plain part) (hd : d.Stands part)
    (h : fieldOfDeclaration text struct known offset d = .ok f) :
    f.WellFormed ∧ f.name ∉ known.map (·.name) := by
  rw [fieldOfDeclaration] at h
  split at h
  · cases h
  · next hnew =>
    split at h
    · cases h
    · next hne =>
      obtain ⟨type, htype, h⟩ := bind_eq_ok.1 h
      obtain rfl := Except.ok.inj h
      refine ⟨⟨by simpa using hd.name, ?_, ?_⟩, by simpa using hnew⟩
      · rintro name rfl
        exact fieldType_named htype
      · intro raw hraw
        obtain ⟨chars, hchars, rfl⟩ := Option.map_eq_some_iff.1 hraw
        obtain ⟨hin, ht⟩ := hd.default chars hchars
        rw [String.toList_ofList]
        exact hp.literal hin ht fun hnil => hne (hchars.trans (congrArg some hnil))

/-- Well-formed fields of different names, and each further one as well. -/
theorem fields_wellFormed {struct : String} {known fs : List Field}
    {parts : List (Nat × List Char)} (hp : ∀ part ∈ parts, Plain part.2)
    (hk : ∀ f ∈ known, f.WellFormed) (hn : (known.map (·.name)).Nodup)
    (h : fields text struct known parts = .ok fs) :
    (∀ f ∈ fs, f.WellFormed) ∧ (fs.map (·.name)).Nodup := by
  induction parts generalizing known with
  | nil => exact Except.ok.inj h ▸ ⟨hk, hn⟩
  | cons first more ih =>
    obtain ⟨offset, part⟩ := first
    rw [List.forall_mem_cons] at hp
    rw [fields] at h
    split at h
    · next d hd =>
      obtain ⟨f, hf, h⟩ := bind_eq_ok.1 h
      obtain ⟨hwf, hnew⟩ := fieldOfDeclaration_wellFormed hp.1 (declaration?_stands hd) hf
      refine ih hp.2 ?_ ?_ h
      · simpa [or_imp, forall_and] using ⟨hk, hwf⟩
      · rw [List.map_append, List.nodup_append]
        refine ⟨hn, by simp, fun a ha b hb hab => ?_⟩
        have hb : b = f.name := List.mem_singleton.1 hb
        exact hnew (hb ▸ hab ▸ ha)
    · split at h
      · exact ih hp.2 hk hn h
      · cases h

/-! ### Structs -/

theorem brace_notMem {offset : Nat} {left : List Char} (h : brace? offset left = none) :
    '{' ∉ left ∧ '}' ∉ left := by
  induction left generalizing offset with
  | nil => simp
  | cons c rest ih =>
    rw [brace?] at h
    split at h
    · cases h
    · next hc =>
      rw [not_or] at hc
      obtain ⟨hopen, hclose⟩ := ih h
      exact ⟨by simp [Ne.symm hc.1, hopen], by simp [Ne.symm hc.2, hclose]⟩

theorem plain_of_declarations {offset : Nat} {left : List Char} (hl : Uncommented left)
    (hb : brace? offset left = none) : ∀ part ∈ declarations offset left, Plain part.2 := by
  intro part hpart
  obtain ⟨hin, hsemi⟩ := declarations_stand hpart
  obtain ⟨hopen, hclose⟩ := brace_notMem hb
  refine ⟨?_, List.IsChain.infix hl hin⟩
  intro mark hmark
  simp only [List.mem_cons, List.not_mem_nil, or_false] at hmark
  rcases hmark with rfl | rfl | rfl
  · exact hsemi
  · exact fun h => hopen (hin.subset h)
  · exact fun h => hclose (hin.subset h)

theorem structOfBlock_wellFormed {offset : Nat} {b : Block} {whole : List Char} {s : StructDef}
    (hw : Uncommented whole) (hb : b.Stands whole) (h : structOfBlock text offset b = .ok s) :
    s.name = b.name ∧ s.WellFormed := by
  have hbody : Uncommented b.body := List.IsChain.infix hw hb.body
  rw [structOfBlock] at h
  obtain ⟨enums, henums, h⟩ := bind_eq_ok.1 h
  split at h
  · cases h
  · next hbrace =>
    obtain ⟨fs, hfs, h⟩ := bind_eq_ok.1 h
    obtain rfl := Except.ok.inj h
    have hleft : Uncommented (blocks enumAt? (offset + b.bodyAt) b.body).2 :=
      (cutBlocks_uncommented none _ 0 hbody).1
    have hfields : (∀ f ∈ fs, f.WellFormed) ∧ (fs.map (·.name)).Nodup := by
      refine fields_wellFormed (plain_of_declarations hleft hbrace) ?_ ?_ hfs
      · simp
      · simp
    refine ⟨rfl, hb.name, hfields.1, hfields.2, ?_⟩
    exact enumsOfBlocks_wellFormed Table.all_empty
      (cutBlocks_stands enumAt?_stands none _ 0 b.body) henums

theorem structsOfBlocks_wellFormed {whole : List Char} {known structs : Table StructDef}
    {blocks : List (Nat × Block)} (hw : Uncommented whole)
    (hk : known.All fun key s => s.name = key ∧ s.WellFormed)
    (hb : ∀ b ∈ blocks, b.2.Stands whole) (h : structsOfBlocks text known blocks = .ok structs) :
    structs.All fun key s => s.name = key ∧ s.WellFormed := by
  induction blocks generalizing known with
  | nil => exact Except.ok.inj h ▸ hk
  | cons first more ih =>
    obtain ⟨offset, block⟩ := first
    rw [List.forall_mem_cons] at hb
    rw [structsOfBlocks] at h
    split at h
    · cases h
    · split at h
      · cases h
      · obtain ⟨s, hs, h⟩ := bind_eq_ok.1 h
        exact ih (hk.insert (structOfBlock_wellFormed hw hb.1 hs)) hb.2 h

theorem document_wellFormed {d : Document} (h : document text = .ok d) : d.WellFormed := by
  have hw := stripComments_uncommented text
  rw [document] at h
  obtain ⟨structs, hstructs, h⟩ := bind_eq_ok.1 h
  obtain ⟨enums, henums, h⟩ := bind_eq_ok.1 h
  split at h
  · obtain rfl := Except.ok.inj h
    constructor
    · exact structsOfBlocks_wellFormed hw Table.all_empty
        (cutBlocks_stands structAt?_stands none 0 0 _) hstructs
    · exact enumsOfBlocks_wellFormed Table.all_empty
        (cutBlocks_stands enumAt?_stands none 0 0 _) henums
  · cases h

/-! ### Bounds -/

theorem checkBounds_eq_ok {owner : String} {kind : IntKind} {b : Bounds} :
    checkBounds owner kind b = .ok () ↔ b.Fit kind := by
  rw [checkBounds]
  constructor
  · intro h
    split at h
    · cases h
    · next hordered =>
      split at h
      · cases h
      · next hwithin =>
        simp only [Bounds.within, Bool.not_eq_true, Bool.not_eq_false', Bool.and_eq_true,
          decide_eq_true_eq] at hwithin
        exact ⟨hwithin.1, Int64.not_lt.1 hordered, hwithin.2⟩
  · rintro ⟨hlow, hordered, hhigh⟩
    rw [if_neg (Int64.not_lt.2 hordered), if_neg (by simp [Bounds.within, hlow, hhigh])]

theorem checkBounds_eq_error {owner : String} {kind : IntKind} {b : Bounds} {fault : Fault}
    (h : checkBounds owner kind b = .error fault) :
    ∃ cause, b.Misfit kind cause ∧ fault = .badBounds owner cause := by
  rw [checkBounds] at h
  split at h
  · next hinverted => exact ⟨_, .inverted hinverted, (Except.error.inj h).symm⟩
  · next hordered =>
    split at h
    · next hwithin =>
      refine ⟨_, .exceeding (Int64.not_lt.1 hordered) ?_, (Except.error.inj h).symm⟩
      simpa [Bounds.within, imp_iff_not_or] using hwithin
    · cases h

theorem checkField_eq_ok {struct : String} {f : Field} {kind : IntKind} {b : Bounds}
    (h : checkField struct f = .ok ()) (ht : f.type = .int kind (some b)) : b.Fit kind := by
  rw [checkField, ht] at h
  exact checkBounds_eq_ok.1 h

theorem checkField_eq_error {struct : String} {f : Field} {fault : Fault}
    (h : checkField struct f = .error fault) :
    ∃ kind b cause, f.type = .int kind (some b) ∧ b.Misfit kind cause ∧
      fault = .badBounds (struct ++ "." ++ f.name) cause := by
  rw [checkField] at h
  split at h
  · next kind b ht =>
    obtain ⟨cause, hmisfit, hfault⟩ := checkBounds_eq_error h
    exact ⟨kind, b, cause, ht, hmisfit, hfault⟩
  · cases h

end Schema

namespace Document

open Outcome

theorem parse_wellFormed {text : String} {d : Document} (h : parse text = .ok d) : d.WellFormed :=
  Schema.document_wellFormed h

theorem inBounds_of_checkDocument {d : Document} (h : Schema.checkDocument d = .ok ()) :
    d.InBounds := by
  intro name s hs f hf kind b ht
  have hstruct : Schema.checkStruct s = .ok () := forM_eq_ok.1 h s (Rows.mem_values_of_find? hs)
  exact Schema.checkField_eq_ok (forM_eq_ok.1 hstruct f hf) ht

theorem compile_inBounds {text : String} {d : Document} (h : compile text = .ok d) :
    d.WellFormed ∧ d.InBounds := by
  obtain ⟨parsed, hparse, h⟩ := bind_eq_ok.1 h
  obtain ⟨_, hcheck, h⟩ := bind_eq_ok.1 h
  obtain rfl := Except.ok.inj h
  exact ⟨parse_wellFormed hparse, inBounds_of_checkDocument hcheck⟩

/-- What is read and yet refused has a field whose bounds are wrong, and the fault names it. -/
theorem misfit_of_compile_eq_error {text : String} {d : Document} {fault : Schema.Fault}
    (hp : parse text = .ok d) (h : compile text = .error fault) :
    ∃ s f kind b cause, d.struct? s.name = some s ∧ f ∈ s.fields ∧
      f.type = .int kind (some b) ∧ b.Misfit kind cause ∧
        fault = .badBounds (s.name ++ "." ++ f.name) cause := by
  have hcheck : Schema.checkDocument d = .error fault := by
    rw [compile, hp, ok_bind, bind_eq_error] at h
    obtain h | ⟨_, -, h⟩ := h
    · exact h
    · cases h
  obtain ⟨s, hs, hstruct⟩ := exists_of_forM_eq_error hcheck
  obtain ⟨f, hf, hfield⟩ := exists_of_forM_eq_error hstruct
  obtain ⟨kind, b, cause, ht, hmisfit, hfault⟩ := Schema.checkField_eq_error hfield
  obtain ⟨key, hkey⟩ := Rows.exists_find?_of_mem_values hs
  obtain ⟨rfl, -⟩ := (parse_wellFormed hp).structs key s hkey
  exact ⟨s, f, kind, b, cause, hkey, hf, ht, hmisfit, hfault⟩

/-- A compiled document is well formed and its bounds fit, whatever the text. The bounds are also
all that compiling adds to reading: it refuses what was read for bounds of a field only, and names
the field. -/
theorem compile_wellFormed (text : String) :
    (∀ d, compile text = .ok d → d.WellFormed ∧ d.InBounds) ∧
      ∀ d fault, parse text = .ok d → compile text = .error fault →
        ∃ s f kind b cause, d.struct? s.name = some s ∧ f ∈ s.fields ∧
          f.type = .int kind (some b) ∧ b.Misfit kind cause ∧
            fault = .badBounds (s.name ++ "." ++ f.name) cause :=
  ⟨fun _ => compile_inBounds, fun _ _ => misfit_of_compile_eq_error⟩

/-- A schema of one field with bounds. -/
def oneField (min max : Int64) : Document :=
  ⟨Table.ofList [("S", ⟨"S", [⟨"a", .int .uint8 (some ⟨min, max⟩), some "3"⟩], .empty⟩)], .empty⟩

/-- The field with its bounds in order, and with its bounds inverted. -/
theorem compile_wellFormed_oneField :
    ((oneField 1 5).WellFormed ∧ (oneField 1 5).InBounds) ∧
      ∃ s f kind b cause, (oneField 5 1).struct? s.name = some s ∧ f ∈ s.fields ∧
        f.type = .int kind (some b) ∧ b.Misfit kind cause ∧
          Schema.Fault.badBounds "S.a" (.inverted ⟨5, 1⟩) =
            .badBounds (s.name ++ "." ++ f.name) cause := by
  have hgood : compile "struct S { uint8[1,5] a : 3; }" = .ok (oneField 1 5) := by
    decide +kernel
  have hparse : parse "struct S { uint8[5,1] a : 3; }" = .ok (oneField 5 1) := by
    decide +kernel
  have hbad : compile "struct S { uint8[5,1] a : 3; }" =
      .error (.badBounds "S.a" (.inverted ⟨5, 1⟩)) := by
    decide +kernel
  exact ⟨(compile_wellFormed _).1 _ hgood, (compile_wellFormed _).2 _ _ hparse hbad⟩

end Document

end WireSchema
