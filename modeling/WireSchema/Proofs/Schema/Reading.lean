import Mathlib.Data.List.Forall2
import WireSchema.Proofs.Outcome
import WireSchema.Proofs.Schema.Cutting
import WireSchema.Proofs.Schema.WellFormed
import WireSchema.Proofs.Schema.Written
import WireSchema.Schema.Document

/-! What it means that a schema is read. Each pass succeeds just when its parts are written
in the right form, and where the parts stand in the whole text matters to faults only. -/

namespace WireSchema

open Text (Blanks)

def EnumDef.row (e : EnumDef) : String × EnumDef := (e.name, e)

def StructDef.row (s : StructDef) : String × StructDef := (s.name, s)

namespace Schema

open Outcome

variable {text : List Char}

/-! ### Segments -/

/-- The parts of a body between semicolons, trimmed, without the blank ones. -/
def segments (body : List Char) : List (List Char) :=
  ((Text.split ';' body).map Text.trim).filter (· ≠ [])

theorem trimmedParts_segments (offset : Nat) (parts : List (List Char)) :
    (trimmedParts offset parts).map Prod.snd = (parts.map Text.trim).filter (· ≠ []) := by
  induction parts generalizing offset with
  | nil => rfl
  | cons part more ih =>
    rw [trimmedParts, List.map_cons]
    split
    · next h => rw [ih, h, List.filter_cons_of_neg (by simp)]
    · next h =>
      rw [List.filter_cons_of_pos (by simpa using h), List.map_cons, ih]

theorem declarations_segments (offset : Nat) (body : List Char) :
    (declarations offset body).map Prod.snd = segments body :=
  trimmedParts_segments offset _

theorem segments_of_blanks {body : List Char} (h : Blanks body) : segments body = [] := by
  have htrim : Text.trim body = [] := by
    rw [Text.trim, h.skip]
    rfl
  rw [segments, Text.split_of_notMem (h.notMem (by decide)), List.map_singleton, htrim,
    List.filter_cons_of_neg (by simp), List.filter_nil]

/-- A part up to a semicolon is a segment without the blanks around it. -/
theorem segments_padded {before part after : List Char} (hb : Blanks before) (ha : Blanks after)
    (hne : part ≠ []) (htrim : Text.Trimmed part) (hsemi : ';' ∉ part) (rest : List Char) :
    segments (before ++ (part ++ (after ++ ';' :: rest))) = part :: segments rest := by
  have hfront : ';' ∉ before ++ (part ++ after) := by
    simp only [List.mem_append, not_or]
    exact ⟨hb.notMem (by decide), hsemi, ha.notMem (by decide)⟩
  have hsplit := Text.split_append hfront rest
  simp only [List.append_assoc] at hsplit
  rw [segments, hsplit, List.map_cons, Text.trim_padded hb ha htrim,
    List.filter_cons_of_pos (by simpa using hne)]
  rfl

/-! ### Blocks into a table -/

/-- A pass that reads blocks one after another and stores each under its name. -/
structure Collects {α : Type} (text : List Char) (twice : String → SyntaxCause)
    (name : α → String) (Is : Block → α → Prop)
    (run : Table α → List (Nat × Block) → Except Fault (Table α)) : Prop where
  named : ∀ {b v}, Is b v → name v = b.name
  nil : ∀ {known}, run known [] = .ok known
  first : ∀ {known t offset b more}, run known ((offset, b) :: more) = .ok t →
    known.contains b.name = false ∧ ∃ v, Is b v
  next : ∀ {known offset b more v}, Is b v → known.contains b.name = false →
    run known ((offset, b) :: more) = run (Table.insert known b.name v) more
  again : ∀ {known offset b more v}, Is b v → known.contains b.name = true →
    run known ((offset, b) :: more) = faultAt text offset (twice b.name)

namespace Collects

variable {α : Type} {text : List Char} {twice : String → SyntaxCause} {name : α → String}
  {Is : Block → α → Prop} {run : Table α → List (Nat × Block) → Except Fault (Table α)}
  {known : Table α} {found : List (Nat × Block)} {vs : List α}

/-- Blocks with new names are passed and are known from then on. -/
theorem run_append (h : Collects text twice name Is run)
    (hvs : List.Forall₂ Is (found.map Prod.snd) vs) (hfresh : known.Fresh (vs.map name))
    (more : List (Nat × Block)) :
    run known (found ++ more) = run (known.addAll (vs.map fun v => (name v, v))) more := by
  induction found generalizing known vs with
  | nil =>
    rw [List.map_nil, List.forall₂_nil_left_iff] at hvs
    rw [hvs]
    rfl
  | cons first later ih =>
    obtain ⟨offset, block⟩ := first
    rw [List.map_cons, List.forall₂_cons_left_iff] at hvs
    obtain ⟨v, vs, hv, hlater, rfl⟩ := hvs
    rw [List.map_cons] at hfresh
    obtain ⟨hnew, hfresh⟩ := (Table.fresh_cons v).1 hfresh
    rw [List.cons_append, h.next hv (h.named hv ▸ hnew), ← h.named hv]
    exact ih hlater hfresh

theorem eq_ok (h : Collects text twice name Is run) {t : Table α} :
    run known found = .ok t ↔ ∃ vs, List.Forall₂ Is (found.map Prod.snd) vs ∧
      known.Fresh (vs.map name) ∧ t = known.addAll (vs.map fun v => (name v, v)) := by
  constructor
  · intro hrun
    induction found generalizing known with
    | nil =>
      rw [h.nil, Except.ok.injEq] at hrun
      exact ⟨[], .nil, Table.fresh_nil known, hrun.symm⟩
    | cons first more ih =>
      obtain ⟨offset, block⟩ := first
      obtain ⟨hnew, v, hv⟩ := h.first hrun
      rw [h.next hv hnew, ← h.named hv] at hrun
      obtain ⟨vs, hvs, hfresh, rfl⟩ := ih hrun
      rw [← h.named hv] at hnew
      exact ⟨v :: vs, .cons hv hvs, (Table.fresh_cons v).2 ⟨hnew, hfresh⟩, rfl⟩
  · rintro ⟨vs, hvs, hfresh, rfl⟩
    have hrun := h.run_append hvs hfresh []
    rwa [List.append_nil, h.nil] at hrun

/-- The first block whose name is known already is at fault. -/
theorem exists_again (h : Collects text twice name Is run)
    (hvs : List.Forall₂ Is (found.map Prod.snd) vs) (hnames : (vs.map name).Nodup)
    (hknown : ∃ v ∈ vs, known.contains (name v) = true) :
    ∃ block ∈ found, ∃ v ∈ vs, name v = block.2.name ∧ known.contains block.2.name = true ∧
      run known found = faultAt text block.1 (twice block.2.name) := by
  induction found generalizing known vs with
  | nil =>
    obtain ⟨v, hv, -⟩ := hknown
    rw [List.map_nil, List.forall₂_nil_left_iff] at hvs
    rw [hvs] at hv
    cases hv
  | cons first more ih =>
    obtain ⟨offset, block⟩ := first
    rw [List.map_cons, List.forall₂_cons_left_iff] at hvs
    obtain ⟨v, vs, hv, hmore, rfl⟩ := hvs
    rw [List.map_cons, List.nodup_cons] at hnames
    by_cases hblock : known.contains block.name = true
    · exact ⟨_, List.mem_cons_self, v, List.mem_cons_self, h.named hv, hblock, h.again hv hblock⟩
    · have hlater : ∃ w ∈ vs, (Table.insert known block.name v).contains (name w) = true := by
        obtain ⟨w, hw, htwice⟩ := hknown
        obtain rfl | hw := List.mem_cons.1 hw
        · exact absurd (h.named hv ▸ htwice) hblock
        · exact ⟨w, hw, by rw [Table.contains_insert, htwice, Bool.or_true]⟩
      obtain ⟨later, hmem, w, hw, hname, htwice, hfault⟩ := ih hmore hnames.2 hlater
      have hne : block.name ≠ later.2.name := by
        rw [← hname, ← h.named hv]
        exact fun heq => hnames.1 (heq ▸ List.mem_map_of_mem hw)
      refine ⟨later, List.mem_cons_of_mem _ hmem, w, List.mem_cons_of_mem _ hw, hname, ?_, ?_⟩
      · simpa [Table.contains_insert, hne] using htwice
      · rw [h.next hv (Bool.eq_false_iff.2 hblock), hfault]

end Collects

/-! ### Enums -/

/-- Members from entries, `next` being the code of one without a literal. -/
inductive Entries : (next : Option Int64) → List (List Char) → List Member → Prop
  | nil {next : Option Int64} : Entries next [] []
  | cons {next : Option Int64} {name part : List Char} {literal : Option (List Char)}
      {code : Int64} {parts : List (List Char)} {ms : List Member}
      (entry : Entry name literal part) (hcode : literal.elim next Text.int64? = some code)
      (more : Entries (successor? code) parts ms) :
      Entries next (part :: parts) (⟨String.ofList name, code⟩ :: ms)

theorem entryCode_eq_ok {enum : String} {offset : Nat} {name : List Char}
    {literal : Option (List Char)} {next : Option Int64} {code : Int64} :
    entryCode text enum offset name literal next = .ok code ↔
      literal.elim next Text.int64? = some code := by
  cases literal with
  | some literal =>
    rw [entryCode, Option.elim_some]
    cases Text.int64? literal with
    | none => simp [faultAt]
    | some found => simp
  | none => cases next <;> simp [entryCode, faultAt]

theorem members_eq_ok {enum : String} {next : Option Int64} {parts : List (Nat × List Char)}
    {ms : List Member} :
    members text enum next parts = .ok ms ↔ Entries next (parts.map Prod.snd) ms := by
  induction parts generalizing next ms with
  | nil =>
    rw [members, Except.ok.injEq]
    constructor
    · rintro rfl
      exact .nil
    · rintro ⟨⟩
      rfl
  | cons first more ih =>
    obtain ⟨offset, part⟩ := first
    rw [members, List.map_cons]
    cases hentry : entry? part with
    | none =>
      constructor
      · intro h
        cases h
      · intro h
        cases h with
        | cons entry _ _ =>
          have hread := entry?_eq_some.2 entry
          rw [hread] at hentry
          cases hentry
    | some found =>
      obtain ⟨name, literal⟩ := found
      simp only [bind_eq_ok, entryCode_eq_ok, ih]
      constructor
      · rintro ⟨code, hcode, later, hlater, h⟩
        have entry := entry?_eq_some.1 hentry
        exact Except.ok.inj h ▸ .cons entry hcode hlater
      · intro h
        cases h with
        | cons entry hcode hlater =>
          have hread := entry?_eq_some.2 entry
          rw [hread, Option.some.injEq, Prod.mk.injEq] at hentry
          obtain ⟨rfl, rfl⟩ := hentry
          exact ⟨_, hcode, _, hlater, rfl⟩

/-- An enum that a block defines. -/
structure Block.IsEnum (b : Block) (e : EnumDef) : Prop where
  name : e.name = b.name
  members : Entries (some 0) (segments b.body) e.members

theorem enumOfBlock_eq_ok {offset : Nat} {b : Block} {e : EnumDef} :
    enumOfBlock text offset b = .ok e ↔ b.IsEnum e := by
  simp only [enumOfBlock, bind_eq_ok, members_eq_ok, declarations_segments, Except.ok.injEq]
  constructor
  · rintro ⟨ms, hms, rfl⟩
    exact ⟨rfl, hms⟩
  · rintro ⟨hname, hms⟩
    exact ⟨e.members, hms, by rw [← hname]⟩

theorem enumsOfBlocks_collects (text : List Char) (twice : String → SyntaxCause) :
    Collects text twice (·.name) Block.IsEnum (enumsOfBlocks text twice) where
  named he := he.name
  nil := rfl
  first h := by
    rw [enumsOfBlocks] at h
    split at h
    · cases h
    · next hnew =>
      obtain ⟨e, he, -⟩ := bind_eq_ok.1 h
      exact ⟨Bool.eq_false_iff.2 hnew, e, enumOfBlock_eq_ok.1 he⟩
  next he hnew := by
    rw [enumsOfBlocks, if_neg (Bool.eq_false_iff.1 hnew), enumOfBlock_eq_ok.2 he]
    rfl
  again _ htwice := by rw [enumsOfBlocks, if_pos htwice]

/-! ### Structs -/

/-- Fields from declarations. A declaration of one word is passed over. -/
inductive Fields : List (List Char) → List Field → Prop
  | nil : Fields [] []
  | skip {part : List Char} {parts : List (List Char)} {fs : List Field} (word : isOneWord part)
      (none : ∀ d : Declaration, ¬d.Written part) (more : Fields parts fs) :
      Fields (part :: parts) fs
  | field {d : Declaration} {type : FieldType} {part : List Char} {parts : List (List Char)}
      {fs : List Field} (written : d.Written part) (htype : TypeOf d.type d.brackets type)
      (given : d.default ≠ some []) (more : Fields parts fs) :
      Fields (part :: parts)
        (⟨String.ofList d.name, type, d.default.map String.ofList⟩ :: fs)

theorem fieldOfDeclaration_eq_ok {struct : String} {known : List Field} {offset : Nat}
    {d : Declaration} {f : Field} :
    fieldOfDeclaration text struct known offset d = .ok f ↔
      f.name ∉ known.map (·.name) ∧ d.default ≠ some [] ∧ ∃ type, TypeOf d.type d.brackets type ∧
        f = ⟨String.ofList d.name, type, d.default.map String.ofList⟩ := by
  rw [fieldOfDeclaration]
  constructor
  · intro h
    split at h
    · cases h
    · next hnew =>
      split at h
      · cases h
      · next hgiven =>
        obtain ⟨type, htype, h⟩ := bind_eq_ok.1 h
        obtain rfl := Except.ok.inj h
        exact ⟨by simpa using hnew, hgiven, type, fieldType_eq_ok.1 htype, rfl⟩
  · rintro ⟨hnew, hgiven, type, htype, rfl⟩
    rw [if_neg (by simpa using hnew), if_neg hgiven, bind_eq_ok]
    exact ⟨type, fieldType_eq_ok.2 htype, rfl⟩

theorem fields_eq_ok {struct : String} {known all : List Field} {parts : List (Nat × List Char)}
    (hknown : (known.map (·.name)).Nodup) :
    fields text struct known parts = .ok all ↔
      ∃ fs, Fields (parts.map Prod.snd) fs ∧ all = known ++ fs ∧
        ((known ++ fs).map (·.name)).Nodup := by
  induction parts generalizing known with
  | nil =>
    rw [fields, Except.ok.injEq]
    constructor
    · rintro rfl
      exact ⟨[], .nil, by simp, by simpa using hknown⟩
    · rintro ⟨_, ⟨⟩, rfl, -⟩
      rw [List.append_nil]
  | cons first more ih =>
    obtain ⟨offset, part⟩ := first
    have hnext (f : Field) (hnew : f.name ∉ known.map (·.name)) :
        ((known ++ [f]).map (·.name)).Nodup := by
      rw [List.map_append, List.nodup_append]
      refine ⟨hknown, by simp, fun a ha b hb hab => ?_⟩
      obtain rfl : b = f.name := List.mem_singleton.1 hb
      exact hnew (hab ▸ ha)
    rw [fields, List.map_cons]
    constructor
    · intro h
      split at h
      · next d hd =>
        obtain ⟨f, hf, h⟩ := bind_eq_ok.1 h
        obtain ⟨hnew, hgiven, type, htype, hfield⟩ := fieldOfDeclaration_eq_ok.1 hf
        obtain ⟨fs, hfs, rfl, hdistinct⟩ := (ih (hnext f hnew)).1 h
        rw [List.append_assoc, List.singleton_append] at hdistinct ⊢
        refine ⟨f :: fs, ?_, rfl, hdistinct⟩
        rw [hfield]
        exact .field (declaration?_eq_some.1 hd) htype hgiven hfs
      · next hd =>
        split at h
        · next hword =>
          obtain ⟨fs, hfs, hall⟩ := (ih hknown).1 h
          refine ⟨fs, .skip hword (fun d hwritten => ?_) hfs, hall⟩
          rw [declaration?_eq_some.2 hwritten] at hd
          cases hd
        · cases h
    · rintro ⟨fs, hfs, rfl, hdistinct⟩
      cases hfs with
      | skip hword hnone hmore =>
        have hd : declaration? part = none :=
          Option.eq_none_iff_forall_ne_some.2 fun d hd => hnone d (declaration?_eq_some.1 hd)
        simp only [hd, if_pos hword]
        exact (ih hknown).2 ⟨fs, hmore, rfl, hdistinct⟩
      | @field d type _ _ fs hwritten htype hgiven hmore =>
        have hnew : String.ofList d.name ∉ known.map (·.name) := by
          intro hmem
          rw [List.map_append, List.nodup_append] at hdistinct
          exact hdistinct.2.2 _ hmem _ List.mem_cons_self rfl
        simp only [declaration?_eq_some.2 hwritten, bind_eq_ok]
        refine ⟨_, fieldOfDeclaration_eq_ok.2 ⟨hnew, hgiven, type, htype, rfl⟩, ?_⟩
        refine (ih (hnext _ hnew)).2 ⟨fs, hmore, ?_, ?_⟩
        · rw [List.append_assoc, List.singleton_append]
        · rwa [List.append_assoc, List.singleton_append]

/-- A body from which the enums are cut out, the rest being fields. -/
structure Block.IsStruct (b : Block) (s : StructDef) : Prop where
  closed : b.closed = true
  name : s.name = b.name
  enums : ∃ es, List.Forall₂ Block.IsEnum ((blocks enumAt? 0 b.body).1.map Prod.snd) es ∧
    (es.map (·.name)).Nodup ∧ s.enums = Table.addAll .empty (es.map EnumDef.row)
  braceless : Braceless (blocks enumAt? 0 b.body).2
  fields : Fields (segments (blocks enumAt? 0 b.body).2) s.fields
  distinct : (s.fields.map (·.name)).Nodup

/-- The blocks of a text and what is left do not depend on the offset. -/
theorem blocks_offset (find : List Char → Option (Block × Nat)) (offset : Nat)
    (text : List Char) :
    (blocks find offset text).1.map Prod.snd = (blocks find 0 text).1.map Prod.snd ∧
      (blocks find offset text).2 = (blocks find 0 text).2 := by
  have hshift := cutBlocks_shift find (rfl : mayStart none = mayStart none) offset 0 0 text
  rw [Nat.add_zero] at hshift
  unfold blocks
  rw [hshift, List.map_map]
  exact ⟨rfl, rfl⟩

theorem brace?_eq_none {offset : Nat} {left : List Char} :
    brace? offset left = none ↔ Braceless left := by
  refine ⟨brace_notMem, fun h => ?_⟩
  induction left generalizing offset with
  | nil => rfl
  | cons c rest ih =>
    simp only [Braceless, List.mem_cons, not_or] at h
    rw [brace?, if_neg (not_or.2 ⟨Ne.symm h.1.1, Ne.symm h.2.1⟩)]
    exact ih ⟨h.1.2, h.2.2⟩

theorem structOfBlock_eq_ok {offset : Nat} {b : Block} {s : StructDef} (hclosed : b.closed = true) :
    structOfBlock text offset b = .ok s ↔ b.IsStruct s := by
  obtain ⟨hblocks, hleft⟩ := blocks_offset enumAt? (offset + b.bodyAt) b.body
  have hfields (all : List Field) :
      fields text b.name [] (declarations (offset + b.bodyAt) (blocks enumAt? 0 b.body).2) =
          .ok all ↔
        Fields (segments (blocks enumAt? 0 b.body).2) all ∧ (all.map (·.name)).Nodup := by
    rw [fields_eq_ok (by simp), declarations_segments]
    simp
  rw [structOfBlock]
  simp only [bind_eq_ok, (enumsOfBlocks_collects _ _).eq_ok, hblocks, hleft]
  constructor
  · rintro ⟨enums, ⟨es, hes, hfresh, henums⟩, h⟩
    split at h
    · cases h
    · next hbrace =>
      obtain ⟨all, hall, h⟩ := bind_eq_ok.1 h
      obtain rfl := Except.ok.inj h
      obtain ⟨hall, hdistinct⟩ := (hfields all).1 hall
      exact ⟨hclosed, rfl, ⟨es, hes, Table.fresh_empty.1 hfresh, henums⟩, brace?_eq_none.1 hbrace,
        hall, hdistinct⟩
  · rintro ⟨-, hname, ⟨es, hes, hfresh, henums⟩, hbrace, hall, hdistinct⟩
    refine ⟨s.enums, ⟨es, hes, Table.fresh_empty.2 hfresh, henums⟩, ?_⟩
    rw [brace?_eq_none.2 hbrace]
    exact bind_eq_ok.2 ⟨s.fields, (hfields _).2 ⟨hall, hdistinct⟩, by rw [← hname]⟩

theorem structsOfBlocks_collects (text : List Char) :
    Collects text .structTwice (·.name) Block.IsStruct (structsOfBlocks text) where
  named hs := hs.name
  nil := rfl
  first h := by
    rw [structsOfBlocks] at h
    split at h
    · cases h
    · next hclosed =>
      split at h
      · cases h
      · next hnew =>
        obtain ⟨s, hs, -⟩ := bind_eq_ok.1 h
        exact ⟨Bool.eq_false_iff.2 hnew, s, (structOfBlock_eq_ok (by simpa using hclosed)).1 hs⟩
  next hs hnew := by
    rw [structsOfBlocks, if_neg (by simp [hs.closed]), if_neg (Bool.eq_false_iff.1 hnew),
      (structOfBlock_eq_ok hs.closed).2 hs]
    rfl
  again hs htwice := by rw [structsOfBlocks, if_neg (by simp [hs.closed]), if_pos htwice]

/-! ### Documents -/

/-- The blocks of the structs of a text without comments, and what is outside them. -/
def structBlocks (text : List Char) : List (Nat × Block) × List Char :=
  blocks structAt? 0 (stripComments text)

/-- The blocks of the enums outside the structs, and what is left. -/
def enumBlocks (text : List Char) : List (Nat × Block) × List Char :=
  blocks enumAt? 0 (structBlocks text).2

/-- What a text defines. -/
structure Defines (text : List Char) (ss : List StructDef) (es : List EnumDef) : Prop where
  structs : List.Forall₂ Block.IsStruct ((structBlocks text).1.map Prod.snd) ss
  enums : List.Forall₂ Block.IsEnum ((enumBlocks text).1.map Prod.snd) es
  structNames : (ss.map (·.name)).Nodup
  enumNames : (es.map (·.name)).Nodup
  left : Blanks (enumBlocks text).2

def documentOf (ss : List StructDef) (es : List EnumDef) : Document :=
  ⟨Table.ofList (ss.map StructDef.row), Table.ofList (es.map EnumDef.row)⟩

/-- A text is read just when all of it is definitions. -/
theorem document_eq_ok {d : Document} :
    document text = .ok d ↔ ∃ ss es, Defines text ss es ∧ d = documentOf ss es := by
  rw [document]
  simp only [bind_eq_ok, (structsOfBlocks_collects _).eq_ok, (enumsOfBlocks_collects _ _).eq_ok]
  constructor
  · rintro ⟨structs, ⟨ss, hss, hnames, rfl⟩, enums, ⟨es, hes, hnames', rfl⟩, h⟩
    split at h
    · next hskip =>
      obtain rfl := Except.ok.inj h
      exact ⟨ss, es, ⟨hss, hes, Table.fresh_empty.1 hnames, Table.fresh_empty.1 hnames',
        Text.skipBlanks_eq_nil.1 hskip⟩, rfl⟩
    · cases h
  · rintro ⟨ss, es, ⟨hss, hes, hnames, hnames', hleft⟩, rfl⟩
    refine ⟨_, ⟨ss, hss, Table.fresh_empty.2 hnames, rfl⟩, _,
      ⟨es, hes, Table.fresh_empty.2 hnames', rfl⟩, ?_⟩
    have hskip : Text.skipBlanks (blocks enumAt? 0 (blocks structAt? 0 (stripComments text)).2).2 =
        [] := hleft.skip
    rw [hskip]
    rfl

end Schema

end WireSchema
