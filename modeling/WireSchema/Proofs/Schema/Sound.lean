import WireSchema.Proofs.Schema.Reading

/-! What the text of a schema looks like that is read. The structs are whole blocks of it, the
enums are whole blocks of what the structs leave, and nothing but blanks is left then; the
body of each block splits into parts of the right form. The text itself need not be laid
out as strictly: a block may stand inside the body of another. -/

namespace WireSchema

open Text (Blanks)

namespace Schema

variable {text : List Char} {d : Document}

/-! ### Blocks of the text -/

/-- A struct as its block has it: enums are cut out of the body and fields are left. -/
inductive Block.DefinesStruct (b : Block) : StructDef → Prop
  | mk {locals : List Block} {rest : List Char} {es : List EnumDef} {fs : List Field}
      (cut : Cut "enum" Braceless b.body locals rest) (braceless : Braceless rest)
      (enums : List.Forall₂ Block.IsEnum locals es) (enumNames : (es.map (·.name)).Nodup)
      (fields : Fields (segments rest) fs) (fieldNames : (fs.map (·.name)).Nodup) :
      Block.DefinesStruct b ⟨b.name, fs, Table.ofList (es.map EnumDef.row)⟩

/-- A text without comments that holds the blocks of a document and nothing else. -/
inductive Accepted (text : List Char) : Document → Prop
  | mk {structs globals : List Block} {outside left : List Char} {ss : List StructDef}
      {es : List EnumDef} (cutStructs : Cut "struct" Balanced text structs outside)
      (cutEnums : Cut "enum" Braceless outside globals left) (nothing : Blanks left)
      (structDefs : List.Forall₂ Block.DefinesStruct structs ss)
      (enumDefs : List.Forall₂ Block.IsEnum globals es)
      (structNames : (ss.map (·.name)).Nodup) (enumNames : (es.map (·.name)).Nodup) :
      Accepted text (documentOf ss es)

theorem enumAt?_cut (text : List Char) :
    Cut "enum" Braceless text ((blocks enumAt? 0 text).1.map Prod.snd) (blocks enumAt? 0 text).2 :=
  (enumAt?_finder.run 0 fun _ _ => trivial).cut 0

theorem Block.IsStruct.definesStruct {b : Block} {s : StructDef} (h : b.IsStruct s) :
    b.DefinesStruct s := by
  obtain ⟨name, fields, enums⟩ := s
  obtain ⟨-, hname, ⟨es, hes, hnames, henums⟩, hbraceless, hfields, hdistinct⟩ := h
  obtain rfl : name = b.name := hname
  obtain rfl : enums = Table.ofList (es.map EnumDef.row) := henums
  exact ⟨enumAt?_cut b.body, hbraceless, hes, hnames, hfields, hdistinct⟩

/-- Each block that stands for a struct is closed. -/
theorem closed_of_forall₂ {found : List (Nat × Block)} {ss : List StructDef}
    (h : List.Forall₂ Block.IsStruct (found.map Prod.snd) ss) :
    ∀ block ∈ found, block.2.closed = true := by
  intro block hblock
  obtain ⟨i, hi, hget⟩ := List.mem_iff_getElem.1 (List.mem_map_of_mem (f := Prod.snd) hblock)
  rw [← hget]
  exact (List.Forall₂.get h hi (h.length_eq ▸ hi)).closed

theorem Defines.cutStructs {ss : List StructDef} {es : List EnumDef} (h : Defines text ss es) :
    Cut "struct" Balanced (stripComments text) ((structBlocks text).1.map Prod.snd)
      (structBlocks text).2 :=
  (structAt?_finder.run 0 (closed_of_forall₂ h.structs)).cut 0

theorem Defines.accepted {ss : List StructDef} {es : List EnumDef} (h : Defines text ss es) :
    Accepted (stripComments text) (documentOf ss es) :=
  ⟨h.cutStructs, enumAt?_cut _, h.left, h.structs.imp fun _ _ => Block.IsStruct.definesStruct,
    h.enums, h.structNames, h.enumNames⟩

/-! ### The strict layout -/

/-- A body of whole entries between semicolons. -/
def StrictEnum (body : List Char) : Prop :=
  Braceless body ∧ ∀ part ∈ segments body, ∃ name literal, Entry name literal part

/-- A part of a struct that holds nothing, one word or a declaration. -/
def StrictPart (part : List Char) : Prop :=
  Braceless part ∧ ';' ∉ part ∧
    (Text.trim part = [] ∨ isOneWord (Text.trim part) ∨
      ∃ d : Declaration, d.Written (Text.trim part))

/-- A body of declarations with whole enums between them. -/
inductive StrictStruct : List Char → Prop
  | last {part : List Char} (h : StrictPart part) : StrictStruct part
  | part {part rest : List Char} (h : StrictPart part) (more : StrictStruct rest) :
      StrictStruct (part ++ ';' :: rest)
  | enum {b : Block} {space piece rest : List Char} (hspace : Blanks space)
      (written : b.Written "enum" piece) (body : StrictEnum b.body) (more : StrictStruct rest) :
      StrictStruct (space ++ (piece ++ rest))

/-- Whole blocks one after another, no block inside another but an enum between declarations. -/
inductive Strict : List Char → Prop
  | nothing {space : List Char} (hspace : Blanks space) : Strict space
  | struct {b : Block} {space piece rest : List Char} (hspace : Blanks space)
      (written : b.Written "struct" piece) (body : StrictStruct b.body) (more : Strict rest) :
      Strict (space ++ (piece ++ rest))
  | enum {b : Block} {space piece rest : List Char} (hspace : Blanks space)
      (written : b.Written "enum" piece) (body : StrictEnum b.body) (more : Strict rest) :
      Strict (space ++ (piece ++ rest))

theorem space_eq_nil {space rest : List Char} (hspace : Blanks space)
    (hfirst : ∀ c ∈ (space ++ rest).head?, ¬Text.isBlank c) : space = [] := by
  cases space with
  | nil => rfl
  | cons c space => exact absurd (hspace c List.mem_cons_self) (hfirst c rfl)

/-- A strict text that starts with no blank starts with a block. -/
theorem Strict.starts {c : Char} (h : Strict text) (hc : text.head? = some c)
    (hblank : ¬Text.isBlank c) :
    (head? "struct".toList text).isSome ∨ (enumAt? text).isSome := by
  have hfirst : ∀ d ∈ text.head?, ¬Text.isBlank d := fun d hd => by
    rw [hc, Option.mem_some] at hd
    exact hd ▸ hblank
  cases h with
  | nothing hspace => exact absurd (hspace c (List.mem_of_head? hc)) hblank
  | struct hspace written _ _ =>
    obtain rfl := space_eq_nil hspace hfirst
    obtain ⟨opening, hopening, -, rfl⟩ := written.text
    left
    rw [List.nil_append, List.append_assoc, head?_of_opening hopening]
    rfl
  | @enum b space piece rest hspace written body _ =>
    obtain rfl := space_eq_nil hspace hfirst
    right
    rw [List.nil_append, enumAt?_of_written written body.1 rest]
    rfl

end Schema

namespace Document

open Schema

/-- A text that is read holds the blocks of the document and nothing else. -/
theorem parse_accepted {text : String} {d : Document} (h : parse text = .ok d) :
    Accepted (stripComments text.toList) d := by
  obtain ⟨ss, es, hdefines, rfl⟩ := document_eq_ok.1 h
  exact hdefines.accepted

/-- An enum with a struct inside an entry. -/
theorem parse_accepted_entry :
    Accepted (stripComments "enum E { A struct S { bool b; } = 5; }".toList)
      (documentOf [⟨"S", [⟨"b", .bool, none⟩], .empty⟩] [⟨"E", [⟨"A", 5⟩]⟩]) :=
  parse_accepted (by decide +kernel)

/-- A struct inside an entry of an enum: it is cut out first, and the entry is read without it. -/
theorem parse_struct_in_entry :
    ∃ d, parse "enum E { A struct S { bool b; } = 5; }" = .ok d ∧
      ¬Strict (stripComments "enum E { A struct S { bool b; } = 5; }".toList) := by
  refine ⟨documentOf [⟨"S", [⟨"b", .bool, none⟩], .empty⟩] [⟨"E", [⟨"A", 5⟩]⟩],
    by decide +kernel, fun h => ?_⟩
  obtain h | h := h.starts (c := 'e') (by decide +kernel) (by decide)
  · exact absurd h (by decide +kernel)
  · exact absurd h (by decide +kernel)

end Document

end WireSchema
