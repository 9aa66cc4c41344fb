import WireSchema.Proofs.Schema.Place
import WireSchema.Proofs.Text.Position

/-! Where a syntax fault is. Every fault is at an offset where the copy at hand shows something, so
the text as it was given has a character there that is neither blank nor in a comment. A
declaration that repeats a name is the later one of two that stand in the text. -/

namespace WireSchema

open Outcome

namespace Schema

/-! ### Repeated names -/

/-- Whether a fault is about a name that is there twice. -/
def SyntaxCause.isTwice : SyntaxCause → Bool
  | .structTwice _ | .enumTwice _ | .localEnumTwice _ _ | .fieldTwice _ _ => true
  | _ => false

/-- Two declarations of one name, and the offsets where they start: two structs, two enums outside
the structs, two enums in one struct, or two fields of one struct. -/
inductive Twice (text : List Char) : SyntaxCause → (first later : Nat) → Prop
  | struct {first later : Nat} {b b' : Block} (order : first < later)
      (found : [(first, b), (later, b')].Sublist (structBlocks text).1) (same : b.name = b'.name)
      (placed : b.Placed "struct" text first) (placed' : b'.Placed "struct" text later) :
      Twice text (.structTwice b'.name) first later
  | enum {first later : Nat} {b b' : Block} (order : first < later)
      (found : [(first, b), (later, b')].Sublist (enumBlocks text).1) (same : b.name = b'.name)
      (placed : b.Placed "enum" text first) (placed' : b'.Placed "enum" text later) :
      Twice text (.enumTwice b'.name) first later
  | localEnum {start first later : Nat} {s b b' : Block} (order : first < later)
      (inside : (start, s) ∈ (structBlocks text).1)
      (found : [(first, b), (later, b')].Sublist (blocks enumAt? (start + s.bodyAt) s.body).1)
      (same : b.name = b'.name) (placed : b.Placed "enum" text first)
      (placed' : b'.Placed "enum" text later) :
      Twice text (.localEnumTwice b'.name s.name) first later
  | field {start first later : Nat} {s : Block} {part part' : List Char} {d d' : Declaration}
      (order : first < later) (inside : (start, s) ∈ (structBlocks text).1)
      (found : [(first, part), (later, part')].Sublist
        (declarations (start + s.bodyAt) (blocks enumAt? (start + s.bodyAt) s.body).2))
      (declared : declaration? part = some d) (declared' : declaration? part' = some d')
      (same : d.name = d'.name) (placed : StandsAt text first d.type)
      (placed' : StandsAt text later d'.type) :
      Twice text (.fieldTwice (String.ofList d'.name) s.name) first later

section Repeats
variable {γ : Type} {name? : γ → Option String} {known known' : String → Bool}
  {found more : List (Nat × γ)} {first entry : Nat × γ}

/-- The name of an entry is known before all of them, or an earlier one has it. -/
def Repeats (name? : γ → Option String) (known : String → Bool) (found : List (Nat × γ))
    (entry : Nat × γ) : Prop :=
  ∃ name, name? entry.2 = some name ∧
    ((entry ∈ found ∧ known name) ∨
      ∃ first, [first, entry].Sublist found ∧ name? first.2 = some name)

/-- Of the names that are known behind an entry, the entry may have the one that is new. -/
theorem Repeats.cons (h : Repeats name? known' more entry)
    (hk : ∀ name, known' name → known name ∨ name? first.2 = some name) :
    Repeats name? known (first :: more) entry := by
  obtain ⟨name, hname, ⟨hmem, hknown⟩ | ⟨second, hsub, hsecond⟩⟩ := h
  · obtain hknown | hfirst := hk name hknown
    · exact ⟨name, hname, .inl ⟨List.mem_cons_of_mem _ hmem, hknown⟩⟩
    · have hsub : [first, entry].Sublist (first :: more) :=
        (List.singleton_sublist.2 hmem).cons_cons first
      exact ⟨name, hname, .inr ⟨first, hsub, hfirst⟩⟩
  · exact ⟨name, hname, .inr ⟨second, hsub.cons first, hsecond⟩⟩

/-- Where nothing is known before, two entries have the name, one further on than the other. -/
theorem Repeats.pair (h : Repeats name? (fun _ => false) found entry)
    (ha : found.Pairwise (·.1 < ·.1)) :
    ∃ first, first.1 < entry.1 ∧ [first, entry].Sublist found ∧ name? first.2 = name? entry.2 := by
  obtain ⟨name, hname, ⟨-, hknown⟩ | ⟨first, hsub, hfirst⟩⟩ := h
  · cases hknown
  · have hpair := ha.sublist hsub
    exact ⟨first, List.rel_of_pairwise_cons hpair List.mem_cons_self, hsub, hfirst.trans hname.symm⟩

end Repeats

/-! ### Blame -/

/-- A fault is at an offset where a character stands that is neither blank nor in a comment, and if
a name is there twice, the later declaration of it starts there. -/
def Blames (text : List Char) (cause : SyntaxCause) (p : Position) : Prop :=
  ∃ offset, p = .ofOffset text offset ∧ Legible text offset ∧
    (cause.isTwice → ∃ first, Twice text cause first offset)

variable {text : List Char} {cause : SyntaxCause} {p : Position}

theorem faultAt_eq {α : Type} {offset : Nat} {cause' : SyntaxCause}
    (h : (faultAt text offset cause' : Except Fault α) = .error (.badText cause p)) :
    cause' = cause ∧ p = .ofOffset text offset := by
  obtain ⟨rfl, rfl⟩ := Fault.badText.inj (Except.error.inj h)
  exact ⟨rfl, rfl⟩

/-- A fault that is not about a name. -/
theorem Blames.of_faultAt {α : Type} {offset : Nat} {cause' : SyntaxCause}
    (h : (faultAt text offset cause' : Except Fault α) = .error (.badText cause p))
    (hc : Legible text offset) (ht : cause'.isTwice = false) :
    Blames text cause p := by
  obtain ⟨rfl, rfl⟩ := faultAt_eq h
  exact ⟨offset, rfl, hc, fun htwice => by rw [ht] at htwice; cases htwice⟩

/-! ### Enums -/

theorem entryCode_blames {enum : String} {offset : Nat} {name : List Char}
    {literal : Option (List Char)} {next : Option Int64}
    (hc : Legible text offset)
    (h : entryCode text enum offset name literal next = .error (.badText cause p)) :
    Blames text cause p := by
  rw [entryCode.eq_def] at h
  split at h
  · split at h
    · cases h
    · exact .of_faultAt h hc rfl
  · cases h
  · exact .of_faultAt h hc rfl

theorem members_blames {enum : String} {next : Option Int64} {parts : List (Nat × List Char)}
    (hparts : ∀ entry ∈ parts, Legible text entry.1)
    (h : members text enum next parts = .error (.badText cause p)) : Blames text cause p := by
  induction parts generalizing next with
  | nil => cases h
  | cons first more ih =>
    obtain ⟨offset, entry⟩ := first
    rw [List.forall_mem_cons] at hparts
    rw [members] at h
    split at h
    · exact .of_faultAt h hparts.1 rfl
    · obtain h | ⟨code, -, h⟩ := bind_eq_error.1 h
      · exact entryCode_blames hparts.1 h
      · obtain h | ⟨later, -, h⟩ := bind_eq_error.1 h
        · exact ih hparts.2 h
        · cases h

theorem enumOfBlock_blames {keyword : String} {offset : Nat} {b : Block}
    (hb : b.Placed keyword text offset)
    (h : enumOfBlock text offset b = .error (.badText cause p)) : Blames text cause p := by
  obtain h | ⟨ms, -, h⟩ := bind_eq_error.1 h
  · exact members_blames (fun entry hentry => (hb.body.declarations entry hentry).1) h
  · cases h

/-- A name that is put into the table is the name of the block. -/
theorem repeats_insert {α : Type} {known : Table α} {offset : Nat} {b : Block} {v : α}
    {more : List (Nat × Block)} {entry : Nat × Block}
    (h : Repeats (some ·.name) (Table.insert known b.name v).contains more entry) :
    Repeats (some ·.name) known.contains ((offset, b) :: more) entry := by
  refine h.cons fun name hname => ?_
  rw [Table.contains_insert, Bool.or_eq_true, decide_eq_true_eq] at hname
  exact hname.symm.imp_right (congrArg some)

/-- A block whose name is known repeats it. -/
theorem repeats_head {α : Type} {known : Table α} {offset : Nat} {b : Block}
    {more : List (Nat × Block)} (h : known.contains b.name) :
    Repeats (some ·.name) known.contains ((offset, b) :: more) (offset, b) :=
  ⟨b.name, rfl, .inl ⟨List.mem_cons_self, h⟩⟩

theorem enumsOfBlocks_fault {twice : String → SyntaxCause} {known : Table EnumDef}
    {found : List (Nat × Block)}
    (h : enumsOfBlocks text twice known found = .error (.badText cause p)) :
    (∃ entry ∈ found, enumOfBlock text entry.1 entry.2 = .error (.badText cause p)) ∨
      ∃ entry, Repeats (some ·.name) known.contains found entry ∧ twice entry.2.name = cause ∧
        p = .ofOffset text entry.1 := by
  induction found generalizing known with
  | nil => cases h
  | cons first more ih =>
    obtain ⟨offset, b⟩ := first
    rw [enumsOfBlocks] at h
    split at h
    · next hknown => exact .inr ⟨(offset, b), repeats_head hknown, faultAt_eq h⟩
    · obtain h | ⟨e, -, h⟩ := bind_eq_error.1 h
      · exact .inl ⟨_, List.mem_cons_self, h⟩
      · obtain ⟨entry, hentry, h⟩ | ⟨entry, hrepeats, h⟩ := ih h
        · exact .inl ⟨entry, List.mem_cons_of_mem _ hentry, h⟩
        · exact .inr ⟨entry, repeats_insert hrepeats, h⟩

/-- Enums are at fault in one of them, or where one repeats the name of an earlier one. -/
theorem enums_blames {copy : List Char} {base : Nat} {twice : String → SyntaxCause}
    (hs : Shown text base copy)
    (htwice : ∀ first b later b', first < later →
      [(first, b), (later, b')].Sublist (blocks enumAt? base copy).1 → b.name = b'.name →
        b.Placed "enum" text first → b'.Placed "enum" text later →
          Twice text (twice b'.name) first later)
    (h : enumsOfBlocks text twice .empty (blocks enumAt? base copy).1 =
      .error (.badText cause p)) : Blames text cause p := by
  obtain ⟨hplaced, -⟩ := hs.enums
  obtain ⟨entry, hentry, h⟩ | ⟨⟨later, b'⟩, hrepeats, rfl, rfl⟩ := enumsOfBlocks_fault h
  · exact enumOfBlock_blames (hplaced entry hentry) h
  · obtain ⟨⟨first, b⟩, horder, hsub, hname⟩ := hrepeats.pair (cutBlocks_ascend ..)
    have hfirst := hplaced _ (hsub.subset List.mem_cons_self)
    have hlater := hplaced _ (hsub.subset (List.mem_cons_of_mem _ List.mem_cons_self))
    exact ⟨later, rfl, hlater.opened.legible (solid_identifier (by decide)), fun _ =>
      ⟨first, htwice first b later b' horder hsub (Option.some.inj hname) hfirst hlater⟩⟩

/-! ### Structs -/

theorem fieldOfDeclaration_fault {struct : String} {known : List Field} {offset : Nat}
    {d : Declaration}
    (h : fieldOfDeclaration text struct known offset d = .error (.badText cause p)) :
    p = .ofOffset text offset ∧ (cause.isTwice = false ∨
      known.any (·.name == String.ofList d.name) ∧
        .fieldTwice (String.ofList d.name) struct = cause) := by
  rw [fieldOfDeclaration] at h
  split at h
  · next hknown =>
    obtain ⟨rfl, rfl⟩ := faultAt_eq h
    exact ⟨rfl, .inr ⟨hknown, rfl⟩⟩
  · split at h
    · obtain ⟨rfl, rfl⟩ := faultAt_eq h
      exact ⟨rfl, .inl rfl⟩
    · obtain h | ⟨type, -, h⟩ := bind_eq_error.1 h
      · obtain ⟨cause, hbounds, -⟩ := fieldType_eq_error h
        cases hbounds
      · cases h

/-- The name that a part declares. -/
def declared? (part : List Char) : Option String := (declaration? part).map (String.ofList ·.name)

theorem fields_fault {struct : String} {known : List Field} {parts : List (Nat × List Char)}
    (h : fields text struct known parts = .error (.badText cause p)) :
    ∃ entry ∈ parts, p = .ofOffset text entry.1 ∧ (cause.isTwice = false ∨
      Repeats declared? (fun name => known.any (·.name == name)) parts entry ∧
        ∃ name, declared? entry.2 = some name ∧ .fieldTwice name struct = cause) := by
  induction parts generalizing known with
  | nil => cases h
  | cons first more ih =>
    obtain ⟨offset, part⟩ := first
    have hlater {known' : List Field} (h : fields text struct known' more =
        .error (.badText cause p)) (hk : ∀ name, known'.any (·.name == name) →
          known.any (·.name == name) ∨ declared? part = some name) :
        ∃ entry ∈ (offset, part) :: more, p = .ofOffset text entry.1 ∧ (cause.isTwice = false ∨
          Repeats declared? (fun name => known.any (·.name == name)) ((offset, part) :: more)
            entry ∧ ∃ name, declared? entry.2 = some name ∧ .fieldTwice name struct = cause) := by
      obtain ⟨entry, hentry, hp, hcause⟩ := ih h
      exact ⟨entry, List.mem_cons_of_mem _ hentry, hp,
        hcause.imp_right fun ⟨hrepeats, hname⟩ => ⟨hrepeats.cons hk, hname⟩⟩
    rw [fields] at h
    split at h
    · next d hd =>
      have hdeclared : declared? part = some (String.ofList d.name) := by rw [declared?, hd]; rfl
      obtain h | ⟨f, hf, h⟩ := bind_eq_error.1 h
      · obtain ⟨hp, hcause⟩ := fieldOfDeclaration_fault h
        refine ⟨(offset, part), List.mem_cons_self, hp, hcause.imp_right ?_⟩
        rintro ⟨hknown, hcause⟩
        exact ⟨⟨_, hdeclared, .inl ⟨List.mem_cons_self, hknown⟩⟩, _, hdeclared, hcause⟩
      · obtain ⟨-, -, type, -, rfl⟩ := fieldOfDeclaration_eq_ok.1 hf
        refine hlater h fun name hname => ?_
        rw [List.any_append, Bool.or_eq_true, List.any_cons, List.any_nil, Bool.or_false,
          beq_iff_eq] at hname
        exact hname.imp_right fun hname => hdeclared.trans (congrArg some hname)
    · split at h
      · exact hlater h fun name hname => .inl hname
      · obtain ⟨rfl, rfl⟩ := faultAt_eq h
        exact ⟨(offset, part), List.mem_cons_self, rfl, .inl rfl⟩

/-- The fields of a struct are at fault in one of them, or where one repeats the name of an earlier
one. -/
theorem fields_blames {start : Nat} {s : Block} {left : List Char}
    (hinside : (start, s) ∈ (structBlocks text).1)
    (hleft : left = (blocks enumAt? (start + s.bodyAt) s.body).2)
    (hs : Shown text (start + s.bodyAt) left)
    (h : fields text s.name [] (declarations (start + s.bodyAt) left) = .error (.badText cause p)) :
    Blames text cause p := by
  obtain ⟨⟨later, part'⟩, hentry, rfl, hcause⟩ := fields_fault h
  obtain ⟨hlegible, hword'⟩ := hs.declarations _ hentry
  refine ⟨later, rfl, hlegible, fun htwice => ?_⟩
  obtain hcause | ⟨hrepeats, name, hname, rfl⟩ := hcause
  · rw [hcause] at htwice
    cases htwice
  · obtain ⟨⟨first, part⟩, horder, hsub, hsame⟩ := Repeats.pair hrepeats (trimmedParts_ascend ..)
    obtain ⟨-, hword⟩ := hs.declarations _ (hsub.subset List.mem_cons_self)
    dsimp only at hname hsame
    rw [hname] at hsame
    obtain ⟨d, hd, hdname⟩ := Option.map_eq_some_iff.1 hsame
    obtain ⟨d', hd', rfl⟩ := Option.map_eq_some_iff.1 hname
    obtain ⟨more, hpart⟩ := declaration?_type hd
    obtain ⟨more', hpart'⟩ := declaration?_type hd'
    exact ⟨first, .field horder hinside (hleft ▸ hsub) hd hd' (String.ofList_injective hdname)
      (hword _ more hpart (solid_identifier (declaration?_stands hd).type))
      (hword' _ more' hpart' (solid_identifier (declaration?_stands hd').type))⟩

theorem structOfBlock_blames {offset : Nat} {b : Block}
    (hinside : (offset, b) ∈ (structBlocks text).1) (hb : b.Placed "struct" text offset)
    (h : structOfBlock text offset b = .error (.badText cause p)) : Blames text cause p := by
  obtain ⟨-, hleft⟩ := hb.body.enums
  obtain h | ⟨enums, -, h⟩ := bind_eq_error.1 h
  · refine enums_blames hb.body ?_ h
    exact fun first e later e' horder hfound hsame hplaced hplaced' =>
      .localEnum horder hinside hfound hsame hplaced hplaced'
  · split at h
    · next hbrace => exact .of_faultAt h (hleft.brace hbrace) rfl
    · obtain h | ⟨fs, -, h⟩ := bind_eq_error.1 h
      · exact fields_blames hinside rfl hleft h
      · cases h

theorem structsOfBlocks_fault {known : Table StructDef} {found : List (Nat × Block)}
    (h : structsOfBlocks text known found = .error (.badText cause p)) :
    (∃ entry ∈ found, structOfBlock text entry.1 entry.2 = .error (.badText cause p) ∨
      faultAt text (entry.1 + entry.2.bodyAt - 1) (.unclosedStruct entry.2.name) =
        (.error (.badText cause p) : Except Fault StructDef)) ∨
      ∃ entry, Repeats (some ·.name) known.contains found entry ∧
        .structTwice entry.2.name = cause ∧ p = .ofOffset text entry.1 := by
  induction found generalizing known with
  | nil => cases h
  | cons first more ih =>
    obtain ⟨offset, b⟩ := first
    rw [structsOfBlocks] at h
    split at h
    · obtain ⟨rfl, rfl⟩ := faultAt_eq h
      exact .inl ⟨_, List.mem_cons_self, .inr rfl⟩
    · split at h
      · next hknown => exact .inr ⟨(offset, b), repeats_head hknown, faultAt_eq h⟩
      · obtain h | ⟨s, -, h⟩ := bind_eq_error.1 h
        · exact .inl ⟨_, List.mem_cons_self, .inl h⟩
        · obtain ⟨entry, hentry, h⟩ | ⟨entry, hrepeats, h⟩ := ih h
          · exact .inl ⟨entry, List.mem_cons_of_mem _ hentry, h⟩
          · exact .inr ⟨entry, repeats_insert hrepeats, h⟩

theorem structs_blames
    (h : structsOfBlocks text .empty (structBlocks text).1 = .error (.badText cause p)) :
    Blames text cause p := by
  obtain ⟨hplaced, -⟩ := (shown_strip text).structs
  obtain ⟨entry, hentry, h | h⟩ | ⟨⟨later, b'⟩, hrepeats, rfl, rfl⟩ := structsOfBlocks_fault h
  · exact structOfBlock_blames hentry (hplaced entry hentry) h
  · have hbrace := (hplaced entry hentry).brace.legible (solid_singleton (by decide))
    exact .of_faultAt h hbrace rfl
  · obtain ⟨⟨first, b⟩, horder, hsub, hname⟩ := hrepeats.pair (cutBlocks_ascend ..)
    have hfirst := hplaced _ (hsub.subset List.mem_cons_self)
    have hlater := hplaced _ (hsub.subset (List.mem_cons_of_mem _ List.mem_cons_self))
    exact ⟨later, rfl, hlater.opened.legible (solid_identifier (by decide)), fun _ =>
      ⟨first, .struct horder hsub (Option.some.inj hname) hfirst hlater⟩⟩

/-! ### Documents -/

theorem document_blames (h : document text = .error (.badText cause p)) : Blames text cause p := by
  obtain ⟨-, houtside⟩ := (shown_strip text).structs
  obtain ⟨-, hleft⟩ := houtside.enums
  rw [document] at h
  obtain h | ⟨structs, -, h⟩ := bind_eq_error.1 h
  · exact structs_blames h
  · obtain h | ⟨enums, -, h⟩ := bind_eq_error.1 h
    · refine enums_blames houtside ?_ h
      exact fun first e later e' horder hfound hsame hplaced hplaced' =>
        .enum horder hfound hsame hplaced hplaced'
    · split at h
      · cases h
      · next hrest => exact .of_faultAt h (hleft.rest hrest) rfl

theorem Twice.lt {first later : Nat} (h : Twice text cause first later) : first < later := by
  cases h <;> assumption

end Schema

namespace Document

open Schema

/-- A syntax fault has the place of one byte of the text and of no other. A character begins there
that is neither blank nor in a comment. If a name is there twice, the later of two declarations
of that name starts there. -/
theorem parse_located {text : String} {cause : SyntaxCause} {p : Position}
    (h : parse text = .error (.badText cause p)) :
    ∃ offset < Utf8.size text.toList, Position.ofOffset text.toList offset = p ∧
      (∀ other < Utf8.size text.toList, Position.ofOffset text.toList other = p →
        other = offset) ∧
      (∃ before c after, text.toList = before ++ c :: after ∧ Utf8.size before = offset ∧
        ¬Text.isBlank c) ∧
      ¬InComment text.toList offset ∧
      (cause.isTwice → ∃ first < offset, Twice text.toList cause first offset) := by
  obtain ⟨offset, rfl, ⟨c, hc, hstands⟩, htwice⟩ := document_blames h
  have hlt := hstands.place.lt (List.cons_ne_nil c [])
  obtain ⟨⟨before, after, htext, hsize⟩, hout⟩ := hstands
  refine ⟨offset, hlt, rfl, fun other hother hp => ?_, ⟨before, c, after, htext, hsize, hc⟩, hout,
    fun hcause => ?_⟩
  · exact Position.ofOffset_inj (Nat.le_of_lt hother) (Nat.le_of_lt hlt) hp
  · obtain ⟨first, hfirst⟩ := htwice hcause
    exact ⟨first, hfirst.lt, hfirst⟩

/-- An enum in a struct that is there twice, behind a comment with characters of two bytes. -/
def twiceText : String :=
  "// \u00e9\u00e9\nstruct S \x7b enum E \x7b A; \x7d any f; enum E \x7b B; \x7d \x7d"

theorem parse_located_twice :
    parse twiceText = .error (.badText (.localEnumTwice "E" "S") ⟨2, 33⟩) ∧
      ∃ offset < Utf8.size twiceText.toList, Position.ofOffset twiceText.toList offset = ⟨2, 33⟩ ∧
        ¬InComment twiceText.toList offset ∧
        ∃ first < offset, Twice twiceText.toList (.localEnumTwice "E" "S") first offset := by
  have hfault : parse twiceText = .error (.badText (.localEnumTwice "E" "S") ⟨2, 33⟩) := by
    decide +kernel
  obtain ⟨offset, hlt, hp, -, -, hout, htwice⟩ := parse_located hfault
  exact ⟨hfault, offset, hlt, hp, hout, htwice rfl⟩

end Document

end WireSchema
