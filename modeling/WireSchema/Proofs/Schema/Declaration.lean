import WireSchema.Proofs.Schema.Block
import WireSchema.Schema.Declaration

/-! Declarations as they are read. A declaration stands between semicolons of its body, its
names are identifiers, and a default literal is a part of it without blanks around. -/

namespace WireSchema.Schema

variable {text : List Char}

/-! ### Parts -/

theorem trimmedParts_stand {offset place : Nat} {parts : List (List Char)} {part : List Char}
    (h : (place, part) ∈ trimmedParts offset parts) : ∃ whole ∈ parts, part <:+: whole := by
  induction parts generalizing offset with
  | nil => simp [trimmedParts] at h
  | cons first more ih =>
    have hlater (hl : (place, part) ∈ trimmedParts (offset + Utf8.size first + 1) more) :
        ∃ whole ∈ first :: more, part <:+: whole := by
      obtain ⟨whole, hmem, hin⟩ := ih hl
      exact ⟨whole, List.mem_cons_of_mem _ hmem, hin⟩
    rw [trimmedParts] at h
    split at h
    · exact hlater h
    · obtain h | h := List.mem_cons.1 h
      · rw [Prod.mk.injEq] at h
        exact ⟨first, List.mem_cons_self, h.2 ▸ Text.trim_infix first⟩
      · exact hlater h

theorem declarations_stand {offset place : Nat} {body part : List Char}
    (h : (place, part) ∈ declarations offset body) : part <:+: body ∧ ';' ∉ part := by
  obtain ⟨whole, hmem, hin⟩ := trimmedParts_stand h
  exact ⟨hin.trans (Text.infix_of_mem_split hmem),
    fun hs => Text.notMem_of_mem_split hmem (hin.subset hs)⟩

/-! ### Entries and fields -/

theorem entry?_isIdentifier {name : List Char} {literal : Option (List Char)}
    (h : entry? text = some (name, literal)) : Text.isIdentifier name := by
  unfold entry? at h
  simp only [Option.bind_eq_bind, Option.bind_eq_some_iff] at h
  obtain ⟨⟨found, rest⟩, hname, h⟩ := h
  have hident := Text.identifier?_isIdentifier hname
  split at h
  · simp only [Option.some.injEq, Prod.mk.injEq] at h
    exact h.1 ▸ hident
  · split at h
    · simp only [Option.some.injEq, Prod.mk.injEq] at h
      exact h.1 ▸ hident
    · cases h
  · cases h

theorem brackets?_suffix {brackets rest : List Char} (h : brackets? text = some (brackets, rest)) :
    rest <:+ text := by
  rw [brackets?.eq_def] at h
  split at h
  · next inside =>
    simp only at h
    split at h
    · next after hafter =>
      simp only [Option.some.injEq, Prod.mk.injEq] at h
      obtain ⟨-, rfl⟩ := h
      have hclose : ']' :: after <:+ inside := hafter ▸ List.drop_suffix _ inside
      exact ((List.suffix_cons _ after).trans hclose).trans (List.suffix_cons _ inside)
    · cases h
  · cases h

theorem separator?_suffix {brackets : Option (List Char)} {rest : List Char}
    (h : separator? text = some (brackets, rest)) : rest <:+ text := by
  have hskip := Text.skipBlanks_suffix text
  rw [separator?] at h
  split at h
  · next inside htext =>
    simp only [Option.bind_eq_bind, Option.bind_eq_some_iff] at h
    obtain ⟨⟨found, after⟩, hfound, h⟩ := h
    simp only [Option.some.injEq, Prod.mk.injEq] at h
    obtain ⟨-, rfl⟩ := h
    have hafter : after <:+ text := (brackets?_suffix hfound).trans (htext ▸ hskip)
    exact (Text.skipBlanks_suffix after).trans hafter
  · split at h
    · simp only [Option.some.injEq, Prod.mk.injEq] at h
      exact h.2 ▸ hskip
    · cases h

/-- What is known of the declaration of a field. -/
structure Declaration.Stands (d : Declaration) (text : List Char) : Prop where
  type : Text.isIdentifier d.type
  name : Text.isIdentifier d.name
  default : ∀ raw, d.default = some raw → raw <:+: text ∧ Text.Trimmed raw

theorem declaration?_stands {d : Declaration} (h : declaration? text = some d) :
    d.Stands text := by
  simp only [declaration?, Option.bind_eq_bind, Option.bind_eq_some_iff] at h
  obtain ⟨⟨type, afterType⟩, htype, ⟨brackets, afterBrackets⟩, hbrackets, ⟨name, afterName⟩,
    hname, h⟩ := h
  have hsep : afterBrackets <:+ text :=
    (separator?_suffix hbrackets).trans (identifier?_suffix htype)
  have hafter : afterName <:+ text := (identifier?_suffix hname).trans hsep
  split at h
  · cases h
    exact ⟨Text.identifier?_isIdentifier htype, Text.identifier?_isIdentifier hname, by simp⟩
  · next rest hcolon =>
    cases h
    refine ⟨Text.identifier?_isIdentifier htype, Text.identifier?_isIdentifier hname, ?_⟩
    intro raw hraw
    rw [Option.some.injEq] at hraw
    have hrest : ':' :: rest <:+ text := (hcolon ▸ Text.skipBlanks_suffix afterName).trans hafter
    have hin : rest <:+: text := ((List.suffix_cons _ rest).trans hrest).isInfix
    exact hraw ▸ ⟨(Text.trim_infix rest).trans hin, Text.trimmed_trim rest⟩
  · cases h

/-! ### Types -/

/-- The words that are types by themselves. -/
def typeKeywords : List String :=
  ["bool", "string", "float", "float32", "float64", "any", "int8", "uint8", "int16", "uint16",
    "int32", "uint32", "int"]

theorem ofKeyword?_or_plainType : ∀ word ∈ typeKeywords,
    IntKind.ofKeyword? word ≠ none ∨ plainType word ≠ .named word := by
  decide

theorem plainType_named {keyword name : String} (hint : IntKind.ofKeyword? keyword = none)
    (h : plainType keyword = .named name) : name ∉ typeKeywords := by
  intro hmem
  have hname : keyword = name := by
    unfold plainType at h
    split at h <;> first | exact FieldType.named.inj h | cases h
  subst hname
  obtain hkind | hplain := ofKeyword?_or_plainType keyword hmem
  · exact hkind hint
  · exact hplain h

theorem fieldType_named {keyword name owner : String} {brackets : Option (List Char)}
    (h : fieldType keyword brackets owner = .ok (.named name)) : name ∉ typeKeywords := by
  unfold fieldType at h
  split at h
  · cases h
  · split at h <;> cases h
  · next hint => exact plainType_named hint (Except.ok.inj h)
  · cases h

end WireSchema.Schema
