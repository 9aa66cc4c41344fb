import WireSchema.Proofs.Schema.Masked

/-! Where the blocks and declarations of a schema stand. The offsets that come with them are those
of the text as it was given: what opens a block, its body and the first character of a
declaration are found there. Offsets ascend, so a later declaration starts further on. -/

namespace WireSchema.Schema

open Text (Blanks)

variable {text copy : List Char} {base : Nat}

/-! ### Blocks -/

/-- At the front of a text a block is opened, and its body follows. -/
def Block.Opens (b : Block) (keyword : String) (text : List Char) : Prop :=
  ∃ opening rest, Opening keyword.toList b.name.toList opening ∧
    text = opening ++ (b.body ++ rest) ∧ b.bodyAt = Utf8.size opening

theorem structAt?_opens {b : Block} {length : Nat} (h : structAt? text = some (b, length)) :
    b.Opens "struct" text := by
  simp only [structAt?, Option.bind_eq_bind, Option.bind_eq_some_iff] at h
  obtain ⟨⟨name, inside⟩, hhead, h⟩ := h
  obtain ⟨opening, hopening, rfl⟩ := head?_eq_some hhead
  split at h
  · next body hbody =>
    obtain ⟨rest, rfl⟩ := prefix_of_untilClose hbody
    obtain ⟨rfl, -⟩ := Prod.mk.inj (Option.some.inj h)
    exact ⟨opening, rest, (String.toList_ofList (l := name)).symm ▸ hopening, rfl, by simp⟩
  · obtain ⟨rfl, -⟩ := Prod.mk.inj (Option.some.inj h)
    exact ⟨opening, [], (String.toList_ofList (l := name)).symm ▸ hopening, by simp, by simp⟩

theorem enumAt?_opens {b : Block} {length : Nat} (h : enumAt? text = some (b, length)) :
    b.Opens "enum" text := by
  obtain ⟨-, piece, rest, rfl, ⟨-, opening, hopening, hat, rfl⟩, -⟩ := enumAt?_eq_some h
  exact ⟨opening, ['}'] ++ rest, hopening, by simp, hat⟩

section Cutting
variable {find : List Char → Option (Block × Nat)} {keyword : String}

/-- Every block is opened at its offset. -/
theorem cutBlocks_opens
    (hfind : ∀ {text b length}, find text = some (b, length) → b.Opens keyword text)
    (before : Option Char) (offset skip : Nat) (text : List Char) :
    ∀ block ∈ (cutBlocks find before offset skip text).1, ∃ front rest,
      text = front ++ rest ∧ block.1 = offset + Utf8.size front ∧ block.2.Opens keyword rest := by
  induction text generalizing before offset skip with
  | nil => exact fun block h => by simp [cutBlocks] at h
  | cons c more ih =>
    have hlater (skip : Nat) : ∀ block ∈
        (cutBlocks find (some c) (offset + c.utf8Size) skip more).1, ∃ front rest,
          c :: more = front ++ rest ∧ block.1 = offset + Utf8.size front ∧
            block.2.Opens keyword rest := by
      intro block h
      obtain ⟨front, rest, rfl, hoffset, hopens⟩ := ih _ _ _ block h
      exact ⟨c :: front, rest, rfl, by rw [hoffset, Utf8.size_cons, Nat.add_assoc], hopens⟩
    cases skip with
    | succ skip => exact hlater skip
    | zero =>
      rw [cutBlocks]
      split
      · exact hlater 0
      · next b length hb =>
        split
        · intro block h
          obtain rfl | h := List.mem_cons.1 h
          · exact ⟨[], c :: more, rfl, rfl, hfind hb⟩
          · exact hlater _ block h
        · exact hlater 0

/-- A block that is found later stands further on. -/
theorem cutBlocks_ascend (before : Option Char) (offset skip : Nat) (text : List Char) :
    (cutBlocks find before offset skip text).1.Pairwise (·.1 < ·.1) := by
  induction text generalizing before offset skip with
  | nil => exact .nil
  | cons c rest ih =>
    cases skip with
    | succ skip => exact ih _ _ _
    | zero =>
      rw [cutBlocks]
      split
      · exact ih _ _ _
      · split
        · refine .cons (fun later h => ?_) (ih _ _ _)
          have hsize := ((cutBlocks_size _ _ _ _).2 later h).1
          have hpos := c.utf8Size_pos
          dsimp only
          omega
        · exact ih _ _ _

/-- What stands at the offset of a block in the text as it was given. -/
structure Block.Placed (b : Block) (keyword : String) (text : List Char) (offset : Nat) :
    Prop where
  opened : StandsAt text offset keyword.toList
  brace : StandsAt text (offset + b.bodyAt - 1) ['{']
  body : Shown text (offset + b.bodyAt) b.body

/-- The blocks of a copy stand in the text, and so does what is left of it. -/
theorem Shown.blocks (h : Shown text base copy) (hk : Solid keyword.toList)
    (hfind : ∀ {text b length}, find text = some (b, length) → b.Opens keyword text) :
    (∀ block ∈ (blocks find base copy).1, block.2.Placed keyword text block.1) ∧
      Shown text base (blocks find base copy).2 := by
  refine ⟨?_, h.masked (masked_cutBlocks find none base 0 copy)⟩
  rintro ⟨offset, b⟩ hmem
  obtain ⟨front, rest, rfl, hoffset, opening, after, hopening, rfl, hat⟩ :=
    cutBlocks_opens hfind none base 0 copy _ hmem
  obtain rfl : offset = base + Utf8.size front := hoffset
  obtain @⟨first, second, -, -, -, -⟩ := hopening
  dsimp only at hat ⊢
  have hbrace : Solid ['{'] := solid_singleton (by decide)
  have hfront : Shown text base (front ++ (keyword.toList ++
      (first ++ (b.name.toList ++ (second ++ '{' :: (b.body ++ after)))))) := by simpa using h
  have hwords : Shown text base ((front ++ (keyword.toList ++ (first ++ (b.name.toList ++
      second)))) ++ (['{'] ++ (b.body ++ after))) := by simpa using h
  have hbody : Shown text base ((front ++ (keyword.toList ++ (first ++ (b.name.toList ++
      (second ++ ['{']))))) ++ (b.body ++ after)) := by simpa using h
  refine ⟨hfront.standsAt hk, ?_, ?_⟩
  · have hoffset : base + Utf8.size front + b.bodyAt - 1 = base + Utf8.size (front ++
        (keyword.toList ++ (first ++ (b.name.toList ++ second)))) := by
      have hsize : '{'.utf8Size = 1 := rfl
      simp only [hat, Utf8.size_append, Utf8.size_cons, Utf8.size_nil, hsize]
      omega
    exact hoffset ▸ hwords.standsAt hbrace
  · rw [hat, Nat.add_assoc, ← Utf8.size_append]
    exact hbody.part

end Cutting

theorem Shown.structs (h : Shown text base copy) :
    (∀ block ∈ (Schema.blocks structAt? base copy).1, block.2.Placed "struct" text block.1) ∧
      Shown text base (Schema.blocks structAt? base copy).2 :=
  h.blocks (solid_identifier (by decide)) structAt?_opens

theorem Shown.enums (h : Shown text base copy) :
    (∀ block ∈ (Schema.blocks enumAt? base copy).1, block.2.Placed "enum" text block.1) ∧
      Shown text base (Schema.blocks enumAt? base copy).2 :=
  h.blocks (solid_identifier (by decide)) enumAt?_opens

/-! ### Declarations -/

/-- A trimmed part stands in its text behind the blanks before it. -/
theorem trim_place (part tail : List Char) : ∃ front behind,
    part ++ tail = front ++ (Text.trim part ++ behind) ∧
      Utf8.size part - Utf8.size (Text.skipBlanks part) = Utf8.size front := by
  obtain ⟨space, -, hpart⟩ := Text.blanks_skipped part
  obtain ⟨behind, hskip⟩ := Text.trim_prefix_skipBlanks part
  refine ⟨space, behind ++ tail, ?_, ?_⟩
  · calc part ++ tail = (space ++ Text.skipBlanks part) ++ tail := by rw [← hpart]
      _ = space ++ (Text.trim part ++ (behind ++ tail)) := by
          rw [← hskip, List.append_assoc, List.append_assoc]
  · have hsize := congrArg Utf8.size hpart
    rw [Utf8.size_append] at hsize
    omega

theorem intercalate_front (part : List Char) (more : List (List Char)) :
    ∃ tail, [';'].intercalate (part :: more) = part ++ tail := by
  cases more with
  | nil => exact ⟨[], by simp [List.intercalate]⟩
  | cons second later => exact ⟨_, List.intercalate_cons_cons.trans (List.append_assoc ..)⟩

/-- Every part begins at its offset, and not with a blank. -/
theorem trimmedParts_place {offset : Nat} {parts : List (List Char)} :
    ∀ entry ∈ trimmedParts offset parts, (∃ front behind,
      [';'].intercalate parts = front ++ (entry.2 ++ behind) ∧
        entry.1 = offset + Utf8.size front) ∧ ∃ c more, entry.2 = c :: more ∧ ¬Text.isBlank c := by
  induction parts generalizing offset with
  | nil => exact fun entry h => by cases h
  | cons part more ih =>
    have hlater : ∀ entry ∈ trimmedParts (offset + Utf8.size part + 1) more, (∃ front behind,
        [';'].intercalate (part :: more) = front ++ (entry.2 ++ behind) ∧
          entry.1 = offset + Utf8.size front) ∧
            ∃ c more, entry.2 = c :: more ∧ ¬Text.isBlank c := by
      intro entry h
      obtain ⟨⟨front, behind, hmore, hplace⟩, hfirst⟩ := ih entry h
      refine ⟨⟨part ++ ';' :: front, behind, ?_, ?_⟩, hfirst⟩
      · cases more with
        | nil => cases h
        | cons second later => rw [List.intercalate_cons_cons, hmore]; simp
      · have hsize : ';'.utf8Size = 1 := rfl
        rw [hplace, Utf8.size_append, Utf8.size_cons, hsize]
        omega
    rw [trimmedParts]
    split
    · exact hlater
    · next hne =>
      intro entry h
      obtain rfl | h := List.mem_cons.1 h
      · obtain ⟨tail, htail⟩ := intercalate_front part more
        obtain ⟨front, behind, hpart, hplace⟩ := trim_place part tail
        obtain ⟨c, text, htrim⟩ := List.exists_cons_of_ne_nil hne
        exact ⟨⟨front, behind, htail.trans hpart, congrArg _ hplace⟩, c, text, htrim,
          (Text.trimmed_trim part).first c (by rw [htrim]; rfl)⟩
      · exact hlater entry h

theorem trimmedParts_ascend (offset : Nat) (parts : List (List Char)) :
    (trimmedParts offset parts).Pairwise (·.1 < ·.1) := by
  induction parts generalizing offset with
  | nil => exact .nil
  | cons part more ih =>
    rw [trimmedParts]
    split
    · exact ih _
    · refine .cons (fun later h => ?_) (ih _)
      obtain ⟨⟨front, behind, -, hplace⟩, -⟩ := trimmedParts_place later h
      dsimp only
      omega

/-- The parts of a body that is shown begin in the text, where each of their words is at the
front. -/
theorem Shown.declarations (h : Shown text base copy) :
    ∀ entry ∈ declarations base copy, Legible text entry.1 ∧
      ∀ word more, entry.2 = word ++ more → Solid word → StandsAt text entry.1 word := by
  intro entry hentry
  obtain ⟨⟨front, behind, hcopy, hplace⟩, c, rest, hfirst, hc⟩ := trimmedParts_place entry hentry
  rw [Text.intercalate_split] at hcopy
  have hword : ∀ word more, entry.2 = word ++ more → Solid word →
      StandsAt text entry.1 word := by
    intro word more hpart hw
    rw [hcopy, hpart, List.append_assoc] at h
    exact hplace ▸ h.standsAt hw
  exact ⟨⟨c, hc, hword [c] rest hfirst (solid_singleton hc)⟩, hword⟩

theorem brace?_eq_some {place : Nat} {mark : Char} (h : brace? base copy = some (place, mark)) :
    (mark = '{' ∨ mark = '}') ∧ ∃ front behind, copy = front ++ ([mark] ++ behind) ∧
      place = base + Utf8.size front := by
  induction copy generalizing base with
  | nil => cases h
  | cons c rest ih =>
    rw [brace?] at h
    split at h
    · next hc =>
      obtain ⟨rfl, rfl⟩ := Prod.mk.inj (Option.some.inj h)
      exact ⟨hc, [], rest, rfl, rfl⟩
    · obtain ⟨hmark, front, behind, rfl, rfl⟩ := ih h
      exact ⟨hmark, c :: front, behind, rfl, by rw [Utf8.size_cons, Nat.add_assoc]⟩

/-- A brace that is found is shown. -/
theorem Shown.brace {place : Nat} {mark : Char} (h : Shown text base copy)
    (hb : brace? base copy = some (place, mark)) :
    Legible text place := by
  obtain ⟨hmark, front, behind, rfl, rfl⟩ := brace?_eq_some hb
  have hsolid : ¬Text.isBlank mark := by obtain rfl | rfl := hmark <;> decide
  exact ⟨mark, hsolid, h.standsAt (solid_singleton hsolid)⟩

/-- What is left behind blanks is shown. -/
theorem Shown.rest {left : List Char} (h : Shown text 0 left) (hne : Text.skipBlanks left ≠ []) :
    Legible text (Utf8.size left - Utf8.size (Text.skipBlanks left)) := by
  obtain ⟨space, -, hleft⟩ := Text.blanks_skipped left
  obtain ⟨c, more, hskip⟩ := List.exists_cons_of_ne_nil hne
  have hc : ¬Text.isBlank c := @Text.skipBlanks_head left c (by rw [hskip]; rfl)
  have hsize := congrArg Utf8.size hleft
  rw [Utf8.size_append] at hsize
  rw [hleft, hskip] at h
  have hstands : StandsAt text (0 + Utf8.size space) [c] :=
    Shown.standsAt h (solid_singleton hc)
  rw [hsize, Nat.add_sub_cancel, ← Nat.zero_add (Utf8.size space)]
  exact hstands.legible (solid_singleton hc)

/-- A declaration begins with its type. -/
theorem declaration?_type {part : List Char} {d : Declaration} (h : declaration? part = some d) :
    ∃ more, part = d.type ++ more := by
  simp only [declaration?, Option.bind_eq_bind, Option.bind_eq_some_iff] at h
  obtain ⟨⟨type, rest⟩, htype, ⟨brackets, rest'⟩, -, ⟨name, rest''⟩, -, h⟩ := h
  have hpart := Text.identifier?_append htype
  split at h
  · obtain rfl := Option.some.inj h
    exact ⟨rest, hpart.symm⟩
  · obtain rfl := Option.some.inj h
    exact ⟨rest, hpart.symm⟩
  · cases h

end WireSchema.Schema
