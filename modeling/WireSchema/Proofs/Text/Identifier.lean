import WireSchema.Proofs.Text.Trim
import WireSchema.Text.Identifier

/-! An identifier is read whole wherever no character follows that could belong to it. None
of its characters is a blank, so blanks end it. -/

namespace WireSchema.Text

theorem isIdentChar_cases {c : Char} (h : isIdentChar c) :
    (65 ≤ c.toNat ∧ c.toNat ≤ 90) ∨ (97 ≤ c.toNat ∧ c.toNat ≤ 122) ∨
      (48 ≤ c.toNat ∧ c.toNat ≤ 57) ∨ c.toNat = 95 := by
  change (decide (c.val ≥ 'A'.val ∧ c.val ≤ 'Z'.val) || (c.val ≥ 'a'.val && c.val ≤ 'z'.val) ||
    (c.val ≥ '0'.val && c.val ≤ '9'.val) || c == '_') = true at h
  simp only [Bool.or_eq_true, Bool.and_eq_true, decide_eq_true_eq, beq_iff_eq, ge_iff_le] at h
  rcases h with ((h | h) | h) | rfl
  · exact .inl h
  · exact .inr (.inl h)
  · exact .inr (.inr (.inl h))
  · exact .inr (.inr (.inr rfl))

theorem isIdentStart_cases {c : Char} (h : isIdentStart c) :
    (65 ≤ c.toNat ∧ c.toNat ≤ 90) ∨ (97 ≤ c.toNat ∧ c.toNat ≤ 122) ∨ c.toNat = 95 := by
  change (decide (c.val ≥ 'A'.val ∧ c.val ≤ 'Z'.val) || (c.val ≥ 'a'.val && c.val ≤ 'z'.val) ||
    c == '_') = true at h
  simp only [Bool.or_eq_true, Bool.and_eq_true, decide_eq_true_eq, beq_iff_eq, ge_iff_le] at h
  rcases h with (h | h) | rfl
  · exact .inl h
  · exact .inr (.inl h)
  · exact .inr (.inr rfl)

theorem not_isBlank_of_isIdentChar {c : Char} (h : isIdentChar c) : ¬isBlank c := by
  have hcases := isIdentChar_cases h
  simp only [isBlank, Bool.or_eq_true, Bool.and_eq_true, decide_eq_true_eq, beq_iff_eq]
  omega

theorem isIdentChar_of_isIdentStart {c : Char} (h : isIdentStart c) : isIdentChar c := by
  simp only [isIdentStart, Bool.or_eq_true] at h
  simp only [isIdentChar, Char.isAlphanum, Bool.or_eq_true]
  obtain h | h := h
  · exact .inl (.inl h)
  · exact .inr h

variable {name rest : List Char}

theorem isIdentChar_of_mem (h : isIdentifier name) : ∀ c ∈ name, isIdentChar c := by
  cases name with
  | nil => cases h
  | cons first more =>
    rw [isIdentifier, Bool.and_eq_true, List.all_eq_true] at h
    exact List.forall_mem_cons.2 ⟨isIdentChar_of_isIdentStart h.1, h.2⟩

theorem isIdentifier_ne_nil (h : isIdentifier name) : name ≠ [] := by
  rintro rfl
  cases h

/-- An identifier at the front of a text starts the text. -/
theorem isIdentChar_of_head (h : isIdentifier name) (rest : List Char) :
    ∀ c ∈ (name ++ rest).head?, isIdentChar c := by
  rw [List.head?_append_of_ne_nil _ (isIdentifier_ne_nil h)]
  exact fun c hc => isIdentChar_of_mem h c (List.mem_of_head? hc)

theorem skipBlanks_identifier (h : isIdentifier name) (rest : List Char) :
    skipBlanks (name ++ rest) = name ++ rest :=
  skipBlanks_of_head fun c hc => not_isBlank_of_isIdentChar (isIdentChar_of_head h rest c hc)

theorem trimmed_of_isIdentifier (h : isIdentifier name) : Trimmed name :=
  trimmed_of_forall fun c hc => not_isBlank_of_isIdentChar (isIdentChar_of_mem h c hc)

/-- Blanks end a word. -/
theorem Blanks.ends {space : List Char} (h : Blanks space) :
    ∀ c ∈ space.head?, ¬isIdentChar c :=
  fun c hc hident => not_isBlank_of_isIdentChar hident (h c (List.mem_of_head? hc))

/-- So does a mark, with or without blanks before it. -/
theorem Blanks.append_ends {space : List Char} (h : Blanks space)
    (hrest : ∀ c ∈ rest.head?, ¬isIdentChar c) : ∀ c ∈ (space ++ rest).head?, ¬isIdentChar c := by
  cases space with
  | nil => exact hrest
  | cons c more => exact fun d hd => h.ends d hd

/-- The characters of a word that ends are those in front of the rest. -/
theorem word_append {word : List Char} (hw : ∀ c ∈ word, isIdentChar c)
    (hrest : ∀ c ∈ rest.head?, ¬isIdentChar c) :
    (word ++ rest).takeWhile isIdentChar = word ∧ (word ++ rest).dropWhile isIdentChar = rest := by
  rw [List.takeWhile_append_of_pos hw, List.dropWhile_append_of_pos hw]
  cases rest with
  | nil => exact ⟨List.append_nil word, rfl⟩
  | cons c later =>
    rw [List.takeWhile_cons_of_neg (hrest c rfl), List.dropWhile_cons_of_neg (hrest c rfl)]
    exact ⟨List.append_nil word, rfl⟩

/-- An identifier is read whole where none of its kind follows. -/
theorem identifier?_of_isIdentifier (h : isIdentifier name)
    (hrest : ∀ c ∈ rest.head?, ¬isIdentChar c) :
    identifier? (name ++ rest) = some (name, rest) := by
  cases name with
  | nil => cases h
  | cons first more =>
    rw [isIdentifier, Bool.and_eq_true, List.all_eq_true] at h
    obtain ⟨htake, hdrop⟩ := word_append h.2 hrest
    rw [List.cons_append, identifier?, if_pos h.1, htake, hdrop]

/-- What is read as an identifier ends where no more of its characters follow. -/
theorem identifier?_rest {text : List Char} (h : identifier? text = some (name, rest)) :
    ∀ c ∈ rest.head?, ¬isIdentChar c := by
  cases text with
  | nil => cases h
  | cons first more =>
    rw [identifier?] at h
    split at h
    · obtain ⟨-, rfl⟩ := Prod.mk.inj (Option.some.inj h)
      intro c hc
      have hd := List.head?_dropWhile_not isIdentChar more
      rw [Option.mem_def.1 hc] at hd
      simpa using hd
    · cases h

theorem identifier?_eq_some {text : List Char} :
    identifier? text = some (name, rest) ↔
      isIdentifier name ∧ (∀ c ∈ rest.head?, ¬isIdentChar c) ∧ text = name ++ rest := by
  constructor
  · exact fun h => ⟨identifier?_isIdentifier h, identifier?_rest h, (identifier?_append h).symm⟩
  · rintro ⟨hname, hrest, rfl⟩
    exact identifier?_of_isIdentifier hname hrest

end WireSchema.Text
