import WireSchema.Text.Blank
import WireSchema.Text.Digit
import WireSchema.Text.Word

/-! Blanks are neither digits nor characters of words. -/

namespace WireSchema.Text

/-- The runs of digits lie between the blanks. -/
theorem digitRuns_between : ∀ run ∈ digitRuns,
    (0x20 < run.1 ∧ run.2 < 0x85) ∨ (0xa0 < run.1 ∧ run.2 < 0x1680) ∨
      (0x1680 < run.1 ∧ run.2 < 0x2000) ∨ 0x3000 < run.1 := by
  decide

theorem not_isBlank_of_isAnyDigit {c : Char} (h : isAnyDigit c) : ¬isBlank c := by
  obtain ⟨run, hrun, hin⟩ := List.any_eq_true.1 h
  have hbetween := digitRuns_between run hrun
  simp only [Bool.and_eq_true, decide_eq_true_eq] at hin
  simp only [isBlank, Bool.or_eq_true, Bool.and_eq_true, decide_eq_true_eq, beq_iff_eq]
  omega

/-- So do the runs of characters of words. -/
theorem wordRuns_between : ∀ run ∈ wordRuns,
    (0x20 < run.1 ∧ run.2 < 0x85) ∨ (0xa0 < run.1 ∧ run.2 < 0x1680) ∨
      (0x1680 < run.1 ∧ run.2 < 0x2000) ∨ (0x200a < run.1 ∧ run.2 < 0x2028) ∨
      (0x202f < run.1 ∧ run.2 < 0x205f) ∨ (0x205f < run.1 ∧ run.2 < 0x3000) ∨
      0x3000 < run.1 := by
  decide +kernel

theorem not_isWordChar_of_isBlank {c : Char} (h : isBlank c) : ¬isWordChar c := by
  simp only [isBlank, Bool.or_eq_true, Bool.and_eq_true, decide_eq_true_eq, beq_iff_eq] at h
  intro hword
  obtain ⟨run, hrun, hin⟩ := List.any_eq_true.1 hword
  have hbetween := wordRuns_between run hrun
  simp only [Bool.and_eq_true, decide_eq_true_eq] at hin
  omega

end WireSchema.Text
