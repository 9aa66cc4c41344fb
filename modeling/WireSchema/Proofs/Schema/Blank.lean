import Mathlib.Data.List.Chain
import WireSchema.Schema.Blank
import WireSchema.Text.Blank

/-! What blanking does to a text. Blanks never bring two slashes together, so that a text
without its comments holds no two slashes in a row, and neither does what is left of it
when blocks are cut out. -/

namespace WireSchema.Schema

/-- No two slashes stand side by side. -/
def Uncommented (text : List Char) : Prop := text.IsChain fun a b => ¬(a = '/' ∧ b = '/')

theorem Uncommented.not_infix {text : List Char} (h : Uncommented text) :
    ¬['/', '/'] <:+: text := by
  intro hin
  have hpair := List.IsChain.infix h hin
  simp at hpair

theorem Uncommented.cons {c : Char} {text : List Char} (h : Uncommented text)
    (hc : c = '/' → text.head? ≠ some '/') : Uncommented (c :: text) :=
  List.IsChain.cons h fun _ hd ⟨hcs, hds⟩ => hc hcs (hds ▸ hd)

/-! ### Blanks in place of characters -/

theorem blankChar_ne_nil (c : Char) : blankChar c ≠ [] := by
  unfold blankChar
  split
  · simp
  · simp [Nat.ne_of_gt c.utf8Size_pos]

theorem isBlank_of_mem_blankChar {c d : Char} (h : d ∈ blankChar c) : Text.isBlank d := by
  unfold blankChar at h
  split at h
  · rw [List.mem_singleton.1 h]; rfl
  · rw [(List.mem_replicate.1 h).2]; rfl

theorem slash_notMem_blankChar (c : Char) : '/' ∉ blankChar c := fun h =>
  absurd (isBlank_of_mem_blankChar h) (by decide)

theorem head?_blankChar_append (c : Char) (text : List Char) :
    (blankChar c ++ text).head? ≠ some '/' := by
  intro h
  obtain ⟨b, more, hb⟩ := List.exists_cons_of_ne_nil (blankChar_ne_nil c)
  rw [hb, List.cons_append, List.head?_cons, Option.some.injEq] at h
  exact slash_notMem_blankChar c (by simp [hb, h])

theorem uncommented_append {blanks text : List Char} (hb : '/' ∉ blanks) (h : Uncommented text) :
    Uncommented (blanks ++ text) := by
  induction blanks with
  | nil => exact h
  | cons b blanks ih =>
    rw [List.mem_cons, not_or] at hb
    exact (ih hb.2).cons fun hs => absurd hs.symm hb.1

/-- What has no slash may stand behind an uncommented text too. -/
theorem Uncommented.append {text behind : List Char} (h : Uncommented text)
    (hb : '/' ∉ behind) : Uncommented (text ++ behind) := by
  have hbehind : Uncommented behind := by
    rw [← behind.append_nil]
    exact uncommented_append hb List.isChain_nil
  refine List.isChain_append.2 ⟨h, hbehind, ?_⟩
  rintro a - b hmem ⟨-, rfl⟩
  exact hb (List.mem_of_head? hmem)

/-! ### Comments -/

theorem uncommented_of_notInfix {text : List Char} (h : ¬['/', '/'] <:+: text) :
    Uncommented text := by
  induction text with
  | nil => exact List.isChain_nil
  | cons c text ih =>
    refine (ih fun hin => h (hin.trans (List.suffix_cons c text).isInfix)).cons ?_
    rintro rfl hslash
    obtain ⟨more, rfl⟩ := List.head?_eq_some_iff.1 hslash
    exact h (List.prefix_append ['/', '/'] more).isInfix

/-- A text without comments is left as it is. -/
theorem Uncommented.strip {text : List Char} (h : Uncommented text) :
    stripComments text = text := by
  induction text with
  | nil => rfl
  | cons c text ih =>
    rw [stripComments.eq_3, ih h.tail]
    rintro more rfl rfl
    exact h.not_infix (List.prefix_append ['/', '/'] more).isInfix

/-- What is left of a text without its comments, and of a text that starts inside one. It starts
with a slash only if the text did, and not after a comment. -/
theorem strip_uncommented :
    (∀ text, Uncommented (stripComments text) ∧
        ((stripComments text).head? = some '/' → text.head? = some '/')) ∧
      ∀ text, Uncommented (stripComment text) ∧ (stripComment text).head? ≠ some '/' := by
  apply stripComments.mutual_induct
  · exact ⟨List.isChain_nil, by simp [stripComments]⟩
  · intro rest ih
    rw [stripComments]
    exact ⟨@uncommented_append [' ', ' '] _ (by decide) ih.1, by simp⟩
  · intro c rest hne ih
    rw [stripComments.eq_3 c rest hne]
    refine ⟨ih.1.cons fun hc hs => ?_, by simp⟩
    obtain ⟨more, rfl⟩ := List.head?_eq_some_iff.1 (ih.2 hs)
    exact hne more hc rfl
  · exact ⟨List.isChain_nil, by simp [stripComment]⟩
  · intro rest ih
    rw [stripComment]
    exact ⟨@uncommented_append ['\n'] _ (by decide) ih.1, by simp⟩
  · intro c rest hne ih
    rw [stripComment.eq_3 c rest hne]
    exact ⟨uncommented_append (slash_notMem_blankChar c) ih.1, head?_blankChar_append c _⟩

theorem stripComments_uncommented (text : List Char) : Uncommented (stripComments text) :=
  (strip_uncommented.1 text).1

end WireSchema.Schema
