import WireSchema.Proofs.Schema.Blanked

/-! The comments of a text as spans. Taking the comments out is blanking their spans, and they
cover what is in a comment and nothing else. -/

namespace WireSchema.Schema

mutual

/-- The spans of the comments of a text that begins at an offset. -/
def comments : (offset : Nat) → List Char → List Span
  | _, [] => []
  | offset, '/' :: '/' :: rest => comment offset (offset + 2) rest
  | offset, c :: rest => comments (offset + c.utf8Size) rest

/-- The same from inside a comment that began before. -/
def comment : (start offset : Nat) → List Char → List Span
  | start, offset, [] => [⟨start, offset⟩]
  | start, offset, '\n' :: rest => ⟨start, offset⟩ :: comments (offset + 1) rest
  | start, offset, c :: rest => comment start (offset + c.utf8Size) rest

end

section Comments
variable {c : Char} {text rest : List Char} {i : Nat}

/-- Taking the comments out is blanking their spans. Inside a comment a piece of it was read
before. -/
theorem blanking_comments :
    (∀ text offset, Blanking offset text (comments offset text) (stripComments text)) ∧
    ∀ text start offset piece, start + Utf8.size piece = offset →
      Blanking start (piece ++ text) (comment start offset text)
        (blank piece ++ stripComment text) := by
  apply stripComments.mutual_induct
  · exact fun _ => .nil
  · intro rest ih offset
    rw [comments, stripComments]
    exact ih offset (offset + 2) ['/', '/'] rfl
  · intro c rest hne ih offset
    rw [comments.eq_3 _ c rest hne, stripComments.eq_3 c rest hne]
    exact .keep c (ih _)
  · intro start offset piece hpiece
    exact .blank hpiece .nil
  · intro rest ih start offset piece hpiece
    exact .blank hpiece (.keep '\n' (ih _))
  · intro c rest hne ih start offset piece hpiece
    rw [comment.eq_3 _ _ c rest hne, stripComment.eq_3 c rest hne]
    have hrest := ih start (offset + c.utf8Size) (piece ++ [c]) (by simp [← hpiece, Nat.add_assoc])
    simpa only [blank_append, blank_cons, blank_nil, List.append_nil, List.append_assoc,
      List.singleton_append] using hrest

/-! ### Where the comments are -/

theorem exists_behind {P : Nat → Prop} (offset width i : Nat) :
    (∃ j, i = offset + j ∧ ∃ k, j = width + k ∧ P k) ↔ ∃ k, i = offset + width + k ∧ P k := by
  simp only [Nat.add_assoc]
  constructor
  · rintro ⟨_, rfl, k, rfl, h⟩
    exact ⟨k, rfl, h⟩
  · rintro ⟨k, rfl, h⟩
    exact ⟨_, rfl, k, rfl, h⟩

theorem exists_within (offset width i : Nat) :
    (∃ j, i = offset + j ∧ j < width) ↔ offset ≤ i ∧ i < offset + width := by
  constructor
  · rintro ⟨j, rfl, h⟩
    omega
  · intro h
    exact ⟨i - offset, by omega, by omega⟩

/-- The byte at an offset is on the first line. -/
def OnLine (text : List Char) (offset : Nat) : Prop :=
  ∃ line behind, text = line ++ behind ∧ '\n' ∉ line ∧ offset < Utf8.size line

/-- A byte is struck out where a text begins inside a comment: it is on the line of this comment, or
in a later one. -/
def Struck (text : List Char) (offset : Nat) : Prop :=
  OnLine text offset ∨ InComment text offset

theorem not_onLine_nil (i : Nat) : ¬OnLine [] i := by
  rintro ⟨line, behind, htext, -, hi⟩
  obtain ⟨rfl, rfl⟩ := List.append_eq_nil_iff.1 htext.symm
  exact absurd hi (Nat.not_lt_zero i)

theorem not_inComment_nil (i : Nat) : ¬InComment [] i := by
  rintro ⟨front, comment, behind, htext, ⟨more, rfl⟩, -⟩
  simp at htext

theorem InComment.cons (h : InComment rest i) (c : Char) :
    InComment (c :: rest) (c.utf8Size + i) := by
  obtain ⟨front, comment, behind, rfl, hslash, hline, hlow, hhigh⟩ := h
  exact ⟨c :: front, comment, behind, rfl, hslash, hline, by rw [Utf8.size_cons]; omega,
    by rw [Utf8.size_cons]; omega⟩

/-- Where no comment begins. -/
theorem inComment_cons (hne : ∀ more, c = '/' → rest = '/' :: more → False) :
    InComment (c :: rest) i ↔ ∃ j, i = c.utf8Size + j ∧ InComment rest j := by
  constructor
  · intro h
    obtain hlater | ⟨hc, more, behind, rfl, ⟨later, rfl⟩, -⟩ := h.cases
    · exact hlater
    · exact absurd rfl (hne (later ++ behind) hc)
  · rintro ⟨j, rfl, h⟩
    exact h.cons c

theorem onLine_cons (hc : c ≠ '\n') :
    OnLine (c :: rest) i ↔ i < c.utf8Size ∨ ∃ j, i = c.utf8Size + j ∧ OnLine rest j := by
  constructor
  · rintro ⟨line, behind, htext, hline, hi⟩
    cases line with
    | nil => exact absurd hi (Nat.not_lt_zero i)
    | cons d line =>
      obtain ⟨rfl, rfl⟩ := List.cons.inj htext
      rw [Utf8.size_cons] at hi
      refine or_iff_not_imp_left.2 fun hlow => ?_
      exact ⟨i - c.utf8Size, by omega, line, behind, rfl,
        fun h => hline (List.mem_cons_of_mem _ h), by omega⟩
  · rintro (hi | ⟨j, rfl, line, behind, rfl, hline, hi⟩)
    · exact ⟨[c], rest, rfl, by simpa using hc.symm, by simpa using hi⟩
    · refine ⟨c :: line, behind, rfl, by simp [hc.symm, hline], ?_⟩
      rw [Utf8.size_cons]
      omega

/-- The line feed that ends a comment is not in it. -/
theorem struck_line : Struck ('\n' :: rest) i ↔ ∃ j, i = 1 + j ∧ InComment rest j := by
  have hcons : InComment ('\n' :: rest) i ↔ ∃ j, i = 1 + j ∧ InComment rest j :=
    inComment_cons fun _ h _ => absurd h (by decide)
  rw [Struck, hcons, or_iff_right]
  rintro ⟨line, behind, htext, hline, hi⟩
  cases line with
  | nil => exact absurd hi (Nat.not_lt_zero i)
  | cons d line => exact hline ((List.cons.inj htext).1 ▸ List.mem_cons_self)

/-- A comment goes on over every other character. One that begins inside it ends with it. -/
theorem struck_cons (hc : c ≠ '\n') :
    Struck (c :: rest) i ↔ i < c.utf8Size ∨ ∃ j, i = c.utf8Size + j ∧ Struck rest j := by
  have hline (h : OnLine (c :: rest) i) :
      i < c.utf8Size ∨ ∃ j, i = c.utf8Size + j ∧ Struck rest j :=
    ((onLine_cons hc).1 h).imp_right fun ⟨j, hj, h⟩ => ⟨j, hj, .inl h⟩
  constructor
  · rintro (h | h)
    · exact hline h
    · obtain ⟨j, rfl, hlater⟩ | ⟨-, more, behind, rfl, -, hmore, hi⟩ := h.cases
      · exact .inr ⟨j, rfl, .inr hlater⟩
      · exact hline ⟨c :: more, behind, rfl, by simp [hc.symm, hmore], by rwa [Utf8.size_cons]⟩
  · rintro (hi | ⟨j, rfl, h | h⟩)
    · exact .inl ((onLine_cons hc).2 (.inl hi))
    · exact .inl ((onLine_cons hc).2 (.inr ⟨j, rfl, h⟩))
    · exact .inr (h.cons c)

theorem struck_slashes :
    Struck ('/' :: '/' :: rest) i ↔ i < 2 ∨ ∃ j, i = 2 + j ∧ Struck rest j := by
  have hslash : ('/').utf8Size = 1 := by decide
  simp only [struck_cons (by decide : '/' ≠ '\n'), hslash, and_or_left, exists_or, exists_within,
    exists_behind, ← or_assoc]
  exact or_congr_left (by omega)

/-- Where a comment begins. -/
theorem inComment_slashes :
    InComment ('/' :: '/' :: rest) i ↔ i < 2 ∨ ∃ j, i = 2 + j ∧ Struck rest j := by
  rw [← struck_slashes]
  refine ⟨.inr, ?_⟩
  rintro (⟨line, behind, htext, hline, hi⟩ | h)
  · match line, htext with
    | [], _ => exact absurd hi (Nat.not_lt_zero i)
    | [d], htext =>
      -- the line may go further than the offset asks for
      obtain ⟨rfl, -⟩ := List.cons.inj htext
      exact ⟨[], ['/', '/'], rest, rfl, List.prefix_rfl, by decide, Nat.zero_le i,
        Nat.lt_of_lt_of_le hi (by decide)⟩
    | d :: e :: line, htext =>
      simp only [List.cons_append, List.cons.injEq] at htext
      obtain ⟨rfl, rfl, rfl⟩ := htext
      exact ⟨[], _, behind, rfl, ⟨line, rfl⟩, hline, Nat.zero_le i, by
        rwa [Utf8.size_nil, Nat.zero_add]⟩
  · exact h

/-- The spans of the comments cover the comments and nothing else. From inside a comment they cover
what was read of it, too. -/
theorem covered_comments :
    (∀ text offset i, Covered (comments offset text) i ↔
      ∃ j, i = offset + j ∧ InComment text j) ∧
    ∀ text start offset i, start ≤ offset →
      (Covered (comment start offset text) i ↔
        (start ≤ i ∧ i < offset) ∨ ∃ j, i = offset + j ∧ Struck text j) := by
  apply stripComments.mutual_induct
  · intro offset i
    simp [comments, Covered, not_inComment_nil]
  · intro rest ih offset i
    rw [comments, ih offset (offset + 2) i (Nat.le_add_right _ _)]
    simp only [inComment_slashes, and_or_left, exists_or, exists_within, exists_behind]
  · intro c rest hne ih offset i
    rw [comments.eq_3 _ c rest hne, ih]
    simp only [inComment_cons hne, exists_behind]
  · intro start offset i _
    rw [comment, covered_cons]
    simp [Covered, Span.Contains, Struck, not_onLine_nil, not_inComment_nil]
  · intro rest ih start offset i _
    rw [comment, covered_cons, ih]
    simp only [struck_line, exists_behind]
    rfl
  · intro c rest hne ih start offset i hle
    rw [comment.eq_3 _ _ c rest hne, ih start _ i (by omega)]
    simp only [struck_cons hne, and_or_left, exists_or, exists_within, exists_behind, ← or_assoc]
    exact or_congr_left (by omega)

/-- What is left without the comments differs from the text only in them. -/
theorem stripComments_faithful (text : List Char) :
    Faithful text (stripComments text) (InComment text) := by
  refine (blanking_comments.1 text 0).faithful.congr fun i => ?_
  simpa using covered_comments.1 text 0 i

end Comments

end WireSchema.Schema
