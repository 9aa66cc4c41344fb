import WireSchema.Proofs.Schema.Declaration
import WireSchema.Proofs.Text.Identifier
import WireSchema.Proofs.Text.Class

/-! Entries, types and fields as they are written, and that reading them accepts just these
texts. Each form says where blanks may stand; the reader of a form gives the parts of it. -/

namespace WireSchema.Schema

open Text (Blanks)

variable {text name : List Char}

/-! ### Entries -/

/-- An entry: a name, and after an equals sign a literal. -/
inductive Entry (name : List Char) : Option (List Char) → List Char → Prop
  | bare {space : List Char} (ident : Text.isIdentifier name) (hspace : Blanks space) :
      Entry name none (name ++ space)
  | coded {first second literal : List Char} (ident : Text.isIdentifier name)
      (hfirst : Blanks first) (hsecond : Blanks second) (digits : isLiteral literal) :
      Entry name (some literal) (name ++ (first ++ '=' :: (second ++ literal)))

theorem isLiteral_head {literal : List Char} (h : isLiteral literal) :
    ∀ c ∈ literal.head?, ¬Text.isBlank c := by
  intro c hc hblank
  cases literal with
  | nil => cases hc
  | cons d more =>
    obtain rfl := Option.some.inj hc
    by_cases hminus : d = '-'
    · subst hminus
      exact absurd hblank (by decide)
    · simp only [isLiteral, Bool.and_eq_true] at h
      split at h
      · next heq => exact hminus (List.cons.inj heq).1
      · exact Text.not_isBlank_of_isAnyDigit (List.all_eq_true.1 h.2 _ List.mem_cons_self) hblank

theorem entry?_eq_some {literal : Option (List Char)} :
    entry? text = some (name, literal) ↔ Entry name literal text := by
  constructor
  · intro h
    simp only [Option.bind_eq_bind, entry?, Option.bind_eq_some_iff] at h
    obtain ⟨⟨found, rest⟩, hname, h⟩ := h
    obtain ⟨hident, -, rfl⟩ := Text.identifier?_eq_some.1 hname
    split at h
    · next hend =>
      obtain ⟨rfl, rfl⟩ := Prod.mk.inj (Option.some.inj h)
      exact .bare hident (Text.skipBlanks_eq_nil.1 hend)
    · next after hequals =>
      obtain ⟨first, hfirst, rfl⟩ := (Text.skipBlanks_eq_cons (by decide)).1 hequals
      obtain ⟨second, hsecond, hafter⟩ := Text.blanks_skipped after
      split at h
      · next hdigits =>
        obtain ⟨rfl, rfl⟩ := Prod.mk.inj (Option.some.inj h)
        have hentry := Entry.coded hident hfirst hsecond hdigits
        rwa [← hafter] at hentry
      · cases h
    · cases h
  · intro h
    cases h with
    | @bare space hident hspace =>
      simp only [Option.bind_eq_bind, entry?, Text.identifier?_of_isIdentifier hident hspace.ends,
        Option.bind_some, hspace.skip]
    | @coded first second literal hident hfirst hsecond hdigits =>
      have hstop : ∀ c ∈ (first ++ '=' :: (second ++ literal)).head?, ¬Text.isIdentChar c :=
        hfirst.append_ends (by simp; decide)
      have hliteral : Text.skipBlanks (second ++ literal) = literal := by
        rw [Text.skipBlanks_append hsecond, Text.skipBlanks_of_head (isLiteral_head hdigits)]
      simp only [Option.bind_eq_bind, entry?, Text.identifier?_of_isIdentifier hident hstop,
        Option.bind_some, Text.skipBlanks_append hfirst,
        Text.skipBlanks_cons (c := '=') (by decide), hliteral, if_pos hdigits]

/-! ### Bounds and types -/

/-- Bounds: two integers in brackets with a comma between. -/
structure Bounds.Written (b : Bounds) (inside : List Char) : Prop where
  parts : ∃ low high, inside = low ++ ',' :: high ∧ ',' ∉ low ∧ ',' ∉ high ∧
    Text.int64? (Text.trim low) = some b.min ∧ Text.int64? (Text.trim high) = some b.max

theorem takeWhile_ne_append {mark : Char} {front : List Char} (h : mark ∉ front)
    (rest : List Char) : (front ++ mark :: rest).takeWhile (· != mark) = front := by
  have hall : ∀ c ∈ front, (c != mark) = true := fun c hc => bne_iff_ne.2 fun he => h (he ▸ hc)
  rw [List.takeWhile_append_of_pos hall, List.takeWhile_cons_of_neg (by simp), List.append_nil]

/-- What stands before the first mark, and what follows it. -/
theorem takeWhile_ne_eq {mark : Char} {rest : List Char}
    (h : text.drop (text.takeWhile (· != mark)).length = mark :: rest) :
    text = text.takeWhile (· != mark) ++ mark :: rest ∧ mark ∉ text.takeWhile (· != mark) := by
  refine ⟨?_, fun hmem => absurd (List.mem_takeWhile_imp hmem) (by simp)⟩
  obtain ⟨after, hafter⟩ := List.takeWhile_prefix (· != mark) (l := text)
  have hdrop := congrArg (List.drop (text.takeWhile (· != mark)).length) hafter
  rw [List.drop_left, h] at hdrop
  rw [← hdrop, hafter]

theorem bounds?_eq_some {b : Bounds} {inside : List Char} :
    bounds? ('[' :: (inside ++ [']'])) = some b ↔ Bounds.Written b inside := by
  have hinside : (List.drop 1 ('[' :: (inside ++ [']']))).dropLast = inside := by simp
  rw [bounds?]
  simp only [hinside]
  constructor
  · intro h
    split at h
    · next high hdrop =>
      obtain ⟨heq, hlow⟩ := takeWhile_ne_eq hdrop
      split at h
      · cases h
      · next hhigh =>
        simp only [Option.bind_eq_bind, Option.bind_eq_some_iff] at h
        obtain ⟨min, hmin, max, hmax, h⟩ := h
        obtain rfl := Option.some.inj h
        exact ⟨_, high, heq, hlow, hhigh, hmin, hmax⟩
    · cases h
  · rintro ⟨low, high, rfl, hlow, hhigh, hmin, hmax⟩
    simp only [takeWhile_ne_append hlow, List.drop_left, if_neg hhigh, hmin, hmax,
      Option.bind_eq_bind, Option.bind_some]

/-- The type that a keyword and brackets stand for. -/
inductive TypeOf (keyword : List Char) : Option (List Char) → FieldType → Prop
  | int {kind : IntKind} (hkind : IntKind.ofKeyword? (String.ofList keyword) = some kind) :
      TypeOf keyword none (.int kind none)
  | bounded {kind : IntKind} {brackets : List Char} {b : Bounds}
      (hkind : IntKind.ofKeyword? (String.ofList keyword) = some kind)
      (hbounds : bounds? brackets = some b) :
      TypeOf keyword (some brackets) (.int kind (some b))
  | plain (hkind : IntKind.ofKeyword? (String.ofList keyword) = none) :
      TypeOf keyword none (plainType (String.ofList keyword))

theorem fieldType_eq_ok {keyword : List Char} {brackets : Option (List Char)} {owner : String}
    {type : FieldType} :
    fieldType (String.ofList keyword) brackets owner = .ok type ↔
      TypeOf keyword brackets type := by
  constructor
  · intro h
    rw [fieldType.eq_def] at h
    split at h
    · next kind hkind => exact Except.ok.inj h ▸ .int hkind
    · next kind brackets hkind =>
      split at h
      · next b hbounds => exact Except.ok.inj h ▸ .bounded hkind hbounds
      · cases h
    · next hkind => exact Except.ok.inj h ▸ .plain hkind
    · cases h
  · intro h
    cases h with
    | int hkind => simp only [fieldType, hkind]
    | bounded hkind hbounds => simp only [fieldType, hkind, hbounds]
    | plain hkind => simp only [fieldType, hkind]

/-- The bounds of a type are at fault as the bounds of its owner, not as text. -/
theorem fieldType_eq_error {keyword owner : String} {brackets : Option (List Char)} {fault : Fault}
    (h : fieldType keyword brackets owner = .error fault) :
    ∃ cause, fault = .badBounds owner cause ∧
      ∀ other, fieldType keyword brackets other = .error (.badBounds other cause) := by
  unfold fieldType at h ⊢
  split at h
  · cases h
  · split at h
    · cases h
    · exact ⟨_, (Except.error.inj h).symm, fun _ => rfl⟩
  · cases h
  · exact ⟨_, (Except.error.inj h).symm, fun _ => rfl⟩

/-! ### Fields -/

/-- What stands between a type and a name: blanks, or brackets with or without blanks around. -/
inductive Separator : Option (List Char) → List Char → Prop
  | blanks {space : List Char} (apart : space ≠ []) (hspace : Blanks space) : Separator none space
  | brackets {before inside after : List Char} (hbefore : Blanks before) (hinside : ']' ∉ inside)
      (hafter : Blanks after) :
      Separator (some ('[' :: (inside ++ [']']))) (before ++ '[' :: (inside ++ ']' :: after))

/-- What stands behind a name: nothing, or a colon and a literal. -/
inductive Ending : Option (List Char) → List Char → Prop
  | nothing {space : List Char} (hspace : Blanks space) : Ending none space
  | literal {space : List Char} (hspace : Blanks space) (raw : List Char) :
      Ending (some (Text.trim raw)) (space ++ ':' :: raw)

/-- A declaration: a type, a name and perhaps a default. -/
structure Declaration.Written (d : Declaration) (text : List Char) : Prop where
  type : Text.isIdentifier d.type
  name : Text.isIdentifier d.name
  text : ∃ separator ending, Separator d.brackets separator ∧ Ending d.default ending ∧
    text = d.type ++ (separator ++ (d.name ++ ending))

theorem brackets?_eq_some {brackets rest : List Char} :
    brackets? text = some (brackets, rest) ↔ ∃ inside, ']' ∉ inside ∧
      brackets = '[' :: (inside ++ [']']) ∧ text = '[' :: (inside ++ ']' :: rest) := by
  constructor
  · intro h
    rw [brackets?.eq_def] at h
    split at h
    · next inside =>
      simp only at h
      split at h
      · next after hdrop =>
        obtain ⟨rfl, rfl⟩ := Prod.mk.inj (Option.some.inj h)
        obtain ⟨heq, hnot⟩ := takeWhile_ne_eq hdrop
        exact ⟨_, hnot, rfl, congrArg ('[' :: ·) heq⟩
      · cases h
    · cases h
  · rintro ⟨inside, hnot, rfl, rfl⟩
    simp only [brackets?, takeWhile_ne_append hnot, List.drop_left]

theorem separator?_eq_some {brackets : Option (List Char)} {rest : List Char}
    (h : separator? text = some (brackets, rest)) :
    ∃ separator, Separator brackets separator ∧ text = separator ++ rest := by
  rw [separator?] at h
  obtain ⟨before, hbefore, htext⟩ := Text.blanks_skipped text
  split at h
  · next inside hopen =>
    simp only [Option.bind_eq_bind, Option.bind_eq_some_iff] at h
    obtain ⟨⟨found, behind⟩, hfound, h⟩ := h
    obtain ⟨rfl, rfl⟩ := Prod.mk.inj (Option.some.inj h)
    obtain ⟨inside, hinside, rfl, heq⟩ := brackets?_eq_some.1 hfound
    obtain ⟨after, hafter, hbehind⟩ := Text.blanks_skipped behind
    refine ⟨_, .brackets hbefore hinside hafter, ?_⟩
    rw [htext, hopen, heq]
    simpa using hbehind
  · split at h
    · next hless =>
      obtain ⟨rfl, rfl⟩ := Prod.mk.inj (Option.some.inj h)
      refine ⟨before, .blanks ?_ hbefore, htext⟩
      rintro rfl
      rw [List.nil_append] at htext
      rw [← htext] at hless
      exact Nat.lt_irrefl _ hless
    · cases h

theorem separator?_of_separator {brackets : Option (List Char)} {separator rest : List Char}
    (h : Separator brackets separator) (hblank : ∀ c ∈ rest.head?, ¬Text.isBlank c)
    (hopen : ∀ c ∈ rest.head?, c ≠ '[') :
    separator? (separator ++ rest) = some (brackets, rest) := by
  cases h with
  | blanks hne hspace =>
    have hskip : Text.skipBlanks (separator ++ rest) = rest := by
      rw [Text.skipBlanks_append hspace, Text.skipBlanks_of_head hblank]
    have hless : rest.length < (separator ++ rest).length := by
      have := List.length_pos_of_ne_nil hne
      rw [List.length_append]
      omega
    rw [separator?, hskip]
    split
    · exact absurd rfl (hopen '[' rfl)
    · rw [if_pos hless]
  | @brackets before inside after hbefore hinside hafter =>
    have hskip : Text.skipBlanks (before ++ '[' :: (inside ++ ']' :: after) ++ rest) =
        '[' :: (inside ++ ']' :: (after ++ rest)) := by
      rw [List.append_assoc, Text.skipBlanks_append hbefore, List.cons_append,
        Text.skipBlanks_cons (by decide), List.append_assoc, List.cons_append]
    have hread : brackets? ('[' :: (inside ++ ']' :: (after ++ rest))) =
        some ('[' :: (inside ++ [']']), after ++ rest) :=
      brackets?_eq_some.2 ⟨inside, hinside, rfl, rfl⟩
    simp only [separator?, hskip, hread, Option.bind_eq_bind,
      Option.bind_some, Text.skipBlanks_append hafter, Text.skipBlanks_of_head hblank]

theorem separator_head {brackets : Option (List Char)} {separator : List Char}
    (h : Separator brackets separator) (rest : List Char) :
    ∀ c ∈ (separator ++ rest).head?, ¬Text.isIdentChar c := by
  cases h with
  | blanks hne hspace =>
    rw [List.head?_append_of_ne_nil _ hne]
    exact hspace.ends
  | brackets hbefore _ _ =>
    rw [List.append_assoc]
    exact hbefore.append_ends (by simp; decide)

theorem ending_head {default : Option (List Char)} {ending : List Char}
    (h : Ending default ending) : ∀ c ∈ ending.head?, ¬Text.isIdentChar c := by
  cases h with
  | nothing hspace => exact hspace.ends
  | literal hspace raw => exact hspace.append_ends (by simp; decide)

theorem declaration?_eq_some {d : Declaration} :
    declaration? text = some d ↔ d.Written text := by
  constructor
  · intro h
    simp only [declaration?, Option.bind_eq_bind, Option.bind_eq_some_iff] at h
    obtain ⟨⟨type, afterType⟩, htype, ⟨brackets, afterBrackets⟩, hbrackets, ⟨name, afterName⟩,
      hname, h⟩ := h
    obtain ⟨hidentType, -, rfl⟩ := Text.identifier?_eq_some.1 htype
    obtain ⟨separator, hseparator, rfl⟩ := separator?_eq_some hbrackets
    obtain ⟨hidentName, -, rfl⟩ := Text.identifier?_eq_some.1 hname
    split at h
    · next hend =>
      obtain rfl := Option.some.inj h
      have hspace := Text.skipBlanks_eq_nil.1 hend
      exact ⟨hidentType, hidentName, _, _, hseparator, .nothing hspace, rfl⟩
    · next raw hcolon =>
      obtain rfl := Option.some.inj h
      obtain ⟨space, hspace, rfl⟩ := (Text.skipBlanks_eq_cons (by decide)).1 hcolon
      exact ⟨hidentType, hidentName, _, _, hseparator, .literal hspace raw, rfl⟩
    · cases h
  · intro h
    obtain ⟨type, brackets, name, default⟩ := d
    obtain ⟨htype, hname, separator, ending, hseparator, hending, rfl⟩ := h
    have hfirst := Text.isIdentChar_of_head hname ending
    have hread := separator?_of_separator hseparator
      (fun c hc => Text.not_isBlank_of_isIdentChar (hfirst c hc))
      (fun c hc he => absurd (hfirst c hc) (he ▸ by decide))
    simp only [declaration?, Option.bind_eq_bind, Option.bind_some, hread,
      Text.identifier?_of_isIdentifier htype (separator_head hseparator _),
      Text.identifier?_of_isIdentifier hname (ending_head hending)]
    cases hending with
    | nothing hspace => rw [hspace.skip]
    | literal hspace raw =>
      rw [Text.skipBlanks_append hspace, Text.skipBlanks_cons (c := ':') (by decide)]
      rfl

end WireSchema.Schema
