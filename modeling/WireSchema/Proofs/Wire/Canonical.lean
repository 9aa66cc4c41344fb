import WireSchema.Proofs.Wire.Direct

/-! The value that stands for another once it has been written. It has the fields that are
written and no others, each in the one form that its bytes have: a number with the
precision of its type, an enum by the name of its code, and any value as its JSON text
says. -/

namespace WireSchema

namespace Canonical

/-- A value of a type in the form that is read back, structs being given by `nested`. -/
def value? (nested : StructDef → Value → Option Value) : ResolvedType → Value → Option Value
  | .bool, v => v.bool?.map .bool
  | .string, v => v.string?.map .string
  | .int _ _, v => v.int?.map .int
  | .float32, v => v.float?.map fun x => .float x.narrow.widen
  | .float64, v => v.float?.map .float
  | .any, v => (Value.ofJson v.toJson).toOption
  | .enum e, v => ((Encode.code? e v).bind e.name?).map .string
  | .struct s, v => nested s v

/-- The fields that are written, in their order, with what is read back for them. -/
def rows? (d : Document) (nested : StructDef → Value → Option Value) (s : StructDef)
    (members : Table Value) : List Field → Option (List (String × Value))
  | [] => some []
  | f :: more =>
    match Direct.given? members f with
    | none => rows? d nested s members more
    | some given => do
      let type ← (d.resolve (some s) f.type).toOption
      let v ← value? nested type (given type)
      let later ← rows? d nested s members more
      some ((f.name, v) :: later)

/-- A struct, where `levels` may still be entered. -/
def struct? (d : Document) : (levels : Nat) → StructDef → Value → Option Value
  | 0, _, _ => none
  | levels + 1, s, v => do
    let members ← v.object?
    let rows ← rows? d (struct? d levels) s members s.fields
    some (.object (Table.ofList rows))

end Canonical

/-! ### Written fields -/

/-- The field of a struct is written for a value of the struct, as a value of a type. -/
structure Writes (d : Document) (s : StructDef) (v : Value) (f : Field) (type : ResolvedType)
    (w : Value) : Prop where
  declared : f ∈ s.fields
  resolved : d.resolve (some s) f.type = .ok type
  given : ∃ members given, v.object? = some members ∧ Direct.given? members f = some given ∧
    w = given type

/-- A struct is encoded, with a value, in the course of encoding another or as the other. -/
inductive Enters (d : Document) : StructDef → Value → StructDef → Value → Prop
  | here {s : StructDef} {v : Value} : Enters d s v s v
  | field {s t u : StructDef} {v w x : Value} {f : Field} (h : Writes d s v f (.struct t) w)
      (below : Enters d t w u x) : Enters d s v u x

/-- The fields that are written come first: none is left out before one of them. -/
def Leading (s : StructDef) (members : Table Value) : Prop :=
  ∃ first later, s.fields = first ++ later ∧ (∀ f ∈ first, Direct.written members f) ∧
    ∀ f ∈ later, ¬Direct.written members f

/-- Encoding the value loses no field: at every level the written fields come first, and what is
written as JSON can be read. -/
structure Faithful (d : Document) (s : StructDef) (v : Value) : Prop where
  leading : ∀ t w, Enters d s v t w → ∀ members, w.object? = some members → Leading t members
  json : ∀ t w f x, Enters d s v t w → Writes d t w f .any x →
    ∃ u, Value.ofJson x.toJson = .ok u

/-- Looks through the levels for fields that encoding the value would lose. -/
def keepsFields (d : Document) : (levels : Nat) → StructDef → Value → Bool
  | 0, _, _ => false
  | levels + 1, s, v =>
    match v.object? with
    | none => true
    | some members =>
      (s.fields.dropWhile (Direct.written members)).all (!Direct.written members ·) &&
        s.fields.all fun f =>
          match Direct.given? members f, d.resolve (some s) f.type with
          | some given, .ok .any => (Value.ofJson (given .any).toJson).isOk
          | some given, .ok (.struct t) => keepsFields d levels t (given (.struct t))
          | _, _ => true

theorem Faithful.below {d : Document} {s t : StructDef} {v w : Value} {f : Field}
    (h : Faithful d s v) (hw : Writes d s v f (.struct t) w) : Faithful d t w :=
  ⟨fun u x he => h.leading u x (.field hw he), fun u x g y he => h.json u x g y (.field hw he)⟩

theorem leading_of_all {s : StructDef} {members : Table Value}
    (h : (s.fields.dropWhile (Direct.written members)).all (!Direct.written members ·)) :
    Leading s members := by
  refine ⟨s.fields.takeWhile (Direct.written members), _,
    List.takeWhile_append_dropWhile.symm, fun f hf => ?_, fun f hf => ?_⟩
  · exact List.all_eq_true.1 List.all_takeWhile f hf
  · simpa using List.all_eq_true.1 h f hf

/-- What passes the look through the levels loses no field. -/
theorem faithful_of_keepsFields {d : Document} {levels : Nat} :
    ∀ {s : StructDef} {v : Value}, keepsFields d levels s v → Faithful d s v := by
  induction levels with
  | zero => intro s v h; cases h
  | succ levels ih =>
    intro s v h
    have hfields {f : Field} {type : ResolvedType} {w : Value} (hw : Writes d s v f type w) :
        (type = .any → (Value.ofJson w.toJson).isOk) ∧
          ∀ t, type = .struct t → Faithful d t w := by
      obtain ⟨members, given, hv, hgiven, rfl⟩ := hw.given
      simp only [keepsFields, hv, Bool.and_eq_true, List.all_eq_true] at h
      have hf := h.2 f hw.declared
      rw [hgiven, hw.resolved] at hf
      refine ⟨?_, ?_⟩
      · rintro rfl
        exact hf
      · rintro t rfl
        exact ih hf
    constructor
    · intro t w he members hw
      cases he with
      | here =>
        simp only [keepsFields, hw, Bool.and_eq_true] at h
        exact leading_of_all h.1
      | field hwrites below => exact ((hfields hwrites).2 _ rfl).leading t w below members hw
    · intro t w f x he hx
      cases he with
      | here =>
        have hok := (hfields hx).1 rfl
        cases hu : Value.ofJson x.toJson with
        | ok u => exact ⟨u, rfl⟩
        | error fault => rw [hu] at hok; cases hok
      | field hwrites below => exact ((hfields hwrites).2 _ rfl).json t w f x below hx

end WireSchema
