import WireSchema.Proofs.Typing.Resolve
import WireSchema.Proofs.Wire.Direct

/-! Objects that are encoded alike. For each field two objects give the same value or both none,
but where the value is an object that is taken for a struct, it may be another one as long as
these two are encoded alike as well. That they are so on every level follows from what one level
says about the next. -/

namespace WireSchema

open Outcome

theorem Value.eq_object {v : Value} {members : Table Value} (h : v.object? = some members) :
    v = .object members := by
  cases v <;> cases h
  rfl

namespace Direct

/-- Values of a type are the same, or objects that are related as one struct. -/
inductive Alike (R : StructDef → Table Value → Table Value → Prop) : ResolvedType → Value → Value →
    Prop
  | same (type : ResolvedType) (v : Value) : Alike R type v v
  | struct {t : StructDef} {members members' : Table Value} (h : R t members members') :
      Alike R (.struct t) (.object members) (.object members')

/-- Objects that are related as a struct give each of its fields the same value, or values that are
related as the struct of the field. -/
def Agreement (d : Document) (R : StructDef → Table Value → Table Value → Prop) : Prop :=
  ∀ key s members members', d.struct? key = some s → R s members members' → ∀ f ∈ s.fields,
    Option.Rel (fun given given' => ∀ type, d.resolve (some s) f.type = .ok type →
      Alike R type (given type) (given' type)) (given? members f) (given? members' f)

section Alike
variable {d : Document} {limits : Limits} {R : StructDef → Table Value → Table Value → Prop}
  {nested : StructDef → Value → String → Except Fault (List UInt8)} {s : StructDef}
  {members members' : Table Value} {path : String} {f : Field}

theorem parts_congr {fs : List Field}
    (h : ∀ f ∈ fs, field d limits nested s members path f =
      field d limits nested s members' path f) :
    parts d limits nested s members path fs = parts d limits nested s members' path fs := by
  induction fs with
  | nil => rfl
  | cons f more ih =>
    rw [List.forall_mem_cons] at h
    rw [parts, parts, h.1, ih h.2]

theorem field_alike
    (h : Option.Rel (fun given given' => ∀ type, d.resolve (some s) f.type = .ok type →
      Alike R type (given type) (given' type)) (given? members f) (given? members' f))
    (hn : ∀ t, d.resolve (some s) f.type = .ok (.struct t) → ∀ v v' path,
      Alike R (.struct t) v v' → nested t v path = nested t v' path) :
    field d limits nested s members path f = field d limits nested s members' path f := by
  rw [field, field]
  generalize given? members f = given at h
  generalize given? members' f = given' at h
  cases h with
  | none => rfl
  | @some given given' h =>
    cases htype : d.resolve (some s) f.type with
    | error fault => rfl
    | ok type =>
      simp only [ok_bind]
      generalize hv : given type = v
      generalize hv' : given' type = v'
      obtain hsame : Alike R type v v' := hv ▸ hv' ▸ h type htype
      cases hsame with
      | same => rfl
      | @struct t inner inner' hinner =>
        rw [value_struct, value_struct, hn t htype _ _ _ (.struct hinner)]
        rfl

/-- At every level objects that are related are encoded alike. -/
theorem Agreement.struct_eq (h : Agreement d R) (limits : Limits) (levels : Nat) {key : String}
    (hs : d.struct? key = some s) {v v' : Value} (hv : Alike R (.struct s) v v') (path : String) :
    struct d limits levels s v path = struct d limits levels s v' path := by
  induction levels generalizing key s v v' path with
  | zero => rfl
  | succ levels ih =>
    cases hv with
    | same => rfl
    | @struct _ members members' hR =>
      rw [struct, struct, parts_congr fun f hf => field_alike (h key s _ _ hs hR f hf) ?_]
      intro t ht w w' place hw
      obtain ⟨name, hname⟩ := d.struct?_of_resolve ht
      exact ih hname hw place

end Alike

end Direct

/-- A document encodes values alike that are alike as the struct of a name. -/
theorem Direct.Agreement.encode_eq {d : Document} {R : StructDef → Table Value → Table Value → Prop}
    (h : Agreement d R) {name : String} {s : StructDef} (hs : d.struct? name = some s)
    {v v' : Value} (hv : Alike R (.struct s) v v') (limits : Limits) :
    d.encode limits name v = d.encode limits name v' := by
  rw [Document.encode_direct, Document.encode_direct, Document.encodeDirect,
    Document.encodeDirect, hs]
  exact h.struct_eq limits limits.levels hs hv name

end WireSchema
