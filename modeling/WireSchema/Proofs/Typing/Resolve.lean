import WireSchema.Proofs.Schema.WellFormed
import WireSchema.Typing.Resolve

/-! What a resolved type says about the declared one. A name stands for an enum or a struct
and for nothing else, and a struct that it stands for is one of the document. -/

namespace WireSchema

/-- A type as two documents resolve it: the same, or two structs of one name. -/
inductive SameType : ResolvedType → ResolvedType → Prop
  | refl (type : ResolvedType) : SameType type type
  | struct {s t : StructDef} (h : s.name = t.name) : SameType (.struct s) (.struct t)

namespace Document

variable {d : Document} {scope : Option StructDef} {name : String} {type : FieldType}

theorem named?_eq_some {r : ResolvedType} (h : d.named? scope name = some r) :
    (∃ e, r = .enum e) ∨ ∃ s, r = .struct s ∧ d.struct? name = some s := by
  rw [named?] at h
  split at h
  · next e _ => exact .inl ⟨e, (Option.some.inj h).symm⟩
  · next e _ _ => exact .inl ⟨e, (Option.some.inj h).symm⟩
  · next s _ _ hs => exact .inr ⟨s, (Option.some.inj h).symm, hs⟩
  · cases h

theorem resolve_named {r : ResolvedType} (h : d.resolve scope (.named name) = .ok r) :
    (∃ e, r = .enum e) ∨ ∃ s, r = .struct s ∧ d.struct? name = some s := by
  rw [resolve] at h
  split at h
  · next hr => exact named?_eq_some (Except.ok.inj h ▸ hr)
  · cases h

/-- Only a name may stand for nothing, and the fault says in which struct. -/
theorem eq_named_of_resolve {fault : Fault} (h : d.resolve scope type = .error fault) :
    ∃ name, type = .named name ∧ fault = .unknownType name (scope.map (·.name)) := by
  cases type with
  | named name =>
    rw [resolve] at h
    split at h
    · cases h
    · exact ⟨name, rfl, (Except.error.inj h).symm⟩
  | _ => cases h

theorem resolve_eq_error {fault : Fault} (h : d.resolve scope type = .error fault) :
    ∃ name struct, fault = .unknownType name struct := by
  obtain ⟨name, -, hfault⟩ := eq_named_of_resolve h
  exact ⟨name, _, hfault⟩

theorem eq_int_of_resolve {kind : IntKind} {bounds : Option Bounds}
    (h : d.resolve scope type = .ok (.int kind bounds)) : type = .int kind bounds := by
  cases type with
  | int kind' bounds' =>
    obtain ⟨rfl, rfl⟩ := ResolvedType.int.inj (Except.ok.inj h)
    rfl
  | named name => obtain ⟨e, he⟩ | ⟨s, hs, -⟩ := resolve_named h <;> contradiction
  | _ => cases h

theorem struct?_of_resolve {s : StructDef} (h : d.resolve scope type = .ok (.struct s)) :
    ∃ name, d.struct? name = some s := by
  cases type with
  | named name =>
    obtain ⟨e, he⟩ | ⟨t, ht, hname⟩ := resolve_named h
    · cases he
    · exact ⟨name, ResolvedType.struct.inj ht ▸ hname⟩
  | _ => cases h

/-- In a document that was read, a struct that a field refers to is under its own name. -/
theorem WellFormed.struct?_of_resolve (hd : d.WellFormed) {s : StructDef}
    (h : d.resolve scope type = .ok (.struct s)) : d.struct? s.name = some s := by
  obtain ⟨name, hname⟩ := d.struct?_of_resolve h
  obtain ⟨rfl, -⟩ := hd.structs name s hname
  exact hname

end Document

end WireSchema
