import WireSchema.Proofs.Outcome
import WireSchema.Proofs.Schema.WellFormed
import WireSchema.Wire.Default

/-! Default literals as values. An object is written with a brace, and the literal of a schema
has none, so that no default is an object. -/

namespace WireSchema

open Outcome

namespace Json

theorem word_eq_ok {v w : Value} {letters text rest : List Char}
    (h : word v letters text = .ok (w, rest)) : w = v := by
  induction letters generalizing text with
  | nil => exact (Prod.mk.inj (Except.ok.inj h)).1.symm
  | cons letter letters ih =>
    cases text with
    | nil => cases h
    | cons c more =>
      rw [word] at h
      split at h
      · exact ih h
      · cases h

theorem object?_signed (negative : Bool) (m : Magnitude) : (signed negative m).object? = none := by
  unfold signed
  split
  · rfl
  · split <;> split <;> rfl

theorem number_eq_ok {negative : Bool} {text rest : List Char} {v : Value}
    (h : number negative text = .ok (v, rest)) : v.object? = none := by
  obtain ⟨⟨m, after⟩, -, h⟩ := bind_eq_ok.1 h
  obtain ⟨rfl, -⟩ := Prod.mk.inj (Except.ok.inj h)
  exact object?_signed negative m

theorem array_eq_ok {item : Reader Value} {text rest : List Char} {v : Value}
    (h : array item text = .ok (v, rest)) : v.object? = none := by
  unfold array at h
  split at h
  · cases h
  · obtain ⟨rfl, -⟩ := Prod.mk.inj (Except.ok.inj h)
    rfl
  · obtain ⟨⟨vs, after⟩, -, h⟩ := bind_eq_ok.1 h
    obtain ⟨rfl, -⟩ := Prod.mk.inj (Except.ok.inj h)
    rfl

/-- Only after a brace an object is read. -/
theorem object?_valueWith {item : Option (Reader Value)} {text rest : List Char} {v : Value}
    (hbrace : '{' ∉ text) (h : valueWith item text = .ok (v, rest)) : v.object? = none := by
  have hskip : '{' ∉ skipSpaces text := fun hmem =>
    hbrace ((List.dropWhile_suffix isSpace).subset hmem)
  rw [valueWith] at h
  generalize skipSpaces text = left at h hskip
  split at h
  · cases h
  · exact word_eq_ok h ▸ rfl
  · exact word_eq_ok h ▸ rfl
  · exact word_eq_ok h ▸ rfl
  · exact number_eq_ok h
  · obtain ⟨⟨s, after⟩, -, h⟩ := bind_eq_ok.1 h
    obtain ⟨rfl, -⟩ := Prod.mk.inj (Except.ok.inj h)
    rfl
  · split at h
    · exact array_eq_ok h
    · cases h
  · exact absurd List.mem_cons_self hskip
  · split at h
    · exact number_eq_ok h
    · cases h

theorem object?_parse {text : List Char} {v : Value} (hbrace : '{' ∉ text)
    (h : parse text = .ok v) : v.object? = none := by
  unfold parse at h
  split at h
  · next w hdocument =>
    obtain rfl := Except.ok.inj h
    obtain ⟨⟨u, rest⟩, hvalue, hdocument⟩ := bind_eq_ok.1 hdocument
    dsimp only at hdocument
    split at hdocument
    · exact Except.ok.inj hdocument ▸ object?_valueWith hbrace hvalue
    · cases hdocument
  · cases h

end Json

/-- Of whatever type, a literal is no object. -/
theorem ResolvedType.object?_liftDefault {raw : String} (hraw : Schema.Literal raw.toList)
    (type : ResolvedType) : (type.liftDefault raw).object? = none := by
  have hbrace : '{' ∉ raw.toList := hraw.marks '{' (by simp)
  unfold liftDefault
  split
  · rfl
  · rfl
  · next v _ hv => exact Json.object?_parse hbrace hv
  · rfl

/-- The default of a field is no object. -/
theorem Document.WellFormed.object?_liftDefault {d : Document} (hd : d.WellFormed) {key : String}
    {s : StructDef} (hs : d.struct? key = some s) {f : Field} (hf : f ∈ s.fields) {raw : String}
    (hraw : f.default = some raw) (type : ResolvedType) :
    (type.liftDefault raw).object? = none :=
  ResolvedType.object?_liftDefault (((hd.structs key s hs).2.fields f hf).default raw hraw) type

end WireSchema
