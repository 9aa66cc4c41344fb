import WireSchema.Proofs.Wire.Direct
import WireSchema.Wire.Decode

/-! Runs under two limits. Under the tighter ones encoding and decoding end as they do under the
others, in the result and in the fault, or else with the fault of a limit. The two runs are
followed step by step, since another fault may come first in one of them only if a limit
has already ended the other. -/

namespace WireSchema

open Outcome

/-- Limits that allow no more. -/
instance : LE Limits := ⟨fun l m => l.maxDepth ≤ m.maxDepth ∧ l.maxLength ≤ m.maxLength⟩

/-- The faults of going past a limit. -/
def Fault.isLimit : Fault → Bool
  | .tooDeep _ _ | .tooLong _ _ _ => true
  | _ => false

/-- One run ends as another does, or else at a limit. -/
def Agrees {α : Type} (x y : Except Fault α) : Prop :=
  x = y ∨ ∃ fault, x = .error fault ∧ fault.isLimit

namespace Agrees

variable {α β : Type} {x y : Except Fault α}

theorem rfl : Agrees x x := .inl (Eq.refl x)

theorem limit {fault : Fault} (h : fault.isLimit) : Agrees (.error fault) x :=
  .inr ⟨fault, Eq.refl _, h⟩

theorem bind {f g : α → Except Fault β} (h : Agrees x y) (hfg : ∀ a, Agrees (f a) (g a)) :
    Agrees (x >>= f) (y >>= g) := by
  obtain h | ⟨fault, h, hlimit⟩ := h
  · subst h
    cases x with
    | error fault => exact rfl
    | ok a => exact hfg a
  · subst h
    exact limit hlimit

theorem map (f : α → β) (h : Agrees x y) : Agrees (x.map f) (y.map f) := by
  obtain h | ⟨fault, h, hlimit⟩ := h
  · exact h ▸ rfl
  · exact h ▸ limit hlimit

theorem eq_of_ok {a : α} (h : Agrees x y) (hx : x = .ok a) : y = .ok a := by
  obtain h | ⟨fault, h, -⟩ := h
  · exact h ▸ hx
  · rw [hx] at h
    cases h

end Agrees

section Agree
variable {d : Document} {limits more : Limits} {path : String}

/-- A check of a length that is made earlier under tighter limits. -/
theorem agrees_guard {α : Type} {length : Nat} {x : Except Fault α} (hl : limits ≤ more) :
    Agrees
      (if limits.maxLength.toNat < length then
        .error (.tooLong path length limits.maxLength.toNat) else x)
      (if more.maxLength.toNat < length then
        .error (.tooLong path length more.maxLength.toNat) else x) := by
  have hle : limits.maxLength.toNat ≤ more.maxLength.toNat := hl.2
  by_cases hlong : limits.maxLength.toNat < length
  · rw [if_pos hlong]
    exact .limit rfl
  · rw [if_neg hlong, if_neg (by omega)]
    exact .rfl

theorem levels_le (hl : limits ≤ more) : limits.levels ≤ more.levels :=
  Nat.succ_le_succ (show limits.maxDepth.toNat ≤ more.maxDepth.toNat from hl.1)

/-! ### Encoding -/

namespace Direct

variable {nested nested' : StructDef → Value → String → Except Fault (List UInt8)}

theorem framed_agrees (hl : limits ≤ more) (bytes : List UInt8) :
    Agrees (framed limits bytes path) (framed more bytes path) := by
  have h := @agrees_guard limits more path _ bytes.length
    (.ok (Varint.encode bytes.length ++ bytes)) hl
  simpa only [framed, ← Nat.not_lt, ite_not] using h

theorem value_agrees (hl : limits ≤ more)
    (hn : ∀ s v path, Agrees (nested s v path) (nested' s v path)) (type : ResolvedType)
    (v : Value) :
    Agrees (value limits nested type v path) (value more nested' type v path) := by
  cases type with
  | string =>
    cases v with
    | string s => exact framed_agrees hl _
    | _ => exact .rfl
  | any =>
    rw [value_any, value_any]
    exact framed_agrees hl _
  | struct t =>
    rw [value_struct, value_struct]
    exact (hn t v path).bind fun bytes => framed_agrees hl bytes
  | enum e =>
    rw [value_enum, value_enum]
    exact .rfl
  | bool => cases v <;> exact .rfl
  | int kind bounds => exact .rfl
  | float32 => exact .rfl
  | float64 => exact .rfl

theorem parts_agrees (hl : limits ≤ more)
    (hn : ∀ s v path, Agrees (nested s v path) (nested' s v path)) (s : StructDef)
    (members : Table Value) (fs : List Field) :
    Agrees (parts d limits nested s members path fs) (parts d more nested' s members path fs) := by
  induction fs with
  | nil => exact .rfl
  | cons f rest ih =>
    refine Agrees.bind ?_ fun first => ih.bind fun later => .rfl
    unfold field
    cases given? members f with
    | none => exact .rfl
    | some given =>
      refine Agrees.rfl.bind fun type => Agrees.rfl.bind fun _ => ?_
      exact (value_agrees hl hn type (given type)).bind fun bytes => .rfl

theorem struct_agrees (hl : limits ≤ more) {levels levels' : Nat} (hlevels : levels ≤ levels')
    (s : StructDef) (v : Value) (path : String) :
    Agrees (struct d limits levels s v path) (struct d more levels' s v path) := by
  induction levels generalizing levels' s v path with
  | zero => exact .limit rfl
  | succ levels ih =>
    obtain ⟨levels', rfl⟩ := Nat.exists_eq_add_of_le' (Nat.lt_of_lt_of_le levels.succ_pos hlevels)
    cases v with
    | object members =>
      exact (parts_agrees hl (ih (Nat.le_of_succ_le_succ hlevels)) s members s.fields).map _
    | _ => exact .rfl

end Direct

/-! ### Decoding -/

namespace Decode

variable {nested nested' : StructDef → Cursor → String → Except Fault (Value × Cursor)}

theorem payload_agrees (hl : limits ≤ more) (c : Cursor) :
    Agrees (payload limits c path) (payload more c path) :=
  Agrees.rfl.bind fun _ => agrees_guard hl

theorem value_agrees (hl : limits ≤ more)
    (hn : ∀ s c path, Agrees (nested s c path) (nested' s c path)) (type : ResolvedType)
    (c : Cursor) :
    Agrees (value limits nested type c path) (value more nested' type c path) := by
  cases type with
  | string => exact (payload_agrees hl c).bind fun _ => .rfl
  | any => exact (payload_agrees hl c).bind fun _ => .rfl
  | struct t =>
    exact (payload_agrees hl c).bind fun read => (hn t (.ofBytes read.1) path).bind fun _ => .rfl
  | _ => exact .rfl

theorem fields_agrees (hl : limits ≤ more)
    (hn : ∀ s c path, Agrees (nested s c path) (nested' s c path)) (s : StructDef)
    (fs : List Field) (members : Table Value) (c : Cursor) :
    Agrees (fields d limits nested s path fs members c)
      (fields d more nested' s path fs members c) := by
  induction fs generalizing members c with
  | nil => exact .rfl
  | cons f rest ih =>
    rw [fields, fields]
    split
    · exact .rfl
    · refine Agrees.rfl.bind fun type => ?_
      exact (value_agrees hl hn type c).bind fun read => ih _ read.2

theorem struct_agrees (hl : limits ≤ more) {levels levels' : Nat} (hlevels : levels ≤ levels')
    (s : StructDef) (c : Cursor) (path : String) :
    Agrees (struct d limits levels s c path) (struct d more levels' s c path) := by
  induction levels generalizing levels' s c path with
  | zero => exact .limit rfl
  | succ levels ih =>
    obtain ⟨levels', rfl⟩ := Nat.exists_eq_add_of_le' (Nat.lt_of_lt_of_le levels.succ_pos hlevels)
    exact (fields_agrees hl (ih (Nat.le_of_succ_le_succ hlevels)) s s.fields .empty c).bind
      fun _ => .rfl

end Decode

end Agree

namespace Document

variable {limits more : Limits}

theorem encode_agrees (d : Document) (hl : limits ≤ more) (name : String) (v : Value) :
    Agrees (d.encode limits name v) (d.encode more name v) := by
  rw [encode_direct, encode_direct, encodeDirect, encodeDirect]
  cases d.struct? name with
  | none => exact .rfl
  | some s => exact Direct.struct_agrees hl (levels_le hl) s v name

theorem decode_agrees (d : Document) (hl : limits ≤ more) (name : String) (bytes : List UInt8)
    (offset : Nat) :
    Agrees (d.decode limits name bytes offset) (d.decode more name bytes offset) :=
  Agrees.rfl.bind fun s =>
    (Decode.struct_agrees hl (levels_le hl) s ⟨bytes, offset⟩ name).bind fun _ => .rfl

end Document

end WireSchema
