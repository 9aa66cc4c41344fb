import WireSchema.Proofs.Wire.Default
import WireSchema.Proofs.Wire.Direct
import WireSchema.Proofs.Wire.Trail

/-! Where a mismatch comes from. The fields of a struct are written in their order, so a struct
fails at its first field that fails, and a field fails with a mismatch because its value is
not accepted, or because of a field in its value. What is accepted has all that is written
for it, so no mismatch comes from the writing itself. -/

namespace WireSchema

open Outcome

namespace Encode

/-! ### Writing an accepted value -/

section Value
variable {limits : Limits}
  {nested : StructDef → Value → String → Array Item → Except Fault Plan} {type : ResolvedType}
  {v : Value} {path : String} {items : Array Item} {fault : Fault}

theorem checkLength_eq_error {length : Nat} (h : checkLength limits length path = .error fault) :
    limits.maxLength.toNat < length ∧ fault = .tooLong path length limits.maxLength.toNat := by
  rw [checkLength] at h
  split at h
  · next hlong => exact ⟨hlong, (Except.error.inj h).symm⟩
  · cases h

theorem text_eq_error {chars : List Char} (h : text limits chars path items = .error fault) :
    ∃ length, limits.maxLength.toNat < length ∧
      fault = .tooLong path length limits.maxLength.toNat := by
  obtain h | ⟨_, -, h⟩ := bind_eq_error.1 h
  · exact ⟨_, checkLength_eq_error h⟩
  · cases h

/-- An accepted value is too long, or it is a struct with a fault in it. -/
theorem value_eq_error (ha : type.accepts v)
    (h : value limits nested type v path items = .error fault) :
    (∃ length, limits.maxLength.toNat < length ∧
      fault = .tooLong path length limits.maxLength.toNat) ∨
      ∃ t, type = .struct t ∧ v.object?.isSome ∧
        nested t v path (items.push (.varint 0)) = .error fault := by
  cases type with
  | bool =>
    obtain ⟨b, hb⟩ := Option.isSome_iff_exists.1 ha
    simp [value, hb] at h
  | string =>
    obtain ⟨s, hs⟩ := Option.isSome_iff_exists.1 ha
    simp only [value, hs] at h
    exact .inl (text_eq_error h)
  | any => exact .inl (text_eq_error h)
  | float32 =>
    cases v with
    | int n => cases h
    | float x => cases h
    | _ => cases ha
  | float64 =>
    cases v with
    | int n => cases h
    | float x => cases h
    | _ => cases ha
  | int kind bounds =>
    cases hn : v.int? with
    | none => simp [ResolvedType.accepts, hn] at ha
    | some n => simp [value, hn] at h
  | enum e =>
    cases hc : code? e v with
    | some code => simp [value, hc] at h
    | none => cases v <;> simp_all [ResolvedType.accepts, code?]
  | struct t =>
    obtain h | ⟨inner, -, h⟩ := bind_eq_error.1 h
    · exact .inr ⟨t, rfl, ha, h⟩
    · obtain h | ⟨_, -, h⟩ := bind_eq_error.1 h
      · exact .inl ⟨_, checkLength_eq_error h⟩
      · cases h

end Value

/-- A field that does not stand in the way of the later ones: it is left out, or its type is found
and its value is accepted and written, whatever is already listed. -/
def Passes (d : Document) (limits : Limits) (levels : Nat) (s : StructDef)
    (members : Table Value) (path : String) (f : Field) : Prop :=
  fieldValue? d s members f = .ok none ∨
    ∃ type v, fieldValue? d s members f = .ok (some (type, v)) ∧ type.accepts v ∧
      ∀ items, ∃ plan, value limits (struct d limits levels) type v (path ++ "." ++ f.name) items =
        .ok plan

/-- At the end of the trail is the first value that its type does not accept. On each level the
fields before it pass. -/
inductive Rejects (d : Document) (limits : Limits) : (levels : Nat) → StructDef → Value →
    (path : String) → (trail : List String) → ResolvedType → Value → Prop
  | here {levels : Nat} {s : StructDef} {members : Table Value} {path : String}
      {before after : List Field} {f : Field} {type : ResolvedType} {x : Value}
      (declared : s.fields = before ++ f :: after)
      (passed : ∀ g ∈ before, Passes d limits levels s members path g)
      (given : fieldValue? d s members f = .ok (some (type, x))) (refused : ¬type.accepts x) :
      Rejects d limits (levels + 1) s (.object members) path [f.name] type x
  | nested {levels : Nat} {s t : StructDef} {members : Table Value} {path : String}
      {before after : List Field} {f : Field} {w : Value} {trail : List String}
      {type : ResolvedType} {x : Value} (declared : s.fields = before ++ f :: after)
      (passed : ∀ g ∈ before, Passes d limits levels s members path g)
      (given : fieldValue? d s members f = .ok (some (.struct t, w)))
      (inside : Rejects d limits levels t w (path ++ "." ++ f.name) trail type x) :
      Rejects d limits (levels + 1) s (.object members) path (f.name :: trail) type x

section Rejects
variable {d : Document} {limits : Limits} {levels : Nat} {s : StructDef} {v x : Value}
  {path : String} {trail : List String} {type : ResolvedType}

theorem fieldValue?_eq_some {members : Table Value} {f : Field}
    (h : fieldValue? d s members f = .ok (some (type, x))) :
    d.resolve (some s) f.type = .ok type ∧ (members.find? f.name = some x ∨
      ∃ raw, f.default = some raw ∧ x = type.liftDefault raw) := by
  rw [fieldValue?_eq] at h
  split at h
  · cases h
  · next given hgiven =>
    obtain ⟨resolved, hresolved, h⟩ := map_eq_ok.1 h
    obtain ⟨rfl, rfl⟩ := Prod.mk.inj (Option.some.inj h)
    obtain ⟨w, hw, rfl⟩ | ⟨-, raw, hraw, rfl⟩ := Direct.given?_eq_some hgiven
    · exact ⟨hresolved, .inl hw⟩
    · exact ⟨hresolved, .inr ⟨raw, hraw, rfl⟩⟩

theorem Rejects.object? (h : Rejects d limits levels s v path trail type x) :
    v.object?.isSome := by
  cases h <;> rfl

/-- The trail goes through supplied structs to the field with the value. -/
theorem Rejects.follows (hd : d.WellFormed) {key : String} (hs : d.struct? key = some s)
    (h : Rejects d limits levels s v path trail type x) :
    ∃ front t members f, trail = front ++ [f.name] ∧ Follows d s v front t (.object members) ∧
      f ∈ t.fields ∧ fieldValue? d t members f = .ok (some (type, x)) ∧ ¬type.accepts x := by
  induction h generalizing key with
  | @here _ s members _ before after f _ _ declared _ given refused =>
    have hf : f ∈ s.fields := declared ▸ List.mem_append_right _ List.mem_cons_self
    exact ⟨[], s, members, f, rfl, .here, hf, given, refused⟩
  | @nested _ s t members _ before after f w _ _ _ declared _ given inside ih =>
    have hf : f ∈ s.fields := declared ▸ List.mem_append_right _ List.mem_cons_self
    obtain ⟨hresolved, hw⟩ := fieldValue?_eq_some given
    have hpresent : (Value.object members).get? f.name = some w := by
      obtain hw | ⟨raw, hraw, rfl⟩ := hw
      · exact hw
      · exact absurd inside.object? (by simp [hd.object?_liftDefault hs hf hraw])
    obtain ⟨name, hname⟩ := d.struct?_of_resolve hresolved
    obtain ⟨front, u, inner, g, rfl, hfollows, hg, hgiven, hrefused⟩ := ih hname
    exact ⟨f.name :: front, u, inner, g, rfl, .field hf hpresent hresolved hfollows, hg, hgiven,
      hrefused⟩

end Rejects

end Encode

/-! ### The first field that fails -/

section Fields
variable {d : Document} {limits : Limits} {levels : Nat} {s : StructDef} {members : Table Value}
  {path : String} {f : Field} {fs : List Field} {fault : Fault}

/-- The fields fail as the first of them that fails. -/
theorem Direct.parts_eq_error_iff
    {nested : StructDef → Value → String → Except Fault (List UInt8)} :
    parts d limits nested s members path fs = .error fault ↔
      ∃ before f after, fs = before ++ f :: after ∧
        (∀ g ∈ before, ∃ bytes, field d limits nested s members path g = .ok bytes) ∧
        field d limits nested s members path f = .error fault := by
  induction fs with
  | nil =>
    refine iff_of_false (fun h => by cases h) ?_
    rintro ⟨before, f, after, hsplit, -⟩
    exact List.append_ne_nil_of_right_ne_nil before (List.cons_ne_nil f after) hsplit.symm
  | cons f more ih =>
    rw [parts, bind_eq_error]
    constructor
    · rintro (h | ⟨bytes, hfirst, h⟩)
      · exact ⟨[], f, more, rfl, List.forall_mem_nil _, h⟩
      · obtain h | ⟨later, -, h⟩ := bind_eq_error.1 h
        · obtain ⟨before, g, after, rfl, hpassed, hfault⟩ := ih.1 h
          exact ⟨f :: before, g, after, rfl, List.forall_mem_cons.2 ⟨⟨bytes, hfirst⟩, hpassed⟩,
            hfault⟩
        · split at h <;> cases h
    · rintro ⟨before, g, after, hsplit, hpassed, hfault⟩
      cases before with
      | nil =>
        obtain ⟨rfl, rfl⟩ := List.cons.inj hsplit
        exact .inl hfault
      | cons first before =>
        obtain ⟨rfl, rfl⟩ := List.cons.inj hsplit
        rw [List.forall_mem_cons] at hpassed
        obtain ⟨⟨bytes, hfirst⟩, hpassed⟩ := hpassed
        have hlater := ih.2 ⟨before, g, after, rfl, hpassed, hfault⟩
        exact .inr ⟨bytes, hfirst, bind_eq_error.2 (.inl hlater)⟩

/-- What is written for a field, in the terms in which it is encoded. -/
theorem Direct.field_eq {nested : StructDef → Value → String → Except Fault (List UInt8)} :
    field d limits nested s members path f =
      Encode.fieldValue? d s members f >>= fun given =>
        match given with
        | none => .ok none
        | some (type, v) =>
          type.validate v (path ++ "." ++ f.name) >>= fun _ =>
            (value limits nested type v (path ++ "." ++ f.name)).map some := by
  rw [field, Encode.fieldValue?_eq]
  cases given? members f with
  | none => rfl
  | some given =>
    cases d.resolve (some s) f.type with
    | error fault => rfl
    | ok type =>
      simp only [ok_bind, map_ok]
      cases type.validate (given type) (path ++ "." ++ f.name) with
      | error fault => rfl
      | ok _ => cases value limits nested type (given type) (path ++ "." ++ f.name) <;> rfl

theorem ResolvedType.validate_eq_ok {type : ResolvedType} {v : Value} :
    type.validate v path = .ok () ↔ type.accepts v := by
  refine ⟨accepts_of_validate, fun h => ?_⟩
  rw [validate, if_pos h]

/-- A value is listed from any items on, or from none. -/
theorem Encode.exists_plan_iff {type : ResolvedType} {v : Value} :
    (∀ items, ∃ plan, value limits (struct d limits levels) type v path items = .ok plan) ↔
      ∃ bytes, Direct.value limits (Direct.struct d limits levels) type v path = .ok bytes := by
  have hlists := fun items => value_lists limits items (struct_lists limits d levels) type v path
  constructor
  · intro h
    obtain ⟨plan, hplan⟩ := h #[]
    have hitems := hlists #[]
    rw [hplan] at hitems
    cases hb : Direct.value limits (Direct.struct d limits levels) type v path with
    | error fault => exact (hb ▸ hitems).elim
    | ok bytes => exact ⟨bytes, rfl⟩
  · rintro ⟨bytes, hbytes⟩ items
    have hitems := hlists items
    rw [hbytes] at hitems
    cases hp : value limits (struct d limits levels) type v path items with
    | error fault => exact (hp ▸ hitems).elim
    | ok plan => exact ⟨plan, rfl⟩

theorem Encode.passes_iff :
    Passes d limits levels s members path f ↔
      ∃ bytes, Direct.field d limits (Direct.struct d limits levels) s members path f =
        .ok bytes := by
  rw [Direct.field_eq, Passes]
  cases hg : fieldValue? d s members f with
  | error fault => simp
  | ok given =>
    cases given with
    | none => simp
    | some given =>
      obtain ⟨type, v⟩ := given
      simp only [Except.ok.injEq, Option.some.injEq, Prod.mk.injEq, exists_plan_iff, ok_bind,
        reduceCtorEq, false_or, bind_eq_ok, map_eq_ok]
      constructor
      · rintro ⟨_, _, ⟨rfl, rfl⟩, ha, bytes, hbytes⟩
        exact ⟨some bytes, (), ResolvedType.validate_eq_ok.2 ha, bytes, hbytes, rfl⟩
      · rintro ⟨_, ⟨⟩, hvalid, bytes, hbytes, -⟩
        exact ⟨type, v, ⟨rfl, rfl⟩, ResolvedType.validate_eq_ok.1 hvalid, bytes, hbytes⟩

/-- A field fails with a mismatch where its value is not accepted, or in its value. -/
theorem Direct.field_eq_mismatch
    {nested : StructDef → Value → String → Except Fault (List UInt8)}
    {place expected actual : String} :
    field d limits nested s members path f = .error (.mismatch place expected actual) ↔
      ∃ type v, Encode.fieldValue? d s members f = .ok (some (type, v)) ∧
        ((¬type.accepts v ∧ place = path ++ "." ++ f.name ∧ expected = type.describe ∧
          actual = v.describe) ∨
        ∃ t, type = .struct t ∧ v.object?.isSome ∧
          nested t v (path ++ "." ++ f.name) = .error (.mismatch place expected actual)) := by
  rw [field_eq]
  cases hg : Encode.fieldValue? d s members f with
  | error fault =>
    -- a type that is not found is another fault
    refine iff_of_false (fun h => ?_) (by simp)
    obtain rfl := Except.error.inj h
    rw [Encode.fieldValue?_eq] at hg
    split at hg
    · cases hg
    · obtain ⟨name, struct, h⟩ := d.resolve_eq_error (map_eq_error.1 hg)
      cases h
  | ok given =>
    cases given with
    | none => simp
    | some given =>
      obtain ⟨type, v⟩ := given
      simp only [ok_bind, bind_eq_error, map_eq_error, Except.ok.injEq, Option.some.injEq,
        Prod.mk.injEq]
      constructor
      · intro h
        refine ⟨type, v, ⟨rfl, rfl⟩, ?_⟩
        have hgiven : type.validate v (path ++ "." ++ f.name) =
            .error (.mismatch place expected actual) ∨
            type.validate v (path ++ "." ++ f.name) = .ok () ∧
              value limits nested type v (path ++ "." ++ f.name) =
                .error (.mismatch place expected actual) := by
          obtain h | ⟨_, hvalid, h⟩ := h
          · exact .inl h
          · exact .inr ⟨hvalid, h⟩
        obtain ⟨hrefused, hfault⟩ | ⟨_, -, hlong⟩ | h := given_eq_error hgiven
        · obtain ⟨rfl, rfl, rfl⟩ := Fault.mismatch.inj hfault
          exact .inl ⟨hrefused, rfl, rfl, rfl⟩
        · cases hlong
        · exact .inr h
      · rintro ⟨_, _, ⟨rfl, rfl⟩, ⟨hrefused, rfl, rfl, rfl⟩ | ⟨t, rfl, hobject, h⟩⟩
        · left
          rw [ResolvedType.validate, if_neg hrefused, ResolvedType.refuse]
        · refine .inr ⟨(), ResolvedType.validate_eq_ok.2 hobject, ?_⟩
          rw [value_struct, h, error_bind]

end Fields

/-! ### The whole value -/

section Struct
variable {d : Document} {limits : Limits} {levels : Nat} {s : StructDef} {v : Value}
  {path place expected actual : String}

/-- A struct fails with a mismatch where it is no object, or at the first value on any level that is
not accepted. -/
theorem Direct.struct_eq_mismatch :
    struct d limits levels s v path = .error (.mismatch place expected actual) ↔
      (levels ≠ 0 ∧ v.object? = none ∧ place = path ∧
        expected = (ResolvedType.struct s).describe ∧ actual = v.describe) ∨
      ∃ trail type x, Encode.Rejects d limits levels s v path trail type x ∧
        place = trailPath path trail ∧ expected = type.describe ∧ actual = x.describe := by
  induction levels generalizing s v path with
  | zero =>
    refine iff_of_false (fun h => by cases h) ?_
    rintro (⟨h, -⟩ | ⟨_, _, _, h, -⟩)
    · exact h rfl
    · cases h
  | succ levels ih =>
    cases hv : v.object? with
    | none =>
      have hstruct : struct d limits (levels + 1) s v path =
          .error (.mismatch path (ResolvedType.struct s).describe v.describe) := by
        cases v <;> first | rfl | cases hv
      rw [hstruct]
      constructor
      · intro h
        obtain ⟨rfl, rfl, rfl⟩ := Fault.mismatch.inj (Except.error.inj h)
        exact .inl ⟨Nat.succ_ne_zero _, rfl, rfl, rfl, rfl⟩
      · rintro (⟨-, -, rfl, rfl, rfl⟩ | ⟨_, _, _, h, -⟩)
        · rfl
        · exact absurd h.object? (by simp [hv])
    | some members =>
      obtain rfl : v = .object members := by
        cases v <;> cases hv
        rfl
      rw [struct, map_eq_error, parts_eq_error_iff]
      simp only [reduceCtorEq, false_and, and_false, false_or, ← Encode.passes_iff]
      constructor
      · rintro ⟨before, f, after, hdeclared, hpassed, hfault⟩
        obtain ⟨type, x, hgiven, ⟨hrefused, rfl, rfl, rfl⟩ | ⟨t, rfl, hobject, hnested⟩⟩ :=
          field_eq_mismatch.1 hfault
        · exact ⟨[f.name], type, x, .here hdeclared hpassed hgiven hrefused, rfl, rfl, rfl⟩
        · obtain ⟨-, hnone, -⟩ | ⟨trail, type, y, hinside, rfl, rfl, rfl⟩ := ih.1 hnested
          · exact absurd hobject (by simp [hnone])
          · exact ⟨f.name :: trail, type, y, .nested hdeclared hpassed hgiven hinside, rfl, rfl,
              rfl⟩
      · rintro ⟨trail, type, x, hrejects, rfl, rfl, rfl⟩
        cases hrejects with
        | @here _ _ _ _ before after f _ _ declared passed given refused =>
          exact ⟨before, f, after, declared, passed,
            field_eq_mismatch.2 ⟨type, x, given, .inl ⟨refused, rfl, rfl, rfl⟩⟩⟩
        | @nested _ _ t _ _ before after f w trail _ _ declared passed given inside =>
          have hnested := ih.2 (.inr ⟨trail, type, x, inside, rfl, rfl, rfl⟩)
          exact ⟨before, f, after, declared, passed,
            field_eq_mismatch.2 ⟨.struct t, w, given, .inr ⟨t, rfl, inside.object?, hnested⟩⟩⟩

end Struct

namespace Document

/-- Encoding ends in a mismatch exactly if the value of the struct is no object, at the name of the
struct, or if a trail of fields leads to a value that its type does not accept while all fields
before it pass, at the path of the trail. The type and the value are the ones that the fault
describes. What is accepted is written: it fails for its length only, or in a struct. -/
theorem encode_eq_mismatch_iff (d : Document) (limits : Limits) :
    (∀ name v path expected actual,
      d.encode limits name v = .error (.mismatch path expected actual) ↔
        ∃ s, d.struct? name = some s ∧
          ((path = name ∧ v.object? = none ∧ expected = (ResolvedType.struct s).describe ∧
            actual = v.describe) ∨
          ∃ trail type x, Encode.Rejects d limits limits.levels s v name trail type x ∧
            path = trailPath name trail ∧ expected = type.describe ∧ actual = x.describe)) ∧
    ∀ nested type v path items fault, ResolvedType.accepts type v →
      Encode.value limits nested type v path items = .error fault →
        (∃ length, limits.maxLength.toNat < length ∧
          fault = .tooLong path length limits.maxLength.toNat) ∨
        ∃ t, type = .struct t ∧ v.object?.isSome ∧
          nested t v path (items.push (.varint 0)) = .error fault := by
  refine ⟨fun name v path expected actual => ?_, fun _ _ _ _ _ _ => Encode.value_eq_error⟩
  rw [encode_direct, encodeDirect]
  cases hs : d.struct? name with
  | none => simp
  | some s =>
    have hlevels : limits.levels ≠ 0 := Nat.succ_ne_zero _
    simp only [Direct.struct_eq_mismatch, Option.some.injEq, exists_eq_left', hlevels, ne_eq,
      not_false_eq_true, true_and]
    rw [and_left_comm]

/-- A struct with a default that does not fit its type, in another one. -/
def unfit : Document :=
  ⟨Table.ofList [("A", ⟨"A", [⟨"n", .int .uint8 none, some "300"⟩], .empty⟩),
    ("S", ⟨"S", [⟨"b", .bool, none⟩, ⟨"a", .named "A", none⟩], .empty⟩)], .empty⟩

/-- Behind a field that is written, the default of the inner field is refused. A text that is
accepted is too long. -/
theorem encode_eq_mismatch_default :
    compile "struct A \x7b uint8 n : 300; \x7d struct S \x7b bool b; A a; \x7d" = .ok unfit ∧
      (∃ s, unfit.struct? "S" = some s ∧ ∃ trail type x,
        Encode.Rejects unfit {} 65 s
          (.object (Table.ofList [("a", .object .nil), ("b", .bool true)])) "S" trail type x ∧
        "S.a.n" = trailPath "S" trail ∧ "uint8 in range [0,255]" = type.describe ∧
        "300" = x.describe) ∧
      ∃ length, 1 < length ∧ Fault.tooLong "S" 2 1 = .tooLong "S" length 1 := by
  refine ⟨by decide +kernel, ?_, ?_⟩
  · have hfault : unfit.encode {} "S"
        (.object (Table.ofList [("a", .object .nil), ("b", .bool true)])) =
          .error (.mismatch "S.a.n" "uint8 in range [0,255]" "300") := by decide +kernel
    obtain ⟨s, hs, ⟨-, hnone, -⟩ | h⟩ := ((unfit.encode_eq_mismatch_iff {}).1 _ _ _ _ _).1 hfault
    · cases hnone
    · exact ⟨s, hs, h⟩
  · have hfault : Encode.value ⟨64, 1⟩ (fun _ _ _ items => .ok ⟨items, 0⟩) .string (.string "ab")
        "S" #[] = .error (.tooLong "S" 2 1) := by rfl
    obtain h | ⟨t, hstruct, -⟩ := (unfit.encode_eq_mismatch_iff ⟨64, 1⟩).2 _ _ _ _ _ _ rfl hfault
    · exact h
    · cases hstruct

end Document

end WireSchema
