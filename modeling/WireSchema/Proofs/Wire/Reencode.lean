import WireSchema.Proofs.Wire.Default
import WireSchema.Proofs.Wire.Trail
import WireSchema.Proofs.Wire.Typed

/-! Encoding what was decoded. It may fail, but only for a few reasons: bytes may hold an
integer that the declared bounds exclude or a code that no member has, text may come out
longer than it went in, and a field that is missing takes its default. It never fails for
the depth, and never for the type of a value that was decoded for another kind of field. -/

namespace WireSchema

open Outcome

/-- What bytes may hold although no value with it is encoded. -/
inductive Outside : ResolvedType → Value → Prop
  | range {kind : IntKind} {b : Bounds} {n : Int64} (h : ¬b.contains n) :
      Outside (.int kind (some b)) (.int n)
  | code {e : EnumDef} {code : Int64} (h : e.name? code = none) : Outside (.enum e) (.int code)

/-- The faults of encoding a value that was decoded, each with the field that it is about. -/
inductive Excused (d : Document) (limits : Limits) (s : StructDef) (v : Value) (path : String) :
    Fault → Prop
  | outside {t : StructDef} {w x : Value} {trail : List String} {f : Field} {type : ResolvedType}
      (follows : Follows d s v trail t w) (declared : f ∈ t.fields)
      (present : w.get? f.name = some x) (resolved : d.resolve (some t) f.type = .ok type)
      (h : Outside type x) :
      Excused d limits s v path
        (.mismatch (trailPath path (trail ++ [f.name])) type.describe x.describe)
  | tooLong {t : StructDef} {w : Value} {trail : List String} {f : Field} {length : Nat}
      (follows : Follows d s v trail t w) (declared : f ∈ t.fields)
      (h : limits.maxLength.toNat < length) :
      Excused d limits s v path
        (.tooLong (trailPath path (trail ++ [f.name])) length limits.maxLength.toNat)
  | unresolvedDefault {t : StructDef} {w : Value} {trail : List String} {f : Field} {raw : String}
      {fault : Fault} (follows : Follows d s v trail t w) (declared : f ∈ t.fields)
      (absent : w.get? f.name = none) (default : f.default = some raw)
      (h : d.resolve (some t) f.type = .error fault) : Excused d limits s v path fault
  | refusedDefault {t : StructDef} {w : Value} {trail : List String} {f : Field} {raw : String}
      {type : ResolvedType} (follows : Follows d s v trail t w) (declared : f ∈ t.fields)
      (absent : w.get? f.name = none) (default : f.default = some raw)
      (resolved : d.resolve (some t) f.type = .ok type)
      (h : ¬type.accepts (type.liftDefault raw)) :
      Excused d limits s v path (.mismatch (trailPath path (trail ++ [f.name])) type.describe
        (type.liftDefault raw).describe)

section Excused
variable {d : Document} {limits : Limits} {s t : StructDef} {v w : Value} {path : String}
  {fault : Fault}

theorem Excused.below {f : Field} (hf : f ∈ s.fields)
    (hw : v.get? f.name = some w) (ht : d.resolve (some s) f.type = .ok (.struct t))
    (h : Excused d limits t w (path ++ "." ++ f.name) fault) : Excused d limits s v path fault := by
  have hbelow {trail : List String} {u : StructDef} {x : Value} (h : Follows d t w trail u x) :
      Follows d s v (f.name :: trail) u x := .field hf hw ht h
  cases h with
  | outside follows declared present resolved h =>
    exact .outside (hbelow follows) declared present resolved h
  | tooLong follows declared h => exact .tooLong (hbelow follows) declared h
  | unresolvedDefault follows declared absent default h =>
    exact .unresolvedDefault (hbelow follows) declared absent default h
  | refusedDefault follows declared absent default resolved h =>
    exact .refusedDefault (hbelow follows) declared absent default resolved h

theorem Excused.not_tooDeep (h : Excused d limits s v path fault) (place : String) (limit : Nat) :
    fault ≠ .tooDeep place limit := by
  rintro rfl
  cases h with
  | unresolvedDefault _ _ _ _ h =>
    obtain ⟨name, scope, h⟩ := Document.resolve_eq_error h
    cases h

/-- A fault at the path of a field that is there is about a value that is outside. -/
theorem Excused.outside_of_mismatch (hd : d.WellFormed) {key : String}
    (hs : d.struct? key = some s) {trail : List String} {f : Field} {type : ResolvedType}
    {x : Value} {expected actual : String}
    (h : Excused d limits s v path
      (.mismatch (trailPath path (trail ++ [f.name])) expected actual))
    (ht : Follows d s v trail t w) (hf : f ∈ t.fields) (hx : w.get? f.name = some x)
    (htype : d.resolve (some t) f.type = .ok type) : Outside type x := by
  generalize hp : trailPath path (trail ++ [f.name]) = place at h
  cases h with
  | outside follows declared present resolved h =>
    obtain ⟨rfl, rfl, rfl⟩ := ht.field_unique hd hs follows hf declared hp
    rw [hx] at present
    rw [htype] at resolved
    obtain rfl := Option.some.inj present
    obtain rfl := Except.ok.inj resolved
    exact h
  | unresolvedDefault _ _ _ _ h =>
    obtain ⟨name, scope, h⟩ := Document.resolve_eq_error h
    cases h
  | refusedDefault follows declared absent _ _ _ =>
    obtain ⟨rfl, rfl, rfl⟩ := ht.field_unique hd hs follows hf declared hp
    rw [hx] at absent
    cases absent

end Excused

/-! ### Values -/

/-- What is of a type is accepted, but for what is outside. -/
theorem Typed.outside {d : Document} {levels : Nat} {type : ResolvedType} {v : Value}
    (h : Typed d levels type v) (hn : ¬type.accepts v) : Outside type v := by
  cases h with
  | int bounds hkind =>
    cases bounds with
    | none => exact absurd hkind hn
    | some b => exact .range hn
  | named hname => exact absurd (EnumDef.code?_of_name? hname) hn
  | unnamed hname => exact .code hname
  | _ => exact absurd rfl hn

namespace Direct

variable {d : Document} {limits : Limits}
  {nested : StructDef → Value → String → Except Fault (List UInt8)} {type : ResolvedType}
  {v : Value} {path : String} {fault : Fault}

/-! ### Structs -/

section Structs
variable {s : StructDef} {key : String} {f : Field}

/-- A default is no object, so a field that is missing does not fail below itself. -/
theorem excused_default (hd : d.WellFormed) (hs : d.struct? key = some s) (hf : f ∈ s.fields)
    (habsent : v.get? f.name = none) {raw : String} (hraw : f.default = some raw)
    (htype : d.resolve (some s) f.type = .ok type)
    (h : type.validate (type.liftDefault raw) (path ++ "." ++ f.name) = .error fault ∨
      type.validate (type.liftDefault raw) (path ++ "." ++ f.name) = .ok () ∧
        value limits nested type (type.liftDefault raw) (path ++ "." ++ f.name) = .error fault) :
    Excused d limits s v path fault := by
  obtain ⟨hn, rfl⟩ | ⟨length, hlong, rfl⟩ | ⟨t, rfl, hobject, -⟩ := given_eq_error h
  · exact .refusedDefault .here hf habsent hraw htype hn
  · exact .tooLong .here hf hlong
  · rw [hd.object?_liftDefault hs hf hraw] at hobject
    cases hobject

/-- At every level a struct that was decoded is encoded, or fails for one of the reasons. -/
theorem excused_struct (hd : d.WellFormed) {levels : Nat} (hs : d.struct? key = some s)
    (hv : Typed d levels (.struct s) v) (h : struct d limits levels s v path = .error fault) :
    Excused d limits s v path fault := by
  induction levels generalizing key s v path with
  | zero => cases hv
  | succ levels ih =>
    cases hv with
    | @struct _ _ members k keys resolved typed =>
    obtain ⟨f, hf, hfield⟩ := parts_eq_error (map_eq_error.1 h)
    obtain ⟨given, hgiven, hfault⟩ := field_eq_error hfield
    obtain ⟨x, hx, rfl⟩ | ⟨habsent, raw, hraw, rfl⟩ := given?_eq_some hgiven
    · -- the field was decoded, so it is one of the first and its value is of its type
      have hfirst : f ∈ s.fields.take k := by
        have hkey : members.contains f.name := by rw [Rows.contains, hx, Option.isSome_some]
        obtain ⟨g, hg, hname⟩ := List.mem_map.1 ((keys f.name).1 hkey)
        exact eq_of_name_eq hd hs (List.mem_of_mem_take hg) hf hname ▸ hg
      obtain ⟨type, htype⟩ := resolved f hfirst
      have hpresent : (Value.object members).get? f.name = some x := hx
      have htyped := typed f hfirst type x htype hx
      obtain hfault | ⟨type', htype', hfault⟩ := hfault
      · rw [htype] at hfault
        cases hfault
      · obtain rfl := Except.ok.inj (htype.symm.trans htype')
        obtain ⟨hn, rfl⟩ | ⟨length, hlong, rfl⟩ | ⟨t, rfl, -, hfault⟩ := given_eq_error hfault
        · exact .outside .here hf hpresent htype (htyped.outside hn)
        · exact .tooLong .here hf hlong
        · obtain ⟨name, hname⟩ := d.struct?_of_resolve htype
          exact Excused.below hf hpresent htype (ih hname htyped hfault)
    · obtain hfault | ⟨type, htype, hfault⟩ := hfault
      · exact .unresolvedDefault .here hf habsent hraw hfault
      · exact excused_default hd hs hf habsent hraw htype hfault

end Structs

end Direct

namespace Document

variable {text name : String} {d : Document} {limits : Limits} {bytes : List UInt8}
  {offset stop : Nat} {v : Value}

/-- What is decoded from any bytes is of the type of its struct, at every level. If it is not
encoded again under the same limits, then for one of the reasons; nesting is none of them, and
where the fault is at a field that is there, the value of the field is outside. -/
theorem decode_typed (hc : compile text = .ok d)
    (h : d.decode limits name bytes offset = .ok (v, stop)) :
    ∃ s, d.struct? name = some s ∧ Typed d limits.levels (.struct s) v ∧
      ∀ fault, d.encode limits name v = .error fault →
        Excused d limits s v name fault ∧ (∀ place limit, fault ≠ .tooDeep place limit) ∧
          ∀ trail t w f x type expected actual, Follows d s v trail t w → f ∈ t.fields →
            w.get? f.name = some x → d.resolve (some t) f.type = .ok type →
              fault = .mismatch (trailPath name (trail ++ [f.name])) expected actual →
                Outside type x := by
  obtain ⟨hwell, -⟩ := compile_inBounds hc
  obtain ⟨s, after, hs, hread, rfl⟩ := decode_eq_ok.1 h
  have htyped := Decode.typed_struct hwell hs hread
  refine ⟨s, hs, htyped, fun fault hfault => ?_⟩
  rw [encode_direct, encodeDirect, hs] at hfault
  have hexcused := Direct.excused_struct hwell hs htyped hfault
  refine ⟨hexcused, hexcused.not_tooDeep, ?_⟩
  rintro trail t w f x type expected actual ht hf hx htype rfl
  exact hexcused.outside_of_mismatch hwell hs ht hf hx htype

/-- A byte that the kind of its field allows and the declared bounds do not. -/
theorem decode_typed_oneField :
    ∃ v, (oneField 1 5).decode {} "S" [9] 0 = .ok (v, 1) ∧
      (∃ s, Typed (oneField 1 5) ({} : Limits).levels (.struct s) v) ∧
        (oneField 1 5).encode {} "S" v =
          .error (.mismatch "S.a" "uint8 in range [1,5]" "9") ∧
        ∃ s, Excused (oneField 1 5) {} s v "S" (.mismatch "S.a" "uint8 in range [1,5]" "9") := by
  have hcompile : compile "struct S { uint8[1,5] a : 3; }" = .ok (oneField 1 5) := by
    decide +kernel
  have hread : ((oneField 1 5).decode {} "S" [9] 0).toOption.any fun read =>
      decide (read.2 = 1) && decide ((oneField 1 5).encode {} "S" read.1 =
        .error (.mismatch "S.a" "uint8 in range [1,5]" "9")) := by
    decide +kernel
  obtain ⟨⟨v, stop⟩, hdecode, h⟩ := exists_of_any hread
  simp only [Bool.and_eq_true, decide_eq_true_eq] at h
  obtain ⟨rfl, hencode⟩ := h
  obtain ⟨s, -, htyped, hfaults⟩ := decode_typed hcompile hdecode
  exact ⟨v, hdecode, ⟨s, htyped⟩, hencode, s, (hfaults _ hencode).1⟩

end Document

end WireSchema
