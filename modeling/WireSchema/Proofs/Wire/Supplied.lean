import WireSchema.Proofs.Wire.Alike
import WireSchema.Proofs.Wire.Growth
import WireSchema.Proofs.Wire.Refused

/-! What encoding sees of a value and of a schema. Members that are no fields of their struct do
not count. Nor does the declaration of a field that no object of its struct supplies, as long as
the field has no default: it may have any other type, also one that is not there, or be gone. -/

namespace WireSchema

open Outcome

/-! ### Members that are no fields -/

namespace Document

variable {d : Document} {type : ResolvedType} {v v' : Value}

theorem object?_known (s : StructDef) (v : Value) :
    (d.known (.struct s) v).object? = v.object?.map (d.knownMembers s) := by
  cases v <;> rfl

theorem known_of_object? (s : StructDef) (h : v.object? = none) : d.known (.struct s) v = v := by
  cases v <;> first | rfl | cases h

/-- Values of which the same is known are alike. -/
theorem alike_of_known (h : d.known type v = d.known type v') :
    Direct.Alike (fun s members members' => d.knownMembers s members = d.knownMembers s members')
      type v v' := by
  by_cases hplain : ∀ s, type ≠ .struct s
  · rw [Decode.known_plain hplain, Decode.known_plain hplain] at h
    exact h ▸ .same type v
  · obtain ⟨s, rfl⟩ := not_forall_not.1 hplain
    have hobject := congrArg Value.object? h
    rw [object?_known, object?_known] at hobject
    cases ho : v.object? with
    | none =>
      rw [ho, Option.map_none, eq_comm, Option.map_eq_none_iff] at hobject
      rw [known_of_object? s ho, known_of_object? s hobject] at h
      exact h ▸ .same _ v
    | some members =>
      rw [ho, Option.map_some, eq_comm, Option.map_eq_some_iff] at hobject
      obtain ⟨members', ho', hmembers⟩ := hobject
      obtain rfl := Value.eq_object ho
      obtain rfl := Value.eq_object ho'
      exact .struct hmembers.symm

/-- Objects of which the same is known give their fields values of which the same is known. -/
theorem agreement_known (hd : d.WellFormed) :
    Direct.Agreement d fun s members members' =>
      d.knownMembers s members = d.knownMembers s members' := by
  intro key s members members' hs h f hf
  have hfield := StructDef.field?_of_mem (hd.structs key s hs).2.distinct hf
  have hfound := congrArg (·.find? f.name) h
  simp only [find?_knownMembers, hfield, Option.bind_some] at hfound
  rw [Direct.given?, Direct.given?]
  cases hm : members.find? f.name with
  | some v =>
    cases hm' : members'.find? f.name with
    | none => simp [hm, hm'] at hfound
    | some v' =>
      refine .some fun type htype => alike_of_known ?_
      simpa only [hm, hm', htype, Option.map_some, Option.some.injEq] using hfound
  | none =>
    cases hm' : members'.find? f.name with
    | some v' => simp [hm, hm'] at hfound
    | none =>
      cases f.default with
      | none => exact .none
      | some raw => exact .some fun type _ => .same type _

end Document

/-! ### Fields that are not supplied -/

/-- A change to a field of a struct: it gets another type, or it is removed. -/
structure Edit where
  owner : String
  field : String
  type? : Option FieldType

namespace Edit

/-- What becomes of a field of a struct. -/
def edited? (e : Edit) (s : StructDef) (f : Field) : Option Field :=
  if s.name = e.owner ∧ f.name = e.field then e.type?.map fun type => { f with type } else some f

def struct (e : Edit) (s : StructDef) : StructDef :=
  { s with fields := s.fields.filterMap (e.edited? s) }

def document (e : Edit) (d : Document) : Document := { d with structs := d.structs.map e.struct }

/-- A type as it is in the document that is changed. -/
def type (e : Edit) : ResolvedType → ResolvedType
  | .struct s => .struct (e.struct s)
  | type => type

section Edit
variable {e : Edit} {d : Document} {s : StructDef} {type : ResolvedType} {f : Field}

theorem struct?_document (name : String) :
    (e.document d).struct? name = (d.struct? name).map e.struct :=
  Rows.find?_map e.struct d.structs name

theorem named?_document (name : String) :
    (e.document d).named? (some (e.struct s)) name = (d.named? (some s) name).map e.type := by
  have henum : (e.document d).enum? name = d.enum? name := rfl
  have hlocal : (e.struct s).enums = s.enums := rfl
  simp only [Document.named?, Option.bind_some, struct?_document, henum, hlocal]
  cases s.enums.find? name with
  | some enum => rfl
  | none =>
    cases d.enum? name with
    | some enum => rfl
    | none => cases d.struct? name <;> rfl

/-- A type is found where it was found before, and fails as it did before. -/
theorem resolve_document (declared : FieldType) :
    (e.document d).resolve (some (e.struct s)) declared =
      (d.resolve (some s) declared).map e.type := by
  cases declared with
  | named name =>
    rw [Document.resolve, Document.resolve, named?_document]
    cases d.named? (some s) name <;> rfl
  | _ => rfl

theorem validate_type (v : Value) (path : String) :
    (e.type type).validate v path = type.validate v path := by
  cases type <;> rfl

theorem liftDefault_type (raw : String) : (e.type type).liftDefault raw = type.liftDefault raw := by
  cases type with
  | struct s =>
    unfold ResolvedType.liftDefault
    cases Value.ofJson raw <;> rfl
  | _ => rfl

/-- Either a field of a struct is left as it is, or it is the one that is changed. -/
theorem edited?_cases (e : Edit) (s : StructDef) (f : Field) :
    e.edited? s f = some f ∨ s.name = e.owner ∧ f.name = e.field ∧
      (e.edited? s f = none ∨ ∃ type, e.edited? s f = some { f with type }) := by
  rw [edited?]
  split
  · next h =>
    refine .inr ⟨h.1, h.2, ?_⟩
    cases e.type? with
    | none => exact .inl rfl
    | some type => exact .inr ⟨type, rfl⟩
  · exact .inl rfl

end Edit

end Edit

namespace Encode

/-- An object is reached as a struct. On each level the fields before the one that leads to it
pass. -/
inductive Visits (d : Document) (limits : Limits) : (levels : Nat) → StructDef → Value →
    (path : String) → StructDef → Table Value → Prop
  | here {levels : Nat} {s : StructDef} {members : Table Value} {path : String} :
      Visits d limits (levels + 1) s (.object members) path s members
  | nested {levels : Nat} {s t u : StructDef} {members inner : Table Value} {path : String}
      {before after : List Field} {f : Field} {w : Value}
      (declared : s.fields = before ++ f :: after)
      (passed : ∀ g ∈ before, Passes d limits levels s members path g)
      (given : fieldValue? d s members f = .ok (some (.struct t, w)))
      (inside : Visits d limits levels t w (path ++ "." ++ f.name) u inner) :
      Visits d limits (levels + 1) s (.object members) path u inner

theorem Visits.struct? {d : Document} {limits : Limits} {levels : Nat} {s t : StructDef} {v : Value}
    {path key : String} {members : Table Value} (h : Visits d limits levels s v path t members)
    (hs : d.struct? key = some s) : ∃ name, d.struct? name = some t := by
  induction h generalizing key with
  | here => exact ⟨key, hs⟩
  | nested _ _ given _ ih =>
    obtain ⟨name, hname⟩ := d.struct?_of_resolve (fieldValue?_eq_some given).1
    exact ih hname

end Encode

namespace Edit

section Run
variable {e : Edit} {d : Document} {limits : Limits} {levels : Nat} {s : StructDef}
  {members : Table Value} {path : String} {f : Field} {fs : List Field}
  {nested nested' : StructDef → Value → String → Except Fault (List UInt8)}

/-- No object that is reached gives the field that is changed a value. -/
def Unseen (e : Edit) (d : Document) (limits : Limits) (levels : Nat) (s : StructDef) (v : Value)
    (path : String) : Prop :=
  ∀ t members, Encode.Visits d limits levels s v path t members → t.name = e.owner →
    ∀ f ∈ t.fields, f.name = e.field → Direct.given? members f = none

theorem value_type {type : ResolvedType} {v : Value}
    (hn : ∀ t, type = .struct t → nested' (e.struct t) v path = nested t v path) :
    Direct.value limits nested' (e.type type) v path = Direct.value limits nested type v path := by
  cases type with
  | struct t => rw [Edit.type, Direct.value_struct, Direct.value_struct, hn t rfl]
  | _ => cases v <;> rfl

/-- A field that is left as it is is encoded as before, if the struct that it leads to is. -/
theorem field_document (hn : ∀ t w, Encode.fieldValue? d s members f = .ok (some (.struct t, w)) →
      nested' (e.struct t) w (path ++ "." ++ f.name) = nested t w (path ++ "." ++ f.name)) :
    Direct.field (e.document d) limits nested' (e.struct s) members path f =
      Direct.field d limits nested s members path f := by
  rw [Encode.fieldValue?_eq] at hn
  rw [Direct.field, Direct.field, resolve_document]
  cases hg : Direct.given? members f with
  | none => rfl
  | some given =>
    cases hr : d.resolve (some s) f.type with
    | error fault => rfl
    | ok type =>
      have hgiven : given (e.type type) = given type := by
        obtain ⟨v, -, rfl⟩ | ⟨-, raw, -, rfl⟩ := Direct.given?_eq_some hg
        · rfl
        · exact liftDefault_type raw
      have hvalue : Direct.value limits nested' (e.type type) (given type) (path ++ "." ++ f.name) =
          Direct.value limits nested type (given type) (path ++ "." ++ f.name) :=
        value_type fun t ht => hn t _ (by simp only [hg, hr, ht, map_ok])
      simp only [map_ok, ok_bind, hgiven, validate_type, hvalue]

/-- The fields behind some that pass are encoded as before: the one that is changed has no value,
and the structs that the others lead to are encoded as before. -/
theorem parts_document
    (hn : ∀ t w place, e.Unseen d limits levels t w place →
      nested' (e.struct t) w place = Direct.struct d limits levels t w place)
    (hu : e.Unseen d limits (levels + 1) s (.object members) path) (before : List Field)
    (hdeclared : s.fields = before ++ fs)
    (hpassed : ∀ g ∈ before, Encode.Passes d limits levels s members path g) :
    Direct.parts (e.document d) limits nested' (e.struct s) members path
        (fs.filterMap (e.edited? s)) =
      Direct.parts d limits (Direct.struct d limits levels) s members path fs := by
  induction fs generalizing before with
  | nil => rfl
  | cons f more ih =>
    have hf : f ∈ s.fields := hdeclared ▸ List.mem_append_right _ List.mem_cons_self
    -- what follows for the fields behind `f`, once it counts among those that pass
    have hmore (hp : Encode.Passes d limits levels s members path f) :=
      ih (before ++ [f]) (by simpa using hdeclared)
        (List.forall_mem_append.2 ⟨hpassed, List.forall_mem_singleton.2 hp⟩)
    obtain hsame | ⟨howner, hname, hchanged⟩ := edited?_cases e s f
    · have hfield : Direct.field (e.document d) limits nested' (e.struct s) members path f =
          Direct.field d limits (Direct.struct d limits levels) s members path f := by
        refine field_document fun t w hgiven => hn t w _ fun u inner hinside => ?_
        exact hu u inner (.nested hdeclared hpassed hgiven hinside)
      rw [List.filterMap_cons_some hsame, Direct.parts, Direct.parts, hfield]
      cases hfirst : Direct.field d limits (Direct.struct d limits levels) s members path f with
      | error fault => rfl
      | ok first => rw [hmore (Encode.passes_iff.2 ⟨first, hfirst⟩)]
    · have hnone : Direct.given? members f = none := hu s members .here howner f hf hname
      have hpasses : Encode.Passes d limits levels s members path f := by
        rw [Encode.Passes, Encode.fieldValue?_eq, hnone]
        exact .inl rfl
      rw [Direct.parts_cons_absent hnone, ← hmore hpasses]
      obtain hremoved | ⟨type, hretyped⟩ := hchanged
      · rw [List.filterMap_cons_none hremoved]
      · rw [List.filterMap_cons_some hretyped]
        exact Direct.parts_cons_absent (f := { f with type }) hnone _

/-- At every level a struct is encoded as before if the field that is changed is unseen. -/
theorem struct_document (v : Value) (hu : e.Unseen d limits levels s v path) :
    Direct.struct (e.document d) limits levels (e.struct s) v path =
      Direct.struct d limits levels s v path := by
  induction levels generalizing s v path with
  | zero => rfl
  | succ levels ih =>
    cases v with
    | object members =>
      rw [Direct.struct, Direct.struct]
      exact congrArg _ (parts_document (fun t w place hinside => ih w hinside) hu []
        (List.nil_append _).symm (List.forall_mem_nil _))
    | _ => rfl

end Run

end Edit

namespace Document

variable {text name : String} {d : Document} {s : StructDef}

/-- Encoding sees supplied fields only. Values of which the same is known are encoded with the same
bytes or the same fault, and of an object that is taken for a struct no more is known than what is
known of its members that are fields: it may have any others. The same is true of documents that
differ in a field without a default that no object reached as its struct supplies: it may have any
other type, or be removed. -/
theorem encode_sees_supplied (hc : compile text = .ok d) (hs : d.struct? name = some s)
    (limits : Limits) (v : Value) :
    (∀ w, d.known (.struct s) w = d.known (.struct s) v →
      d.encode limits name w = d.encode limits name v) ∧
    (∀ t members, d.known (.struct t) (.object members) = .object (d.knownMembers t members) ∧
      ∀ member, (d.knownMembers t members).find? member = (t.field? member).bind fun f =>
        (members.find? member).map fun x =>
          match d.resolve (some t) f.type with
          | .ok type => d.known type x
          | .error _ => x) ∧
    ∀ (e : Edit) (t : StructDef) (f : Field), d.struct? e.owner = some t → f ∈ t.fields →
      f.name = e.field → f.default = none →
      (∀ members, Encode.Visits d limits limits.levels s v name t members →
        members.find? f.name = none) →
      (e.document d).encode limits name v = d.encode limits name v := by
  obtain ⟨hd, -⟩ := compile_inBounds hc
  refine ⟨fun w hw => (agreement_known hd).encode_eq hs (alike_of_known hw) limits,
    fun t members => ⟨rfl, find?_knownMembers members⟩, ?_⟩
  intro e t f ht hf hname hdefault habsent
  have hunseen : e.Unseen d limits limits.levels s v name := by
    intro u members hvisits howner g hg hgname
    -- names belong to one struct and one field, so `g` of `u` is `f` of `t`
    obtain ⟨key, hu⟩ := hvisits.struct? hs
    obtain rfl : u = t := by
      rw [← howner, (hd.structs key u hu).1, hu] at ht
      exact Option.some.inj ht
    obtain rfl := eq_of_name_eq hd hu hg hf (hgname.trans hname.symm)
    rw [Direct.given?, habsent members hvisits, hdefault]
  rw [encode_direct, encode_direct, encodeDirect, encodeDirect, Edit.struct?_document, hs]
  exact Edit.struct_document v hunseen

/-- A struct with a field whose type is not there. -/
def counted : StructDef := ⟨"S", [⟨"n", .int .uint8 none, none⟩, ⟨"m", .named "M", none⟩], .empty⟩

def sparse : Document := ⟨Table.ofList [("S", counted)], .empty⟩

/-- An object without that field. -/
def number : Value := .object (Table.ofList [("n", .int 3)])

/-- The number is encoded as with a member that is no field, and as by documents where the other
field is a truth value or is not there. -/
theorem encode_sees_supplied_number :
    compile "struct S \x7b uint8 n; M m; \x7d" = .ok sparse ∧
      sparse.encode {} "S" (.object (Table.ofList [("k", .null), ("n", .int 3)])) =
        sparse.encode {} "S" number ∧
      (Edit.document ⟨"S", "m", some .bool⟩ sparse).encode {} "S" number =
        sparse.encode {} "S" number ∧
      (Edit.document ⟨"S", "m", none⟩ sparse).encode {} "S" number =
        sparse.encode {} "S" number := by
  have hc : compile "struct S \x7b uint8 n; M m; \x7d" = .ok sparse := by decide +kernel
  have hs : sparse.struct? "S" = some counted := rfl
  have hm : ⟨"m", .named "M", none⟩ ∈ counted.fields := List.mem_cons_of_mem _ List.mem_cons_self
  have habsent : ∀ members, Encode.Visits sparse {} (64 + 1) counted number "S" counted members →
      members.find? "m" = none := by
    intro members h
    cases h with
    | here => rfl
    | @nested _ _ t _ _ _ _ before after f w declared passed given inside =>
      -- neither field leads to another object
      have hf : f ∈ counted.fields := declared ▸ List.mem_append_right _ List.mem_cons_self
      obtain rfl | rfl : f = ⟨"n", .int .uint8 none, none⟩ ∨ f = ⟨"m", .named "M", none⟩ := by
        simpa [counted] using hf
      · cases given
      · cases given
  obtain ⟨hvalue, -, hedit⟩ := encode_sees_supplied hc hs {} number
  exact ⟨hc, hvalue _ rfl, hedit ⟨"S", "m", some .bool⟩ counted _ hs hm rfl rfl habsent,
    hedit ⟨"S", "m", none⟩ counted _ hs hm rfl rfl habsent⟩

end Document

end WireSchema
