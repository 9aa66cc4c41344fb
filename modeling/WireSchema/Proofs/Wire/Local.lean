import WireSchema.Proofs.Typing.Resolve
import WireSchema.Proofs.Wire.RoundTrip

/-! What encoding and decoding a struct depend on. A name is looked up in the struct whose field
it is the type of, and then in the document, never in the structs around. So all that
counts are the structs that field types lead to, and of the names that these leave to
the document whether they are its enums or else its structs. -/

namespace WireSchema

open Outcome

namespace Document

/-- A struct is reached from another through the types of fields. -/
inductive Reaches (d : Document) (s : StructDef) : StructDef → Prop
  | here : Reaches d s s
  | field {t u : StructDef} {f : Field} (h : Reaches d s t) (hf : f ∈ t.fields)
      (hu : d.resolve (some t) f.type = .ok (.struct u)) : Reaches d s u

/-- A name of a type that the struct leaves to the document. -/
inductive Free (t : StructDef) : String → Prop
  | field {f : Field} {name : String} (hf : f ∈ t.fields) (htype : f.type = .named name)
      (hlocal : t.enums.find? name = none) : Free t name

/-- The second document has all that a struct of the first leads to: the structs, the enums that
they name, and structs under the other names. -/
structure Carries (d d' : Document) (s : StructDef) : Prop where
  structs : ∀ t, d.Reaches s t → d'.struct? t.name = some t
  enums : ∀ t name, d.Reaches s t → Free t name → d'.enum? name = d.enum? name
  others : ∀ t name, d.Reaches s t → Free t name → d.enum? name = none →
    (d'.struct? name).isSome = (d.struct? name).isSome

variable {d d' : Document} {s t : StructDef} {f : Field} {limits : Limits}

/-- A name that stands for a struct leads to the struct. -/
theorem resolve_of_struct? {name : String} {u : StructDef} (hlocal : t.enums.find? name = none)
    (he : d.enum? name = none) (hu : d.struct? name = some u) :
    d.resolve (some t) (.named name) = .ok (.struct u) := by
  simp only [resolve, named?, Option.bind_some, hlocal, he, hu]

/-- The fields of the structs that are reached have the same types in both documents. -/
theorem Carries.resolve (h : d.Carries d' s) (hd : d.WellFormed) (ht : d.Reaches s t)
    (hf : f ∈ t.fields) : d'.resolve (some t) f.type = d.resolve (some t) f.type := by
  cases htype : f.type with
  | named name =>
    cases hlocal : t.enums.find? name with
    | some e => simp only [Document.resolve, named?, Option.bind_some, hlocal]
    | none =>
      have hfree : Free t name := .field hf htype hlocal
      have henum := h.enums t name ht hfree
      cases he : d.enum? name with
      | some e => simp only [Document.resolve, named?, Option.bind_some, hlocal, henum, he]
      | none =>
        have hother := h.others t name ht hfree he
        cases hu : d.struct? name with
        | none =>
          rw [hu, Option.isSome_none, Option.isSome_eq_false_iff, Option.isNone_iff_eq_none]
            at hother
          simp only [Document.resolve, named?, Option.bind_some, hlocal, henum, he, hother, hu]
        | some u =>
          have hresolved := resolve_of_struct? hlocal he hu
          obtain ⟨rfl, -⟩ := hd.structs name u hu
          have hu' := h.structs u (ht.field hf (htype ▸ hresolved))
          rw [hresolved, resolve_of_struct? hlocal (henum.trans he) hu']
  | _ => rfl

end Document

/-! ### Encoding -/

namespace Encode

open Document

variable {d d' : Document} {limits : Limits} {s t : StructDef}
  {nested nested' : StructDef → Value → String → Array Item → Except Fault Plan}

/-- Structs are listed alike wherever they are reached from one. -/
def ListsAlike (d : Document) (s : StructDef)
    (nested nested' : StructDef → Value → String → Array Item → Except Fault Plan) : Prop :=
  ∀ t, d.Reaches s t → ∀ v path items, nested' t v path items = nested t v path items

theorem value_alike {type : ResolvedType} {v : Value} {path : String} {items : Array Item}
    (hn : ∀ u, type = .struct u → ∀ v path items, nested' u v path items = nested u v path items) :
    value limits nested' type v path items = value limits nested type v path items := by
  cases type with
  | struct u => simp only [value, hn u rfl]
  | _ => rfl

theorem field_alike (hc : d.Carries d' s) (hd : d.WellFormed) (hn : ListsAlike d s nested nested')
    (ht : d.Reaches s t) {f : Field} (hf : f ∈ t.fields) (members : Table Value) (path : String)
    (items : Array Item) :
    field d' limits nested' t members path f items =
      field d limits nested t members path f items := by
  rw [field, field, fieldValue?_eq, fieldValue?_eq, hc.resolve hd ht hf]
  cases Direct.given? members f with
  | none => rfl
  | some given =>
    cases hr : d.resolve (some t) f.type with
    | error fault => rfl
    | ok type =>
      simp only [map_ok, ok_bind]
      rw [value_alike fun u hu => hn u (ht.field hf (hu ▸ hr))]

theorem fields_alike (hc : d.Carries d' s) (hd : d.WellFormed) (hn : ListsAlike d s nested nested')
    (ht : d.Reaches s t) {fs : List Field} (hfs : ∀ f ∈ fs, f ∈ t.fields) (members : Table Value)
    (path : String) (items : Array Item) :
    fields d' limits nested' t members path fs items =
      fields d limits nested t members path fs items := by
  induction fs generalizing items with
  | nil => rfl
  | cons f more ih =>
    rw [List.forall_mem_cons] at hfs
    rw [fields, fields, field_alike hc hd hn ht hfs.1]
    simp only [ih hfs.2]

theorem struct_alike (hc : d.Carries d' s) (hd : d.WellFormed) (limits : Limits) (levels : Nat) :
    ListsAlike d s (struct d limits levels) (struct d' limits levels) := by
  induction levels with
  | zero => intro t _ v path items; rfl
  | succ levels ih =>
    intro t ht v path items
    cases v with
    | object members => exact fields_alike hc hd ih ht (fun _ hf => hf) members path items
    | _ => rfl

end Encode

/-! ### Decoding -/

namespace Decode

open Document

variable {d d' : Document} {limits : Limits} {s t : StructDef}
  {nested nested' : StructDef → Cursor → String → Except Fault (Value × Cursor)}

/-- Structs are read alike wherever they are reached from one. -/
def ReadsAlike (d : Document) (s : StructDef)
    (nested nested' : StructDef → Cursor → String → Except Fault (Value × Cursor)) : Prop :=
  ∀ t, d.Reaches s t → ∀ c path, nested' t c path = nested t c path

theorem value_alike {type : ResolvedType} {c : Cursor} {path : String}
    (hn : ∀ u, type = .struct u → ∀ c path, nested' u c path = nested u c path) :
    value limits nested' type c path = value limits nested type c path := by
  cases type with
  | struct u => simp only [value, hn u rfl]
  | _ => rfl

theorem fields_alike (hc : d.Carries d' s) (hd : d.WellFormed) (hn : ReadsAlike d s nested nested')
    (ht : d.Reaches s t) {fs : List Field} (hfs : ∀ f ∈ fs, f ∈ t.fields) (path : String)
    (members : Table Value) (c : Cursor) :
    fields d' limits nested' t path fs members c = fields d limits nested t path fs members c := by
  induction fs generalizing members c with
  | nil => rfl
  | cons f more ih =>
    rw [List.forall_mem_cons] at hfs
    rw [fields, fields, hc.resolve hd ht hfs.1]
    cases hr : d.resolve (some t) f.type with
    | error fault => rfl
    | ok type =>
      have hvalue : value limits nested' type c (path ++ "." ++ f.name) =
          value limits nested type c (path ++ "." ++ f.name) :=
        value_alike fun u hu => hn u (ht.field hfs.1 (hu ▸ hr))
      simp only [ok_bind, hvalue, ih hfs.2]

theorem struct_alike (hc : d.Carries d' s) (hd : d.WellFormed) (limits : Limits) (levels : Nat) :
    ReadsAlike d s (struct d limits levels) (struct d' limits levels) := by
  induction levels with
  | zero => intro t _ c path; rfl
  | succ levels ih =>
    intro t ht c path
    rw [struct, struct, fields_alike hc hd ih ht fun _ hf => hf]

end Decode

/-! ### Enums of another struct -/

/-- The same fault, or types that are the same but for what is in a struct. -/
inductive ResolvesAlike : Except Fault ResolvedType → Except Fault ResolvedType → Prop
  | error (fault : Fault) : ResolvesAlike (.error fault) (.error fault)
  | ok {type type' : ResolvedType} (h : SameType type type') : ResolvesAlike (.ok type) (.ok type')

namespace Document

/-- The document with other enums in one of its structs. -/
def withEnums (d : Document) (name : String) (enums : Table EnumDef) : Document :=
  match d.struct? name with
  | some s => { d with structs := Table.insert d.structs name { s with enums } }
  | none => d

section WithEnums
variable (d : Document) (outer : String) (enums : Table EnumDef)

theorem enum?_withEnums (name : String) : (d.withEnums outer enums).enum? name = d.enum? name := by
  rw [withEnums]
  split <;> rfl

theorem struct?_withEnums (name : String) :
    (d.withEnums outer enums).struct? name =
      if outer = name then (d.struct? name).map fun s => { s with enums } else d.struct? name := by
  rw [withEnums]
  split
  · next s hs =>
    rw [struct?, Table.find?_insert]
    split
    · next he => rw [← he, hs, Option.map_some]
    · rfl
  · next hs =>
    split
    · next he => rw [← he, hs, Option.map_none]
    · rfl

/-- In whatever struct a type stands, it resolves alike. -/
theorem resolve_withEnums (scope : Option StructDef) (type : FieldType) :
    ResolvesAlike (d.resolve scope type) ((d.withEnums outer enums).resolve scope type) := by
  cases type with
  | named name =>
    simp only [resolve, named?, enum?_withEnums, struct?_withEnums]
    cases scope.bind (·.enums.find? name) with
    | some e => exact .ok (.refl _)
    | none =>
      cases d.enum? name with
      | some e => exact .ok (.refl _)
      | none =>
        cases d.struct? name with
        | none => rw [Option.map_none, ite_self]; exact .error _
        | some s =>
          split_ifs
          · exact .ok (.struct rfl)
          · exact .ok (.refl _)
  | _ => exact .ok (.refl _)

end WithEnums

end Document

/-! ### A sample -/

namespace Sample

/-- An enum that is known by one name in a struct and in the document, and a name of nothing. -/
def scopesText : String :=
  "enum E { B; } struct In { E x; } struct Out { enum E { A; } E e; In i; Missing m; }"

def scopesIn : StructDef := ⟨"In", [⟨"x", .named "E", none⟩], .empty⟩

def scopesOut : StructDef :=
  ⟨"Out", [⟨"e", .named "E", none⟩, ⟨"i", .named "In", none⟩, ⟨"m", .named "Missing", none⟩],
    Table.ofList [("E", ⟨"E", [⟨"A", 0⟩]⟩)]⟩

def scopes : Document :=
  ⟨Table.ofList [("In", scopesIn), ("Out", scopesOut)], Table.ofList [("E", ⟨"E", [⟨"B", 0⟩]⟩)]⟩

/-- The same among other definitions. -/
def wider : Document :=
  ⟨Table.ofList [("In", scopesIn), ("Other", ⟨"Other", [⟨"a", .any, none⟩], .empty⟩),
    ("Out", scopesOut)],
    Table.ofList [("E", ⟨"E", [⟨"B", 0⟩]⟩), ("F", ⟨"F", [⟨"C", 0⟩]⟩)]⟩

theorem compile_scopesText : Document.compile scopesText = .ok scopes := by decide +kernel

theorem reaches_scopes {t : StructDef} (h : scopes.Reaches scopesOut t) :
    t = scopesOut ∨ t = scopesIn := by
  induction h with
  | here => exact .inl rfl
  | field _ hf hu ih =>
    rcases ih with rfl | rfl
    · simp only [scopesOut, List.mem_cons, List.not_mem_nil, or_false] at hf
      rcases hf with rfl | rfl | rfl
      · cases hu
      · exact .inr (ResolvedType.struct.inj (Except.ok.inj hu)).symm
      · cases hu
    · simp only [scopesIn, List.mem_cons, List.not_mem_nil, or_false] at hf
      subst hf
      cases hu

theorem free_scopes {t : StructDef} {name : String} (ht : scopes.Reaches scopesOut t)
    (h : Document.Free t name) : name = "In" ∨ name = "Missing" ∨ name = "E" := by
  obtain ⟨hf, htype, hlocal⟩ := h
  rcases reaches_scopes ht with rfl | rfl
  · simp only [scopesOut, List.mem_cons, List.not_mem_nil, or_false] at hf
    rcases hf with rfl | rfl | rfl
    · cases htype
      cases hlocal
    · cases htype
      exact .inl rfl
    · cases htype
      exact .inr (.inl rfl)
  · simp only [scopesIn, List.mem_cons, List.not_mem_nil, or_false] at hf
    subst hf
    cases htype
    exact .inr (.inr rfl)

theorem carries_scopes : scopes.Carries wider scopesOut := by
  constructor
  · intro t ht
    rcases reaches_scopes ht with rfl | rfl <;> decide
  · intro t name ht h
    rcases free_scopes ht h with rfl | rfl | rfl <;> decide
  · intro t name ht h _
    rcases free_scopes ht h with rfl | rfl | rfl <;> decide

end Sample

namespace Document

/-- Encoding and decoding a struct end in the same result or fault in any document that carries what
the struct leads to, and nothing that the document has beside it counts. How the fields of a
struct resolve is up to its own enums and to the document, and not to the enums of a struct
around it, whatever they are. -/
theorem encode_decode_carried {text name : String} {d d' : Document} {s : StructDef}
    (hc : compile text = .ok d) (hs : d.struct? name = some s) (h : d.Carries d' s) :
    (∀ limits v, d'.encode limits name v = d.encode limits name v) ∧
      (∀ limits bytes offset,
        d'.decode limits name bytes offset = d.decode limits name bytes offset) ∧
      ∀ outer enums inner t, inner ≠ outer → d.struct? inner = some t →
        (d.withEnums outer enums).struct? inner = some t ∧ ∀ f ∈ t.fields,
          ResolvesAlike (d.resolve (some t) f.type)
            ((d.withEnums outer enums).resolve (some t) f.type) := by
  obtain ⟨hd, -⟩ := compile_inBounds hc
  have hget : d'.getStruct name = d.getStruct name := by
    obtain ⟨rfl, -⟩ := hd.structs name s hs
    rw [getStruct, getStruct, hs, h.structs s .here]
  have hname : d.getStruct name = .ok s := by rw [getStruct, hs]
  refine ⟨fun limits v => ?_, fun limits bytes offset => ?_, fun outer enums inner t hne ht => ?_⟩
  · simp only [encode, plan, hget, hname, Outcome.ok_bind,
      Encode.struct_alike h hd limits limits.levels s .here]
  · simp only [decode, hget, hname, Outcome.ok_bind,
      Decode.struct_alike h hd limits limits.levels s .here]
  · refine ⟨?_, fun f _ => d.resolve_withEnums outer enums (some t) f.type⟩
    rw [struct?_withEnums, if_neg (Ne.symm hne), ht]

/-- The wider document encodes as the sample does, and the field of the inner struct is of the enum
of the document, whichever enums the outer struct has. -/
theorem encode_decode_carried_sample :
    (∀ v, Sample.wider.encode {} "Out" v = Sample.scopes.encode {} "Out" v) ∧
      (∀ bytes, Sample.wider.decode {} "Out" bytes 0 = Sample.scopes.decode {} "Out" bytes 0) ∧
      ∀ f ∈ Sample.scopesIn.fields,
        ResolvesAlike (.ok (.enum ⟨"E", [⟨"B", 0⟩]⟩))
          ((Sample.scopes.withEnums "Out" .empty).resolve (some Sample.scopesIn) f.type) := by
  obtain ⟨hencode, hdecode, hlocal⟩ := encode_decode_carried Sample.compile_scopesText
    (show Sample.scopes.struct? "Out" = some Sample.scopesOut by decide) Sample.carries_scopes
  refine ⟨hencode {}, fun bytes => hdecode {} bytes 0, fun f hf => ?_⟩
  have h := (hlocal "Out" .empty "In" Sample.scopesIn (by decide) (by decide)).2 f hf
  obtain rfl := List.mem_singleton.1 hf
  exact h

end Document

end WireSchema
