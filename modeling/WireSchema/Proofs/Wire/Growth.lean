import Mathlib.Data.List.Nodup
import WireSchema.Proofs.Wire.Taken

/-! Schemas that grow by fields at the end of their structs. A reader of the old schema takes
bytes of the new one for the same value without the fields that it does not know: a nested
struct stands behind its length, so that what it leaves unread of one is passed over. A
reader of the new schema takes bytes of the old one for the same value, since each struct
ends where its first new field would be. -/

namespace WireSchema

open Outcome

/-! ### Grown documents -/

/-- The fields of the first struct come first in the second, with the same types. -/
structure StructDef.Grows (d d' : Document) (s s' : StructDef) : Prop where
  fields : s.fields <+: s'.fields
  types : ∀ f ∈ s.fields, ∃ type type', d.resolve (some s) f.type = .ok type ∧
    d'.resolve (some s') f.type = .ok type' ∧ SameType type type'

/-- Every struct of the first document is in the second, where it may have more fields. -/
def Document.Grows (d d' : Document) : Prop :=
  ∀ name s, d.struct? name = some s → ∃ s', d'.struct? name = some s' ∧ s.Grows d d' s'

namespace Document

mutual

/-- A value of a type without the members that are no fields of their struct, at every level. -/
def known (d : Document) : ResolvedType → Value → Value
  | .struct s, .object members => .object (knownMembers d s members)
  | _, v => v

def knownMembers (d : Document) (s : StructDef) {low : Option String} :
    Rows Value low → Rows Value low
  | .nil => .nil
  | .cons name v rest after =>
    match s.field? name with
    | none => (knownMembers d s rest).weaken after
    | some f =>
      match d.resolve (some s) f.type with
      | .ok type => .cons name (known d type v) (knownMembers d s rest) after
      | .error _ => .cons name v (knownMembers d s rest) after

end

section Known
variable {d : Document} {s : StructDef} {low : Option String} {name : String} {f : Field}
  {type : ResolvedType} {v : Value}

/-- Where a member is no field, nothing is found. -/
theorem find?_knownMembers (t : Rows Value low) (name : String) :
    (d.knownMembers s t).find? name = (s.field? name).bind fun f =>
      (t.find? name).map fun v =>
        match d.resolve (some s) f.type with
        | .ok type => d.known type v
        | .error _ => v := by
  induction t with
  | nil =>
    rw [knownMembers]
    cases s.field? name <;> rfl
  | cons key v rest after ih =>
    rw [knownMembers]
    cases hkey : s.field? key with
    | none =>
      by_cases he : key = name
      · subst he
        simp [hkey, ih]
      · simp [ih, Rows.find?, he]
    | some f =>
      by_cases he : key = name
      · subst he
        cases hr : d.resolve (some s) f.type <;> simp [hkey, Rows.find?, hr]
      · cases hr : d.resolve (some s) f.type <;> simp [ih, Rows.find?, he, hr]

/-- A member that is no field leaves no trace. -/
theorem knownMembers_insert_unknown (hf : s.field? name = none) (t : Table Value) (v : Value) :
    d.knownMembers s (Table.insert t name v) = d.knownMembers s t := by
  refine Rows.ext_find? fun wanted => ?_
  rw [find?_knownMembers, find?_knownMembers, Table.find?_insert]
  by_cases he : name = wanted
  · subst he
    rw [hf, Option.bind_none, Option.bind_none]
  · rw [if_neg he]

theorem knownMembers_insert (hf : s.field? name = some f)
    (hr : d.resolve (some s) f.type = .ok type) (t : Table Value) (v : Value) :
    d.knownMembers s (Table.insert t name v) =
      Table.insert (d.knownMembers s t) name (d.known type v) := by
  refine Rows.ext_find? fun wanted => ?_
  rw [find?_knownMembers, Table.find?_insert, Table.find?_insert, find?_knownMembers]
  by_cases he : name = wanted
  · subst he
    simp [hf, hr]
  · rw [if_neg he, if_neg he]

theorem knownMembers_addAll_unknown {rows : List (String × Value)}
    (h : ∀ name ∈ rows.map Prod.fst, s.field? name = none) (t : Table Value) :
    d.knownMembers s (t.addAll rows) = d.knownMembers s t := by
  induction rows generalizing t with
  | nil => rfl
  | cons row rows ih =>
    rw [List.map_cons, List.forall_mem_cons] at h
    exact (ih h.2 _).trans (knownMembers_insert_unknown h.1 t row.2)

end Known

end Document

namespace StructDef

variable {s : StructDef} {f : Field} {name : String}

theorem field?_eq_none (h : name ∉ s.fields.map (·.name)) : s.field? name = none := by
  rw [field?, List.find?_eq_none]
  intro f hf hname
  exact h (List.mem_map.2 ⟨f, hf, beq_iff_eq.1 hname⟩)

theorem field?_eq_some (h : s.field? name = some f) : f ∈ s.fields ∧ f.name = name :=
  ⟨List.mem_of_find?_eq_some h, by simpa [field?] using List.find?_some h⟩

/-- Of fields with different names each is the one that its name finds. -/
theorem field?_of_mem (hd : (s.fields.map (·.name)).Nodup) (hf : f ∈ s.fields) :
    s.field? f.name = some f := by
  cases hg : s.field? f.name with
  | none =>
    rw [field?, List.find?_eq_none] at hg
    exact absurd (beq_self_eq_true f.name) (hg f hf)
  | some g =>
    obtain ⟨hmem, hname⟩ := field?_eq_some hg
    rw [List.inj_on_of_nodup_map hd hmem hf hname]

end StructDef

namespace Decode

variable {d d' : Document} {limits : Limits} {levels : Nat} {s s' : StructDef} {path : String}

/-- A type of a field of both documents: the same, or structs of one name in both. -/
inductive Kept (d d' : Document) : ResolvedType → ResolvedType → Prop
  | plain {type : ResolvedType} (h : ∀ t, type ≠ .struct t) : Kept d d' type type
  | struct {t t' : StructDef} (name : String) (ht : d.struct? name = some t)
      (ht' : d'.struct? name = some t') : Kept d d' (.struct t) (.struct t')

theorem kept_of_sameType (hd : d.WellFormed) (hd' : d'.WellFormed) {scope scope' : Option StructDef}
    {declared : FieldType} {type type' : ResolvedType} (h : d.resolve scope declared = .ok type)
    (h' : d'.resolve scope' declared = .ok type') (hsame : SameType type type') :
    Kept d d' type type' := by
  have hstruct {t t' : StructDef} (ht : type = .struct t) (ht' : type' = .struct t')
      (hname : t.name = t'.name) : Kept d d' type type' := by
    subst ht ht'
    exact .struct t.name (hd.struct?_of_resolve h) (hname ▸ hd'.struct?_of_resolve h')
  cases hsame with
  | struct hname => exact hstruct rfl rfl hname
  | refl =>
    cases type with
    | struct t => exact hstruct rfl rfl rfl
    | _ => exact .plain nofun

/-! ### New bytes for an old reader -/

/-- Where the new reader reads a struct, the old one reads what it knows of it, and goes no
further. -/
def ReadsKnown (d d' : Document)
    (nested nested' : StructDef → Cursor → String → Except Fault (Value × Cursor)) : Prop :=
  ∀ name t t' c path v after, d.struct? name = some t → d'.struct? name = some t' →
    nested' t' c path = .ok (v, after) →
      ∃ stop, nested t c path = .ok (d.known (.struct t) v, stop) ∧ stop.index ≤ after.index

section Known
variable {nested nested' : StructDef → Cursor → String → Except Fault (Value × Cursor)}
  {c after : Cursor}

theorem known_plain {type : ResolvedType} (h : ∀ t, type ≠ .struct t) (v : Value) :
    d.known type v = v := by
  cases type with
  | struct t => exact absurd rfl (h t)
  | _ => rw [Document.known]; exact nofun

/-- Both readers stop behind a value at the same place, a struct being behind its length. -/
theorem value_known (hn : ReadsKnown d d' nested nested') {type type' : ResolvedType} {v : Value}
    (hk : Kept d d' type type') (h : value limits nested' type' c path = .ok (v, after)) :
    value limits nested type c path = .ok (d.known type v, after) := by
  cases hk with
  | plain hplain =>
    rw [known_plain hplain]
    cases type with
    | struct t => exact absurd rfl (hplain t)
    | _ => exact h
  | struct name ht ht' =>
    obtain ⟨⟨bytes, mid⟩, hbytes, h⟩ := bind_eq_ok.1 h
    obtain ⟨⟨w, inner⟩, hw, h⟩ := bind_eq_ok.1 h
    obtain ⟨rfl, rfl⟩ := Prod.mk.inj (Except.ok.inj h)
    obtain ⟨stop, hstop, -⟩ := hn name _ _ _ path _ inner ht ht' hw
    simp only [value, hbytes, hstop, ok_bind]

/-- What is read for fields that the old reader does not know. -/
theorem fields_unknown {extra : List Field} {members result : Table Value}
    (hextra : ∀ f ∈ extra, s.field? f.name = none)
    (h : fields d' limits nested' s' path extra members c = .ok (result, after)) :
    d.knownMembers s result = d.knownMembers s members ∧ c.index ≤ after.index := by
  obtain ⟨parts, rows, hparted, rfl⟩ := exists_parted h
  obtain ⟨later, -, rfl, -, -⟩ := hparted.pieces
  refine ⟨Document.knownMembers_addAll_unknown (fun name hname => ?_) members, ?_⟩
  · rw [hparted.names] at hname
    obtain ⟨f, hf, rfl⟩ := List.mem_map.1 hname
    exact hextra f (List.mem_append_left later hf)
  · rw [hparted.after]
    exact Nat.le_add_right _ _

/-- The readers go through the common fields together, and the new one through its others alone. -/
theorem fields_known (hd : d.WellFormed) (hd' : d'.WellFormed)
    (hn : ReadsKnown d d' nested nested') (hg : s.Grows d d' s')
    (hnames : (s.fields.map (·.name)).Nodup) {fs extra : List Field}
    (hfs : ∀ f ∈ fs, f ∈ s.fields) (hextra : ∀ f ∈ extra, s.field? f.name = none)
    {members result : Table Value}
    (h : fields d' limits nested' s' path (fs ++ extra) members c = .ok (result, after)) :
    ∃ stop, fields d limits nested s path fs (d.knownMembers s members) c =
      .ok (d.knownMembers s result, stop) ∧ stop.index ≤ after.index := by
  induction fs generalizing members c with
  | nil =>
    obtain ⟨hsame, hle⟩ := fields_unknown hextra h
    exact ⟨c, by rw [fields, hsame], hle⟩
  | cons f more ih =>
    rw [List.forall_mem_cons] at hfs
    rw [List.cons_append, fields] at h
    rw [fields]
    split_ifs at h ⊢ with hend
    · obtain ⟨rfl, rfl⟩ := Prod.mk.inj (Except.ok.inj h)
      exact ⟨c, rfl, Nat.le_refl _⟩
    · obtain ⟨type, type', htype, htype', hsame⟩ := hg.types f hfs.1
      rw [htype', ok_bind] at h
      obtain ⟨⟨v, mid⟩, hv, h⟩ := bind_eq_ok.1 h
      have hknown := value_known hn (kept_of_sameType hd hd' htype htype' hsame) hv
      obtain ⟨stop, hstop, hle⟩ := ih hfs.2 h
      rw [Document.knownMembers_insert (StructDef.field?_of_mem hnames hfs.1) htype] at hstop
      refine ⟨stop, ?_, hle⟩
      rw [htype, ok_bind, hknown, ok_bind]
      exact hstop

end Known

/-- At every level the old reader reads what it knows of what the new one reads. -/
theorem readsKnown_struct (hd : d.WellFormed) (hd' : d'.WellFormed) (hg : d.Grows d')
    (limits : Limits) (levels : Nat) :
    ReadsKnown d d' (struct d limits levels) (struct d' limits levels) := by
  induction levels with
  | zero => intro name t t' c path v after _ _ h; cases h
  | succ levels ih =>
    intro name t t' c path v after ht ht' h
    obtain ⟨u, hu, hgrows⟩ := hg name t ht
    obtain rfl := Option.some.inj (ht'.symm.trans hu)
    obtain ⟨⟨result, mid⟩, hfields, h⟩ := bind_eq_ok.1 h
    obtain ⟨rfl, rfl⟩ := Prod.mk.inj (Except.ok.inj h)
    obtain ⟨extra, hextra⟩ := hgrows.fields
    have hnames := (hd.structs name t ht).2.distinct
    have hnames' := (hd'.structs name t' ht').2.distinct
    rw [← hextra] at hfields
    rw [← hextra, List.map_append, List.nodup_append] at hnames'
    obtain ⟨stop, hstop, hle⟩ := fields_known hd hd' ih hgrows hnames (fun _ hf => hf)
      (fun f hf => StructDef.field?_eq_none fun hmem =>
        hnames'.2.2 _ hmem _ (List.mem_map_of_mem hf) rfl) hfields
    exact ⟨stop, by rw [struct, Document.known]; exact congrArg (· >>= _) hstop, hle⟩

/-! ### Old bytes for a new reader -/

/-- Reads a struct as the document has it under its name. -/
def byName (d : Document)
    (nested : StructDef → Cursor → String → Except Fault (Value × Cursor)) (t : StructDef)
    (c : Cursor) (path : String) : Except Fault (Value × Cursor) := do
  let t ← d.getStruct t.name
  nested t c path

section ByName
variable {nested : StructDef → Cursor → String → Except Fault (Value × Cursor)}

theorem value_byName (hd : d.WellFormed) {type type' : ResolvedType} (hk : Kept d d' type type')
    (c : Cursor) :
    value limits (byName d' nested) type c path = value limits nested type' c path := by
  cases hk with
  | plain hplain =>
    cases type with
    | struct t => exact absurd rfl (hplain t)
    | _ => rfl
  | @struct t t' name ht ht' =>
    obtain ⟨rfl, -⟩ := hd.structs name t ht
    have hget : d'.getStruct t.name = .ok t' := by rw [Document.getStruct, ht']
    simp only [value, byName, hget, ok_bind]

/-- A field that is read so in the old document is read so in the new one. -/
theorem ReadsField.grown (hd : d.WellFormed) (hd' : d'.WellFormed) (hg : s.Grows d d' s')
    {part : Field × List UInt8} {row : String × Value} (hpart : part.1 ∈ s.fields)
    (h : ReadsField d limits (byName d' nested) s path part row) :
    ReadsField d' limits nested s' path part row := by
  obtain ⟨type, htype, hreads⟩ := h.reads
  obtain ⟨known, type', hknown, htype', hsame⟩ := hg.types part.1 hpart
  obtain rfl := Except.ok.inj (hknown.symm.trans htype)
  refine ⟨h.name, h.nonempty, type', htype', ?_⟩
  simpa only [value_byName hd (kept_of_sameType hd hd' htype htype' hsame)] using hreads

end ByName

/-- The bytes of a struct of the old document, as both readers see them. -/
theorem struct_grown (hd : d.WellFormed) (hb : d.InBounds) (hd' : d'.WellFormed)
    {name : String} (hs : d.struct? name = some s) (hg : s.Grows d d' s')
    (hn : NestedReadsBack d (Direct.struct d limits levels) (Canonical.struct? d levels)
      (byName d' (struct d' limits levels)))
    {v : Value} {bytes : List UInt8} (hf : Faithful d s v)
    (h : Direct.struct d limits (levels + 1) s v path = .ok bytes) :
    ∃ w, Canonical.struct? d (levels + 1) s v = some w ∧
      struct d' limits (levels + 1) s' (.ofBytes bytes) path =
        .ok (w, (Cursor.ofBytes bytes).advance bytes.length) := by
  cases v with
  | object members =>
    obtain ⟨parts, hparts, rfl⟩ := map_eq_ok.1 h
    obtain ⟨rows, hrows, hread⟩ := parts_read hn hb hs hf (fun _ hf => hf) hparts
    obtain ⟨later, hfields⟩ := parts_lead (hf.leading s _ .here members rfl) hparts
    obtain ⟨extra, hextra⟩ := hg.fields
    have hgrown : List.Forall₂ (ReadsField d' limits (struct d' limits levels) s' path) parts
        rows := by
      refine List.forall₂_iff_get.2 ⟨hread.length_eq, fun i hi hi' => ?_⟩
      refine (hread.get hi hi').grown hd hd' hg ?_
      rw [hfields]
      exact List.mem_append_left later (List.mem_map_of_mem (List.get_mem parts ⟨i, hi⟩))
    refine ⟨.object (Table.ofList rows), by simp [Canonical.struct?, Value.object?, hrows], ?_⟩
    rw [struct, ← hextra, hfields, List.append_assoc,
      fields_whole hgrown (Cursor.ofBytes_at _) (later ++ extra)]
    rfl
  | _ => cases h

theorem nestedReadsBack_grown (hd : d.WellFormed) (hb : d.InBounds) (hd' : d'.WellFormed)
    (hg : d.Grows d') (limits : Limits) (levels : Nat) :
    NestedReadsBack d (Direct.struct d limits levels) (Canonical.struct? d levels)
      (byName d' (struct d' limits levels)) := by
  induction levels with
  | zero => intro name t v path bytes _ _ h; cases h
  | succ levels ih =>
    intro name t v path bytes ht hf h
    obtain ⟨t', ht', hgrows⟩ := hg name t ht
    obtain ⟨w, hw, hread⟩ := struct_grown hd hb hd' ht hgrows ih hf h
    obtain ⟨rfl, -⟩ := hd.structs name t ht
    exact ⟨w, _, hw, by rw [byName, Document.getStruct, ht', ok_bind, hread]⟩

end Decode

/-! ### A grown sample -/

namespace Sample

/-- The sample with a field more in each struct, and a struct more. -/
def grownText : String :=
  "struct P { any j; int8 k; } struct Q { string s; } " ++
    "struct S { enum E { A; B = 300; } E e; string n : hi; P p; bool z; Q q; }"

def grownInner : StructDef := ⟨"P", inner.fields ++ [⟨"k", .int .int8 none, none⟩], .empty⟩

def grownOuter : StructDef := ⟨"S", outer.fields ++ [⟨"q", .named "Q", none⟩], outer.enums⟩

def grownDocument : Document :=
  ⟨Table.ofList [("P", grownInner), ("Q", ⟨"Q", [⟨"s", .string, none⟩], .empty⟩),
    ("S", grownOuter)], .empty⟩

theorem compile_grownText : Document.compile grownText = .ok grownDocument := by decide +kernel

theorem grows_document : document.Grows grownDocument := by
  have hinner : inner.Grows document grownDocument grownInner :=
    ⟨List.prefix_append _ _, fun f hf => by
      obtain rfl := List.mem_singleton.1 hf
      exact ⟨.any, .any, rfl, rfl, .refl _⟩⟩
  have houter : outer.Grows document grownDocument grownOuter := by
    refine ⟨List.prefix_append _ _, fun f hf => ?_⟩
    simp only [outer, List.mem_cons, List.not_mem_nil, or_false] at hf
    rcases hf with rfl | rfl | rfl | rfl
    · exact ⟨_, _, rfl, rfl, .refl _⟩
    · exact ⟨_, _, rfl, rfl, .refl _⟩
    · exact ⟨.struct inner, .struct grownInner, by rfl, by rfl, .struct rfl⟩
    · exact ⟨_, _, rfl, rfl, .refl _⟩
  intro name s hs
  have hrow := Rows.mem_of_find? _ hs
  change (name, s) ∈ [("P", inner), ("S", outer)] at hrow
  simp only [List.mem_cons, Prod.mk.injEq, List.not_mem_nil, or_false] at hrow
  rcases hrow with ⟨rfl, rfl⟩ | ⟨rfl, rfl⟩
  · exact ⟨grownInner, by decide, hinner⟩
  · exact ⟨grownOuter, by decide, houter⟩

/-- A value of the grown sample with every new field. -/
def grownBytes : List UInt8 :=
  [172, 2, 2, 104, 105, 6, 4, 110, 117, 108, 108, 255, 1, 2, 1, 120]

end Sample

namespace Document

open Decode

variable {text text' name : String} {d d' : Document} {s : StructDef}

/-- Where a document grows by fields at the end of its structs, old and new readers and writers
understand each other. What the new document decodes the old one decodes too, without the members
that it does not know and going no further. What the old one encodes, and can read back itself,
the new one decodes to the same value and the same end. -/
theorem decode_growth (hc : compile text = .ok d) (hc' : compile text' = .ok d')
    (hg : d.Grows d') (hs : d.struct? name = some s) (limits : Limits) :
    (∀ bytes offset v stop, d'.decode limits name bytes offset = .ok (v, stop) →
      ∃ stop', d.decode limits name bytes offset = .ok (d.known (.struct s) v, stop') ∧
        stop' ≤ stop) ∧
    ∀ v bytes, d.encode limits name v = .ok bytes → Faithful d s v →
      ∃ w, d.decode limits name bytes 0 = .ok (w, bytes.length) ∧
        d'.decode limits name bytes 0 = .ok (w, bytes.length) := by
  obtain ⟨hd, hb⟩ := compile_inBounds hc
  obtain ⟨hd', -⟩ := compile_inBounds hc'
  obtain ⟨s', hs', hgrows⟩ := hg name s hs
  constructor
  · intro bytes offset v stop h
    obtain ⟨t, after, ht, hread, rfl⟩ := decode_eq_ok.1 h
    obtain rfl := Option.some.inj (hs'.symm.trans ht)
    obtain ⟨early, hearly, hle⟩ := readsKnown_struct hd hd' hg limits limits.levels name s s'
      _ _ _ _ hs hs' hread
    exact ⟨early.index, decode_eq_ok.2 ⟨s, early, hs, hearly, rfl⟩, hle⟩
  · intro v bytes he hf
    obtain ⟨members, parts, rows, rfl, hlaid⟩ := laid_of_encode hc hs he hf
    rw [encode_direct, encodeDirect, hs] at he
    obtain ⟨w, hw, hgrown⟩ := struct_grown hd hb hd' hs hgrows
      (nestedReadsBack_grown hd hb hd' hg limits _) hf he
    obtain rfl := Option.some.inj (hlaid.canonical_eq.symm.trans hw)
    refine ⟨.object (Table.ofList rows), ?_, ?_⟩
    · rw [decode_zero hs, Limits.levels, hlaid.struct_eq]
      simp [Cursor.ofBytes, Cursor.advance]
    · rw [decode_zero hs', Limits.levels, hgrown]
      simp [Cursor.ofBytes, Cursor.advance]

/-- New bytes of the sample, read without the new member of the nested struct by the old reader,
and old bytes, read as they were by the new reader. -/
theorem decode_growth_sample :
    (∃ v w stop, Sample.grownDocument.decode {} "S" Sample.grownBytes 0 = .ok (v, 16) ∧
      Sample.document.decode {} "S" Sample.grownBytes 0 = .ok (w, stop) ∧ stop ≤ 16 ∧
      ((v.get? "p").bind (·.get? "k")).isSome ∧ ((w.get? "p").bind (·.get? "k")).isNone) ∧
    ∃ w, Sample.document.decode {} "S" Sample.bytes 0 = .ok (w, 11) ∧
      Sample.grownDocument.decode {} "S" Sample.bytes 0 = .ok (w, 11) := by
  obtain ⟨hnew, hold⟩ := decode_growth Sample.compile_text Sample.compile_grownText
    Sample.grows_document Sample.struct?_outer {}
  have hread : (Sample.grownDocument.decode {} "S" Sample.grownBytes 0).toOption.any fun read =>
      read.2 == 16 && ((read.1.get? "p").bind (·.get? "k")).isSome &&
        (((Sample.document.known (.struct Sample.outer) read.1).get? "p").bind
          (·.get? "k")).isNone := by
    decide +kernel
  obtain ⟨⟨v, stop⟩, hread, hv⟩ := exists_of_any hread
  simp only [Bool.and_eq_true, beq_iff_eq] at hv
  obtain ⟨⟨rfl, hhas⟩, hlacks⟩ := hv
  obtain ⟨stop', hstop', hle⟩ := hnew _ _ _ _ hread
  exact ⟨⟨v, _, stop', hread, hstop', hle, hhas, hlacks⟩,
    hold _ _ Sample.encode_value Sample.faithful_value⟩

end Document

end WireSchema
