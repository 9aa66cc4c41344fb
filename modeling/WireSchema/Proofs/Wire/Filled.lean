import WireSchema.Proofs.Wire.Alike
import WireSchema.Proofs.Wire.Growth
import WireSchema.Proofs.Wire.NamedDefault

/-! Values with their defaults filled in. Wherever an object is taken for a struct, each field that
it lacks and that has a default gets the value of the default for a member, and nothing else is
changed. A value is encoded as it is with its defaults filled in, and there is nothing more to
fill in then. -/

namespace WireSchema

open Outcome

/-! ### Filling in -/

namespace Document

/-- The value of a default, as it is written for its field. What it is where no type is found is up
to `unknown`. -/
def lifted (d : Document) (unknown : StructDef → Field → Value) (s : StructDef) (f : Field)
    (raw : String) : Value :=
  match d.resolve (some s) f.type with
  | .ok type => type.liftDefault raw
  | .error _ => unknown s f

/-- The defaults of fields, under their names. -/
def defaultRows (d : Document) (unknown : StructDef → Field → Value) (s : StructDef)
    (fs : List Field) : List (String × Value) :=
  fs.filterMap fun f => f.default.map fun raw => (f.name, d.lifted unknown s f raw)

/-- The type that a member of a struct is taken for, if it is a field and its type is found. -/
def memberType? (d : Document) (s : StructDef) (name : String) : Option ResolvedType :=
  (s.field? name).bind fun f => (d.resolve (some s) f.type).toOption

mutual

/-- A value of a type with its defaults filled in, at every level. -/
def filled (d : Document) (unknown : StructDef → Field → Value) : ResolvedType → Value → Value
  | .struct s, .object members =>
    .object (Table.union (.ofList (d.defaultRows unknown s s.fields))
      (filledMembers d unknown s members))
  | _, v => v

/-- The members of a struct, with the defaults filled in of those that are structs. -/
def filledMembers (d : Document) (unknown : StructDef → Field → Value) (s : StructDef)
    {low : Option String} : Rows Value low → Rows Value low
  | .nil => .nil
  | .cons name v rest after =>
    let v := match d.memberType? s name with
      | some type => filled d unknown type v
      | none => v
    .cons name v (filledMembers d unknown s rest) after

end

/-- A member of a struct with its defaults filled in. -/
def filledMember (d : Document) (unknown : StructDef → Field → Value) (s : StructDef)
    (name : String) (v : Value) : Value :=
  match d.memberType? s name with
  | some type => d.filled unknown type v
  | none => v

section Filled
variable {d : Document} {unknown : StructDef → Field → Value} {s : StructDef} {fs : List Field}
  {f : Field} {low : Option String} {key : String} {type : ResolvedType} {v : Value}
  {members : Table Value}

theorem map_fst_defaultRows :
    (d.defaultRows unknown s fs).map Prod.fst = (fs.filter (·.default.isSome)).map (·.name) := by
  induction fs with
  | nil => rfl
  | cons f more ih =>
    rw [defaultRows] at ih ⊢
    cases hraw : f.default <;> simp [hraw, ih]

/-- The default of a field is found under its name. -/
theorem find?_defaultRows (hs : (s.fields.map (·.name)).Nodup) (hf : f ∈ s.fields) :
    (Table.ofList (d.defaultRows unknown s s.fields)).find? f.name =
      f.default.map (d.lifted unknown s f) := by
  have hnames : (d.defaultRows unknown s s.fields).map Prod.fst = _ := map_fst_defaultRows
  cases hraw : f.default with
  | none =>
    refine Table.find?_ofList_eq_none fun hmem => ?_
    rw [hnames, List.mem_map] at hmem
    obtain ⟨g, hg, hname⟩ := hmem
    rw [List.mem_filter] at hg
    obtain rfl := List.inj_on_of_nodup_map hs hg.1 hf hname
    rw [hraw] at hg
    cases hg.2
  | some raw =>
    have hnodup : ((d.defaultRows unknown s s.fields).map Prod.fst).Nodup := by
      rw [hnames]
      exact hs.sublist (List.filter_sublist.map _)
    have hrow : (f.name, d.lifted unknown s f raw) ∈ d.defaultRows unknown s s.fields :=
      List.mem_filterMap.2 ⟨f, hf, by rw [hraw]; rfl⟩
    exact Table.find?_ofList_of_mem hnodup hrow

theorem find?_defaultRows_eq_none {name : String} (h : s.field? name = none) :
    (Table.ofList (d.defaultRows unknown s s.fields)).find? name = none := by
  refine Table.find?_ofList_eq_none fun hmem => ?_
  rw [map_fst_defaultRows, List.mem_map] at hmem
  obtain ⟨f, hf, hname⟩ := hmem
  rw [StructDef.field?, List.find?_eq_none] at h
  exact h f (List.mem_filter.1 hf).1 (beq_iff_eq.2 hname)

theorem find?_filledMembers (members : Rows Value low) (name : String) :
    (d.filledMembers unknown s members).find? name =
      (members.find? name).map (d.filledMember unknown s name) := by
  induction members with
  | nil => rw [filledMembers]; rfl
  | cons key v rest after ih =>
    rw [filledMembers, Rows.find?, Rows.find?, ih]
    split_ifs with h
    · subst h
      rfl
    · rfl

/-- The members of an object that is filled in. -/
def filledTable (d : Document) (unknown : StructDef → Field → Value) (s : StructDef)
    (members : Table Value) : Table Value :=
  Table.union (.ofList (d.defaultRows unknown s s.fields)) (d.filledMembers unknown s members)

theorem filled_object (members : Table Value) :
    d.filled unknown (.struct s) (.object members) =
      .object (d.filledTable unknown s members) := rfl

theorem filled_of_object? (h : v.object? = none) : d.filled unknown type v = v := by
  cases v with
  | object => cases h
  | _ => cases type <;> rfl

/-- A member that is there stays, with what is filled in below it, and one that is not there is
filled in if it is a field with a default. -/
theorem find?_filledTable (hs : (s.fields.map (·.name)).Nodup) (members : Table Value)
    (name : String) :
    (d.filledTable unknown s members).find? name =
      ((members.find? name).map (d.filledMember unknown s name)).or
        ((s.field? name).bind fun f => f.default.map (d.lifted unknown s f)) := by
  rw [filledTable, Table.find?_union, find?_filledMembers]
  congr 1
  cases hf : s.field? name with
  | none => exact find?_defaultRows_eq_none hf
  | some f =>
    obtain ⟨hmem, rfl⟩ := StructDef.field?_eq_some hf
    exact find?_defaultRows hs hmem

/-! ### Encoding -/

/-- A value and what it is with its defaults filled in are alike. -/
theorem alike_filled (type : ResolvedType) (v : Value) :
    Direct.Alike (fun s members members' => members' = d.filledTable unknown s members) type v
      (d.filled unknown type v) := by
  cases ho : v.object? with
  | none =>
    rw [filled_of_object? ho]
    exact .same type v
  | some inner =>
    obtain rfl := Value.eq_object ho
    cases type with
    | struct t => exact .struct rfl
    | _ => exact .same _ _

/-- An object gives its fields the same values with and without its defaults filled in. -/
theorem agreement_filled (hd : d.WellFormed) (unknown : StructDef → Field → Value) :
    Direct.Agreement d fun s members members' => members' = d.filledTable unknown s members := by
  rintro key s members _ hs rfl f hf
  have hdistinct := (hd.structs key s hs).2.distinct
  have hfield := StructDef.field?_of_mem hdistinct hf
  have hfound : (d.filledTable unknown s members).find? f.name = _ :=
    find?_filledTable hdistinct members f.name
  rw [hfield, Option.bind_some] at hfound
  rw [Direct.given?, Direct.given?, hfound]
  cases hm : members.find? f.name with
  | some v =>
    refine .some fun type htype => ?_
    have hv : d.filledMember unknown s f.name v = d.filled unknown type v := by
      simp only [filledMember, memberType?, hfield, Option.bind_some, htype, Except.toOption]
    rw [hv]
    exact alike_filled type v
  | none =>
    cases hraw : f.default with
    | none => exact .none
    | some raw =>
      refine .some fun type htype => ?_
      have hlifted : d.lifted unknown s f raw = type.liftDefault raw := by
        simp only [lifted, htype]
      rw [hlifted]
      exact .same type _

/-! ### Filling in again -/

theorem resolve_of_memberType? {name : String} (h : d.memberType? s name = some type) :
    ∃ f : Field, d.resolve (some s) f.type = .ok type := by
  obtain ⟨f, -, htype⟩ := Option.bind_eq_some_iff.1 h
  cases hr : d.resolve (some s) f.type with
  | error fault => rw [hr] at htype; cases htype
  | ok type' =>
    rw [hr] at htype
    obtain rfl : type' = type := Option.some.inj htype
    exact ⟨f, hr⟩

/-- In a default there is nothing to fill in. -/
theorem filledMember_lifted (hd : d.WellFormed) (hs : d.struct? key = some s) (hf : f ∈ s.fields)
    {raw : String} (hraw : f.default = some raw) :
    d.filledMember unknown s f.name (d.lifted unknown s f raw) = d.lifted unknown s f raw := by
  have hfield := StructDef.field?_of_mem (hd.structs key s hs).2.distinct hf
  rw [filledMember, memberType?, hfield, Option.bind_some, lifted]
  cases d.resolve (some s) f.type with
  | error fault => rfl
  | ok type => exact filled_of_object? (hd.object?_liftDefault hs hf hraw type)

/-- There is nothing more to fill in where there is nothing more in the members that are there. -/
theorem filledTable_filledTable (hd : d.WellFormed) (hs : d.struct? key = some s)
    (h : ∀ name v, members.find? name = some v →
      d.filledMember unknown s name (d.filledMember unknown s name v) =
        d.filledMember unknown s name v) :
    d.filledTable unknown s (d.filledTable unknown s members) =
      d.filledTable unknown s members := by
  have hdistinct := (hd.structs key s hs).2.distinct
  refine Rows.ext_find? fun name => ?_
  rw [find?_filledTable hdistinct, find?_filledTable hdistinct]
  cases hv : members.find? name with
  | some v => simp only [Option.map_some, Option.some_or, h name v hv]
  | none =>
    cases hf : s.field? name with
    | none => rfl
    | some f =>
      cases hraw : f.default with
      | none => simp [hraw]
      | some raw =>
        -- what was filled in is a default, which the second time is a member that is there
        obtain ⟨hmem, rfl⟩ := StructDef.field?_eq_some hf
        simp [hraw, filledMember_lifted hd hs hmem hraw]

end Filled

mutual

/-- Once a value is filled in, there is nothing more to fill in. -/
theorem filled_filled {d : Document} (hd : d.WellFormed) (unknown : StructDef → Field → Value) :
    (v : Value) → (type : ResolvedType) →
      (∀ s, type = .struct s → ∃ key, d.struct? key = some s) →
        d.filled unknown type (d.filled unknown type v) = d.filled unknown type v
  | .object members, type, htype => by
    cases type with
    | struct s =>
      obtain ⟨key, hs⟩ := htype s rfl
      rw [filled_object, filled_object]
      exact congrArg _ (filledTable_filledTable hd hs
        (filledMember_filledMember hd unknown s members))
    | _ => rfl
  | .null, type, _ | .bool _, type, _ | .int _, type, _ | .float _, type, _ | .string _, type, _
  | .array _, type, _ => by cases type <;> rfl

theorem filledMember_filledMember {d : Document} (hd : d.WellFormed)
    (unknown : StructDef → Field → Value) (s : StructDef) {low : Option String} :
    (members : Rows Value low) → (name : String) → (v : Value) → members.find? name = some v →
      d.filledMember unknown s name (d.filledMember unknown s name v) =
        d.filledMember unknown s name v
  | .nil, _, _, h => nomatch h
  | .cons key w rest _, name, v, h => by
    rw [Rows.find?] at h
    split at h
    · -- the first row is the one that is found, and its value is smaller than the object
      obtain rfl := Option.some.inj h
      rw [filledMember, filledMember]
      cases htype : d.memberType? s name with
      | none => rfl
      | some type =>
        obtain ⟨f, hresolved⟩ := resolve_of_memberType? htype
        exact filled_filled hd unknown w type fun t ht => d.struct?_of_resolve (ht ▸ hresolved)
    · exact filledMember_filledMember hd unknown s rest name v h

end

/-! ### The whole value -/

/-- The default of a string is a string. -/
theorem string?_liftDefault (raw : String) :
    (ResolvedType.string.liftDefault raw).string?.isSome := by
  unfold ResolvedType.liftDefault
  cases Value.ofJson raw with
  | error fault => rfl
  | ok v => cases v <;> rfl

variable {d : Document} {s : StructDef} {name text : String}

/-- A value of a struct is encoded as it is with its defaults filled in, with the same bytes or the
same fault, and what is filled in stays as it is when it is filled in again. Of each object that is
taken for a struct, what is supplied stays, but for what is filled in below it, and what is not
supplied is there if it is a field with a default. At a string that is not supplied and has a
default there is no mismatch, wherever its struct stands in the value. -/
theorem encode_filled (hc : compile text = .ok d) (hs : d.struct? name = some s)
    (unknown : StructDef → Field → Value) :
    (∀ limits v, d.encode limits name (d.filled unknown (.struct s) v) = d.encode limits name v) ∧
    (∀ v, d.filled unknown (.struct s) (d.filled unknown (.struct s) v) =
      d.filled unknown (.struct s) v) ∧
    (∀ key t members, d.struct? key = some t →
      d.filled unknown (.struct t) (.object members) = .object (d.filledTable unknown t members) ∧
      ∀ member, (d.filledTable unknown t members).find? member =
        ((members.find? member).map (d.filledMember unknown t member)).or
          ((t.field? member).bind fun f => f.default.map (d.lifted unknown t f))) ∧
    ∀ v trail t members f raw, Follows d s v trail t (.object members) → f ∈ t.fields →
      f.type = .string → f.default = some raw → members.find? f.name = none →
        ∀ limits expected actual, d.encode limits name v ≠
          .error (.mismatch (trailPath name (trail ++ [f.name])) expected actual) := by
  obtain ⟨hd, -⟩ := compile_inBounds hc
  refine ⟨fun limits v => ?_, fun v => ?_, fun key t members ht => ?_, ?_⟩
  · exact ((agreement_filled hd unknown).encode_eq hs (alike_filled (.struct s) v) limits).symm
  · refine filled_filled hd unknown v (.struct s) fun t ht => ?_
    obtain rfl := ResolvedType.struct.inj ht
    exact ⟨name, hs⟩
  · exact ⟨filled_object members, find?_filledTable (hd.structs key t ht).2.distinct members⟩
  · intro v trail t members f raw hfollows hf htype hraw hm limits expected actual
    have hvalue : Encode.fieldValue? d t members f =
        .ok (some (.string, ResolvedType.string.liftDefault raw)) := by
      simp only [Encode.fieldValue?, hm, hraw, htype, resolve, ok_bind]
    exact encode_ne_mismatch hd hs hfollows hf hvalue (string?_liftDefault raw) limits expected
      actual

/-- A struct with a default. -/
def label : StructDef := ⟨"A", [⟨"t", .string, some "x y"⟩], .empty⟩

/-- A struct with that one in it. -/
def labelled : StructDef := ⟨"S", [⟨"a", .named "A", none⟩], .empty⟩

def labels : Document := ⟨Table.ofList [("A", label), ("S", labelled)], .empty⟩

/-- An object without its text, and with a member that is no field. -/
def unlabelled : Table Value := Table.ofList [("k", .null)]

/-- The text is filled in in the inner object, and the other member stays. -/
theorem encode_filled_label :
    compile "struct A \x7b string t : x y; \x7d struct S \x7b A a; \x7d" = .ok labels ∧
      labels.encode {} "S" (.object (Table.ofList
        [("a", .object (Table.ofList [("k", .null), ("t", .string "x y")]))])) =
        labels.encode {} "S" (.object (Table.ofList [("a", .object unlabelled)])) ∧
      ∀ limits expected actual,
        labels.encode limits "S" (.object (Table.ofList [("a", .object unlabelled)])) ≠
          .error (.mismatch "S.a.t" expected actual) := by
  have hc : compile "struct A \x7b string t : x y; \x7d struct S \x7b A a; \x7d" =
      .ok labels := by decide +kernel
  have hs : labels.struct? "S" = some labelled := rfl
  obtain ⟨hencode, -, -, hstring⟩ := encode_filled hc hs fun _ _ => .null
  refine ⟨hc, hencode {} (.object (Table.ofList [("a", .object unlabelled)])), ?_⟩
  have hfollows : Follows labels labelled (.object (Table.ofList [("a", .object unlabelled)]))
      ["a"] label (.object unlabelled) :=
    .field (f := ⟨"a", .named "A", none⟩) List.mem_cons_self rfl rfl .here
  exact hstring _ ["a"] label unlabelled ⟨"t", .string, some "x y"⟩ "x y" hfollows
    List.mem_cons_self rfl rfl rfl

end Document

end WireSchema
