import WireSchema.Proofs.Bytes.Item
import WireSchema.Proofs.Outcome
import WireSchema.Wire.Encode

/-! Encoding a struct by plain recursion, each field giving its bytes at once and a nested
struct standing behind the number of bytes that it was found to have. Listing items
first and writing them afterwards gives the same bytes and the same faults: the size
that is computed for a part is always the number of bytes that its items write. -/

namespace WireSchema

namespace ResolvedType

theorem accepts_of_validate {type : ResolvedType} {v : Value} {path : String}
    (h : type.validate v path = .ok ()) : type.accepts v := by
  rw [validate] at h
  split at h
  · assumption
  · cases h

theorem validate_eq_error {type : ResolvedType} {v : Value} {path : String} {fault : Fault}
    (h : type.validate v path = .error fault) :
    ¬type.accepts v ∧ fault = .mismatch path type.describe v.describe := by
  rw [validate] at h
  split at h
  · cases h
  · next hn => exact ⟨hn, (Except.error.inj h).symm⟩

end ResolvedType

namespace Direct

/-- Bytes behind their number, which is bounded. -/
def framed (limits : Limits) (bytes : List UInt8) (path : String) : Except Fault (List UInt8) :=
  if bytes.length ≤ limits.maxLength.toNat then .ok (Varint.encode bytes.length ++ bytes)
  else .error (.tooLong path bytes.length limits.maxLength.toNat)

section Framed
variable {limits : Limits} {content bytes : List UInt8} {path : String}

theorem framed_eq_ok (h : framed limits content path = .ok bytes) :
    content.length ≤ limits.maxLength.toNat ∧
      bytes = Varint.encode content.length ++ content := by
  rw [framed] at h
  split at h
  · next hl => exact ⟨hl, (Except.ok.inj h).symm⟩
  · cases h

theorem framed_eq_error {fault : Fault} (h : framed limits content path = .error fault) :
    ∃ length, limits.maxLength.toNat < length ∧
      fault = .tooLong path length limits.maxLength.toNat := by
  rw [framed] at h
  split at h
  · cases h
  · next hlong => exact ⟨_, Nat.lt_of_not_le hlong, (Except.error.inj h).symm⟩

end Framed

/-- The bytes of a value of a type, those of structs being given by `nested`. -/
def value (limits : Limits) (nested : StructDef → Value → String → Except Fault (List UInt8))
    (type : ResolvedType) (v : Value) (path : String) : Except Fault (List UInt8) :=
  match type, v with
  | .bool, .bool b => .ok [if b then 1 else 0]
  | .string, .string s => framed limits (Utf8.encode s.toList) path
  | .any, v => framed limits (Utf8.encode (Json.chars v)) path
  | .struct s, v => do framed limits (← nested s v path) path
  | .int kind bounds, v =>
    match v.int? with
    | some n => .ok (LittleEndian.encode kind.width n.toUInt64.toNat)
    | none => ResolvedType.refuse (.int kind bounds) v path
  | .float32, v =>
    match v.float? with
    | some x => .ok (LittleEndian.encode 4 x.narrow.bits.toNat)
    | none => ResolvedType.refuse .float32 v path
  | .float64, v =>
    match v.float? with
    | some x => .ok (LittleEndian.encode 8 x.bits.toNat)
    | none => ResolvedType.refuse .float64 v path
  | .enum e, .string name =>
    match e.code? name with
    | some code => .ok (Varint.encode code.toUInt64.toNat)
    | none => ResolvedType.refuse (.enum e) (.string name) path
  | .enum e, v =>
    match v.int? with
    | some code => .ok (Varint.encode code.toUInt64.toNat)
    | none => ResolvedType.refuse (.enum e) v path
  | type, v => type.refuse v path

section Value
variable (limits : Limits) (nested : StructDef → Value → String → Except Fault (List UInt8))

/-- The code of an enum is written as it is, whatever value gives it. -/
theorem value_enum (e : EnumDef) (v : Value) (path : String) :
    value limits nested (.enum e) v path =
      match Encode.code? e v with
      | some code => .ok (Varint.encode code.toUInt64.toNat)
      | none => ResolvedType.refuse (.enum e) v path := by
  cases v <;> rfl

theorem value_any (v : Value) (path : String) :
    value limits nested .any v path = framed limits (Utf8.encode (Json.chars v)) path := by
  cases v <;> rfl

theorem value_struct (s : StructDef) (v : Value) (path : String) :
    value limits nested (.struct s) v path =
      nested s v path >>= fun bytes => framed limits bytes path := by
  cases v <;> rfl

end Value

section Errors
variable {limits : Limits} {nested : StructDef → Value → String → Except Fault (List UInt8)}
  {type : ResolvedType} {v : Value} {path : String} {fault : Fault}

/-- An accepted value fails for its length only, or for what is in it. -/
theorem value_eq_error (ha : type.accepts v) (h : value limits nested type v path = .error fault) :
    (∃ length, limits.maxLength.toNat < length ∧
      fault = .tooLong path length limits.maxLength.toNat) ∨
      ∃ t, type = .struct t ∧ nested t v path = .error fault := by
  cases type with
  | bool =>
    cases v with
    | bool b => cases h
    | _ => cases ha
  | string =>
    cases v with
    | string s => exact .inl (framed_eq_error h)
    | _ => cases ha
  | any =>
    rw [value_any] at h
    exact .inl (framed_eq_error h)
  | int kind bounds =>
    cases hn : v.int? with
    | none => simp [ResolvedType.accepts, hn] at ha
    | some n => simp [value, hn] at h
  | float32 =>
    cases v with
    | int n => cases h
    | float x => cases h
    | _ => cases ha
  | float64 =>
    cases v with
    | int n => cases h
    | float x => cases h
    | _ => cases ha
  | enum e =>
    rw [value_enum] at h
    cases hc : Encode.code? e v with
    | some code => simp [hc] at h
    | none =>
      cases v <;> simp_all [ResolvedType.accepts, Encode.code?]
  | struct t =>
    rw [value_struct] at h
    obtain h | ⟨inner, -, h⟩ := Outcome.bind_eq_error.1 h
    · exact .inr ⟨t, rfl, h⟩
    · exact .inl (framed_eq_error h)

/-- What is given for a field fails where it is refused, for its length, or for what is in it. -/
theorem given_eq_error
    (h : type.validate v path = .error fault ∨
      type.validate v path = .ok () ∧ value limits nested type v path = .error fault) :
    (¬type.accepts v ∧ fault = .mismatch path type.describe v.describe) ∨
      (∃ length, limits.maxLength.toNat < length ∧
        fault = .tooLong path length limits.maxLength.toNat) ∨
      ∃ t, type = .struct t ∧ v.object?.isSome ∧ nested t v path = .error fault := by
  obtain h | ⟨hvalid, h⟩ := h
  · exact .inl (ResolvedType.validate_eq_error h)
  · have ha := ResolvedType.accepts_of_validate hvalid
    obtain hlong | ⟨t, rfl, hnested⟩ := value_eq_error ha h
    · exact .inr (.inl hlong)
    · exact .inr (.inr ⟨t, rfl, ha, hnested⟩)

end Errors

/-- What is written for a field, its type being known: the value supplied, else the default. -/
def given? (members : Table Value) (f : Field) : Option (ResolvedType → Value) :=
  match members.find? f.name, f.default with
  | some v, _ => some fun _ => v
  | none, some raw => some fun type => type.liftDefault raw
  | none, none => none

theorem given?_eq_some {members : Table Value} {f : Field} {given : ResolvedType → Value}
    (h : given? members f = some given) :
    (∃ v, members.find? f.name = some v ∧ given = fun _ => v) ∨
      (members.find? f.name = none ∧ ∃ raw, f.default = some raw ∧
        given = fun type => type.liftDefault raw) := by
  cases hv : members.find? f.name with
  | some v =>
    simp only [given?, hv, Option.some.injEq] at h
    exact .inl ⟨v, rfl, h.symm⟩
  | none =>
    cases hraw : f.default with
    | some raw =>
      simp only [given?, hv, hraw, Option.some.injEq] at h
      exact .inr ⟨rfl, raw, rfl, h.symm⟩
    | none =>
      simp only [given?, hv, hraw] at h
      cases h

/-- Whether a field is written. -/
def written (members : Table Value) (f : Field) : Bool := (given? members f).isSome

/-- The bytes of a field, if it is written. -/
def field (d : Document) (limits : Limits)
    (nested : StructDef → Value → String → Except Fault (List UInt8)) (s : StructDef)
    (members : Table Value) (path : String) (f : Field) : Except Fault (Option (List UInt8)) :=
  match given? members f with
  | none => .ok none
  | some given => do
    let type ← d.resolve (some s) f.type
    type.validate (given type) (path ++ "." ++ f.name)
    let bytes ← value limits nested type (given type) (path ++ "." ++ f.name)
    .ok (some bytes)

/-- The fields that are written, each with its bytes. -/
def parts (d : Document) (limits : Limits)
    (nested : StructDef → Value → String → Except Fault (List UInt8)) (s : StructDef)
    (members : Table Value) (path : String) :
    List Field → Except Fault (List (Field × List UInt8))
  | [] => .ok []
  | f :: more => do
    let first ← field d limits nested s members path f
    let later ← parts d limits nested s members path more
    match first with
    | some bytes => .ok ((f, bytes) :: later)
    | none => .ok later

section Parts
variable {d : Document} {limits : Limits}
  {nested : StructDef → Value → String → Except Fault (List UInt8)} {s : StructDef}
  {members : Table Value} {path : String} {f : Field} {fs : List Field}
  {ps : List (Field × List UInt8)} {fault : Fault}

/-- The fields are written one by one, a field that is left out without a trace. -/
theorem parts_cons {more : List Field}
    (h : parts d limits nested s members path (f :: more) = .ok ps) :
    (given? members f = none ∧ parts d limits nested s members path more = .ok ps) ∨
      ∃ given type bytes later, given? members f = some given ∧
        d.resolve (some s) f.type = .ok type ∧
        type.validate (given type) (path ++ "." ++ f.name) = .ok () ∧
        value limits nested type (given type) (path ++ "." ++ f.name) = .ok bytes ∧
        parts d limits nested s members path more = .ok later ∧ ps = (f, bytes) :: later := by
  rw [parts] at h
  obtain ⟨first, hfirst, h⟩ := Outcome.bind_eq_ok.1 h
  obtain ⟨later, hlater, h⟩ := Outcome.bind_eq_ok.1 h
  rw [field] at hfirst
  split at hfirst
  · next hnone =>
    obtain rfl := Except.ok.inj hfirst
    exact .inl ⟨hnone, Except.ok.inj h ▸ hlater⟩
  · next given hgiven =>
    obtain ⟨type, htype, hfirst⟩ := Outcome.bind_eq_ok.1 hfirst
    obtain ⟨_, hvalid, hfirst⟩ := Outcome.bind_eq_ok.1 hfirst
    obtain ⟨bytes, hbytes, hfirst⟩ := Outcome.bind_eq_ok.1 hfirst
    obtain rfl := Except.ok.inj hfirst
    exact .inr ⟨given, type, bytes, later, hgiven, htype, hvalid, hbytes, hlater,
      (Except.ok.inj h).symm⟩

/-- A field that is given, in the terms in which it is encoded. -/
theorem parts_cons_given {given : ResolvedType → Value} {type : ResolvedType}
    (hg : given? members f = some given) (ht : d.resolve (some s) f.type = .ok type)
    (more : List Field) :
    parts d limits nested s members path (f :: more) =
      type.validate (given type) (path ++ "." ++ f.name) >>= fun _ =>
        value limits nested type (given type) (path ++ "." ++ f.name) >>= fun bytes =>
          (parts d limits nested s members path more).map ((f, bytes) :: ·) := by
  simp only [parts, field, hg, ht, Outcome.ok_bind]
  cases type.validate (given type) (path ++ "." ++ f.name) with
  | error fault => rfl
  | ok _ =>
    cases value limits nested type (given type) (path ++ "." ++ f.name) with
    | error fault => rfl
    | ok bytes => cases parts d limits nested s members path more <;> rfl

theorem parts_cons_absent (hg : given? members f = none) (more : List Field) :
    parts d limits nested s members path (f :: more) =
      parts d limits nested s members path more := by
  simp only [parts, field, hg, Outcome.ok_bind]
  cases parts d limits nested s members path more <;> rfl

theorem field_eq_error (h : field d limits nested s members path f = .error fault) :
    ∃ given, given? members f = some given ∧
      (d.resolve (some s) f.type = .error fault ∨ ∃ type, d.resolve (some s) f.type = .ok type ∧
        (type.validate (given type) (path ++ "." ++ f.name) = .error fault ∨
          type.validate (given type) (path ++ "." ++ f.name) = .ok () ∧
            value limits nested type (given type) (path ++ "." ++ f.name) = .error fault)) := by
  rw [field] at h
  split at h
  · cases h
  · next given hgiven =>
    refine ⟨given, hgiven, ?_⟩
    obtain h | ⟨type, htype, h⟩ := Outcome.bind_eq_error.1 h
    · exact .inl h
    · refine .inr ⟨type, htype, ?_⟩
      obtain h | ⟨_, hvalid, h⟩ := Outcome.bind_eq_error.1 h
      · exact .inl h
      · obtain h | ⟨_, _, h⟩ := Outcome.bind_eq_error.1 h
        · exact .inr ⟨hvalid, h⟩
        · cases h

/-- The fault of the fields is the fault of one of them. -/
theorem parts_eq_error (h : parts d limits nested s members path fs = .error fault) :
    ∃ f ∈ fs, field d limits nested s members path f = .error fault := by
  induction fs with
  | nil => cases h
  | cons f more ih =>
    rw [parts] at h
    obtain h | ⟨first, -, h⟩ := Outcome.bind_eq_error.1 h
    · exact ⟨f, List.mem_cons_self, h⟩
    · obtain h | ⟨later, -, h⟩ := Outcome.bind_eq_error.1 h
      · obtain ⟨g, hg, hfault⟩ := ih h
        exact ⟨g, List.mem_cons_of_mem f hg, hfault⟩
      · split at h <;> cases h

theorem map_fst_parts (h : parts d limits nested s members path fs = .ok ps) :
    ps.map Prod.fst = fs.filter (written members) := by
  induction fs generalizing ps with
  | nil => rw [← Except.ok.inj h]; rfl
  | cons f more ih =>
    obtain ⟨hnone, hmore⟩ | ⟨given, type, bytes, later, hgiven, -, -, -, hmore, rfl⟩ :=
      parts_cons h
    · rw [ih hmore, List.filter_cons_of_neg (by simp [written, hnone])]
    · rw [List.map_cons, ih hmore, List.filter_cons_of_pos (by simp [written, hgiven])]

end Parts

/-- A struct where `levels` may still be entered. -/
def struct (d : Document) (limits : Limits) :
    (levels : Nat) → StructDef → Value → String → Except Fault (List UInt8)
  | 0, _, _, path => .error (.tooDeep path limits.maxDepth.toNat)
  | levels + 1, s, .object members, path =>
    (parts d limits (struct d limits levels) s members path s.fields).map (·.flatMap Prod.snd)
  | _ + 1, s, v, path => ResolvedType.refuse (.struct s) v path

end Direct

/-- A value as the bytes of a struct, without a list of items. -/
def Document.encodeDirect (d : Document) (limits : Limits) (name : String) (v : Value) :
    Except Fault (List UInt8) :=
  match d.struct? name with
  | some s => Direct.struct d limits limits.levels s v name
  | none => .error (.unknownStruct name)

/-- Listing from some items on agrees with giving bytes: the fault is the same, or else items that
write the bytes come behind those that were there, and the size is the number of the bytes. -/
def Lists (items : Array Item) : Except Fault Plan → Except Fault (List UInt8) → Prop
  | .ok plan, .ok bytes =>
    ∃ more : Array Item, plan.items = items ++ more ∧ Item.encodeAll more.toList = bytes ∧
      plan.size = bytes.length
  | .error fault, .error fault' => fault = fault'
  | _, _ => False

namespace Lists

theorem refuse {items : Array Item} {type : ResolvedType} {v : Value} {path : String} :
    Lists items (type.refuse v path) (type.refuse v path) := rfl

theorem item (items : Array Item) (item : Item) :
    Lists items (.ok (Encode.item item items)) (.ok item.encode) := by
  refine ⟨#[item], ?_, ?_, ?_⟩
  · simp [Encode.item]
  · simp
  · exact (Item.length_encode item).symm

/-- What is done next agrees, if it agrees wherever what came first does. `view` is what the result
of the second run counts for. -/
theorem bind {α : Type} {items items' : Array Item} {x : Except Fault Plan} {y : Except Fault α}
    {view : α → List UInt8} {f : Plan → Except Fault Plan} {g : α → Except Fault (List UInt8)}
    (h : Lists items x (y.map view))
    (hfg : ∀ plan a, Lists items (.ok plan) (.ok (view a)) → Lists items' (f plan) (g a)) :
    Lists items' (x >>= f) (y >>= g) := by
  cases x with
  | error fault =>
    cases y with
    | error fault' => exact h
    | ok a => exact h.elim
  | ok plan =>
    cases y with
    | error fault => exact h.elim
    | ok a => exact hfg plan a h

/-- A part listed after another, from where that one has come to. -/
theorem append {items : Array Item} {p q : Plan} {first later : List UInt8}
    (hp : Lists items (.ok p) (.ok first)) (hq : Lists p.items (.ok q) (.ok later)) :
    Lists items (.ok ⟨q.items, p.size + q.size⟩) (.ok (first ++ later)) := by
  obtain ⟨more, hpi, hpe, hps⟩ := hp
  obtain ⟨more', hqi, hqe, hqs⟩ := hq
  refine ⟨more ++ more', ?_, ?_, ?_⟩
  · rw [hqi, hpi, Array.append_assoc]
  · rw [Array.toList_append, Item.encodeAll_append, hpe, hqe]
  · rw [List.length_append, hps, hqs]

end Lists

namespace Encode

open Outcome

variable (limits : Limits) (items : Array Item)

/-- A length that passed its check is written as it is. -/
theorem toNat_length {limits : Limits} {n : Nat} (h : n ≤ limits.maxLength.toNat) :
    (UInt64.ofNat n).toNat = n := by
  rw [UInt64.toNat_ofNat', Nat.mod_eq_of_lt]
  exact Nat.lt_of_le_of_lt h limits.maxLength.toNat_lt

theorem text_lists (chars : List Char) (path : String) :
    Lists items (text limits chars path items) (Direct.framed limits (Utf8.encode chars) path) := by
  by_cases h : (Utf8.encode chars).length ≤ limits.maxLength.toNat
  · have hl := toNat_length h
    simp only [text, checkLength, Direct.framed, if_pos h, if_neg (Nat.not_lt.2 h)]
    refine ⟨#[.varint (UInt64.ofNat (Utf8.encode chars).length), .bytes (Utf8.encode chars)],
      ?_, ?_, ?_⟩
    · rw [Array.push_eq_append, Array.push_eq_append, Array.append_assoc]
      rfl
    · simp [Item.encode, hl]
    · simp [Item.size, hl, Varint.length_encode]
  · simp only [text, checkLength, Direct.framed, if_neg h, if_pos (Nat.lt_of_not_le h)]
    rfl

/-- The slot that was put in front of a struct gets the number of bytes behind it, and nothing
else in the list changes. -/
theorem setIfInBounds_slot (more : Array Item) (slot length : Item) :
    ((items.push slot) ++ more).setIfInBounds items.size length =
      items ++ (#[length] ++ more) := by
  apply Array.toList_inj.1
  simp

variable {nested : StructDef → Value → String → Array Item → Except Fault Plan}
  {direct : StructDef → Value → String → Except Fault (List UInt8)}

theorem nested_lists (hn : ∀ s v path items, Lists items (nested s v path items) (direct s v path))
    (s : StructDef) (v : Value) (path : String) :
    Lists items (value limits nested (.struct s) v path items)
      (Direct.value limits direct (.struct s) v path) := by
  have hs := hn s v path (items.push (.varint 0))
  rw [← id_eq (direct s v path), ← Except.map_id] at hs
  refine hs.bind fun plan bytes hp => ?_
  obtain ⟨more, hi, he, hsize⟩ := hp
  rw [id_eq] at he hsize
  by_cases h : bytes.length ≤ limits.maxLength.toNat
  · have hl := toNat_length h
    rw [checkLength, hsize, if_neg (Nat.not_lt.2 h), Direct.framed, if_pos h, ok_bind]
    refine ⟨#[.varint (UInt64.ofNat bytes.length)] ++ more, ?_, ?_, ?_⟩
    · simp only [hi, setIfInBounds_slot]
    · simp [Item.encode, hl, he]
    · simp [Item.size, hl, Varint.length_encode]
  · rw [checkLength, hsize, if_pos (Nat.lt_of_not_le h), Direct.framed, if_neg h]
    rfl

/-- The listed value of a type, once structs are listed as they are encoded. -/
theorem value_lists (hn : ∀ s v path items, Lists items (nested s v path items) (direct s v path))
    (type : ResolvedType) (v : Value) (path : String) :
    Lists items (value limits nested type v path items)
      (Direct.value limits direct type v path) := by
  cases type with
  | bool => cases v <;> first | exact Lists.item items (.bool _) | exact Lists.refuse
  | string => cases v <;> first | exact text_lists limits items _ path | exact Lists.refuse
  | float32 =>
    simp only [value, Direct.value]
    cases v.float? with
    | some x => exact Lists.item items (.float32 x.narrow)
    | none => exact Lists.refuse
  | float64 =>
    simp only [value, Direct.value]
    cases v.float? with
    | some x => exact Lists.item items (.float64 x)
    | none => exact Lists.refuse
  | any => exact text_lists limits items (Json.chars v) path
  | int kind bounds =>
    simp only [value, Direct.value]
    cases v.int? with
    | some n =>
      have hw : min kind.width 8 = kind.width := by cases kind <;> rfl
      have h := Lists.item items (.fixed n kind.width)
      rwa [Item.encode, hw] at h
    | none => exact Lists.refuse
  | enum e =>
    rw [Direct.value_enum]
    simp only [value]
    cases code? e v with
    | some code => exact Lists.item items (.varint code.toUInt64)
    | none => exact Lists.refuse
  | struct s => exact nested_lists limits items hn s v path

variable {d : Document} {s : StructDef} {members : Table Value}

theorem fieldValue?_eq (d : Document) (s : StructDef) (members : Table Value) (f : Field) :
    fieldValue? d s members f =
      match Direct.given? members f with
      | none => .ok none
      | some given => (d.resolve (some s) f.type).map fun type => some (type, given type) := by
  unfold fieldValue? Direct.given?
  cases members.find? f.name with
  | some v => rfl
  | none => cases f.default <;> rfl

/-- A field that is left out lists nothing and has no bytes. -/
theorem field_lists (hn : ∀ s v path items, Lists items (nested s v path items) (direct s v path))
    (path : String) (f : Field) :
    Lists items (field d limits nested s members path f items)
      ((Direct.field d limits direct s members path f).map (·.getD [])) := by
  rw [field, fieldValue?_eq, Direct.field]
  cases Direct.given? members f with
  | none => exact ⟨#[], by simp, rfl, rfl⟩
  | some given =>
    cases d.resolve (some s) f.type with
    | error fault => rfl
    | ok type =>
      simp only [ok_bind, map_ok, map_bind]
      cases type.validate (given type) (path ++ "." ++ f.name) with
      | error fault => rfl
      | ok _ =>
        have h := value_lists limits items hn type (given type) (path ++ "." ++ f.name)
        simp only [ok_bind]
        cases hb : Direct.value limits direct type (given type) (path ++ "." ++ f.name) with
        | error fault => rwa [hb] at h
        | ok bytes => rwa [hb] at h

theorem fields_lists (hn : ∀ s v path items, Lists items (nested s v path items) (direct s v path))
    (path : String) (fs : List Field) :
    Lists items (fields d limits nested s members path fs items)
      ((Direct.parts d limits direct s members path fs).map (·.flatMap Prod.snd)) := by
  induction fs generalizing items with
  | nil => exact ⟨#[], by simp, rfl, rfl⟩
  | cons f more ih =>
    rw [fields, Direct.parts, map_bind]
    refine (field_lists limits items hn path f).bind fun first bytes hf => ?_
    rw [map_bind]
    refine (ih first.items).bind fun later parts hl => ?_
    have h := hf.append hl
    cases bytes with
    | none => simpa using h
    | some bytes => simpa using h

/-- At every level, whatever is already listed. -/
theorem struct_lists (d : Document) (levels : Nat) :
    ∀ (s : StructDef) (v : Value) (path : String) (items : Array Item),
      Lists items (struct d limits levels s v path items)
        (Direct.struct d limits levels s v path) := by
  induction levels with
  | zero => intro s v path items; rfl
  | succ levels ih =>
    intro s v path items
    cases v with
    | object members => exact fields_lists limits items ih path s.fields
    | _ => rfl

end Encode

namespace Document

variable (d : Document) (limits : Limits) (name : String) (v : Value)

theorem encode_direct : d.encode limits name v = d.encodeDirect limits name v := by
  unfold encode plan getStruct encodeDirect
  cases d.struct? name with
  | none => rfl
  | some s =>
    have h := Encode.struct_lists limits d limits.levels s v name #[]
    simp only [Outcome.ok_bind]
    cases hp : Encode.struct d limits limits.levels s v name #[] with
    | error fault =>
      cases hb : Direct.struct d limits limits.levels s v name with
      | error fault' => rw [hp, hb] at h; exact congrArg _ h
      | ok bytes => rw [hp, hb] at h; exact h.elim
    | ok plan =>
      cases hb : Direct.struct d limits limits.levels s v name with
      | error fault => rw [hp, hb] at h; exact h.elim
      | ok bytes =>
        rw [hp, hb] at h
        obtain ⟨more, hi, he, -⟩ := h
        rw [Outcome.ok_bind, hi, Array.empty_append, he]

/-- Encoding by way of a list of items is plain recursive encoding, in the bytes and in the fault.
At every level the items listed write the bytes of the struct, and their size is the number of
those bytes, so that each length in front of a part is the length of the part. -/
theorem encode_eq_encodeDirect :
    d.encode limits name v = d.encodeDirect limits name v ∧
      ∀ (levels : Nat) (s : StructDef) (v : Value) (path : String) (items : Array Item),
        Lists items (Encode.struct d limits levels s v path items)
          (Direct.struct d limits levels s v path) :=
  ⟨d.encode_direct limits name v, Encode.struct_lists limits d⟩

end Document

end WireSchema
