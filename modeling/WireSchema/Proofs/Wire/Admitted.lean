import WireSchema.Proofs.Wire.Canonical
import WireSchema.Proofs.Wire.Limited
import WireSchema.Proofs.Wire.ReadsBack
import WireSchema.Proofs.Wire.Taken

/-! What limits stop. The bytes behind a length are a text, a JSON text or a nested struct, and
limits admit them by their number and by the depth at which a struct is entered. An encoding
that more generous limits allow is allowed exactly if everything in it is admitted, and
whatever is decoded within limits had nothing in it that they do not admit. -/

namespace WireSchema

open Outcome

/-- The types whose values stand behind their length. -/
def ResolvedType.isFramed : ResolvedType → Bool
  | .string | .any | .struct _ => true
  | _ => false

/-- Limits admit bytes that stand behind their length, in a struct that is so many levels below the
outermost: there are not too many of them, and a struct may be entered below. -/
structure Limits.Admits (l : Limits) (depth : Nat) (type : ResolvedType) (content : List UInt8) :
    Prop where
  length : content.length ≤ l.maxLength.toNat
  deeper : ∀ t, type = .struct t → depth < l.maxDepth.toNat

/-! ### Encoding -/

/-- The bytes that are put behind their length for a value, within some limits. -/
inductive Framed (d : Document) (limits : Limits) : ResolvedType → Value → List UInt8 → Prop
  | string (s : String) : Framed d limits .string (.string s) (Utf8.encode s.toList)
  | any (v : Value) : Framed d limits .any v (Utf8.encode (Json.chars v))
  | struct {t : StructDef} {v : Value} {levels : Nat} {path : String} {bytes : List UInt8}
      (h : Direct.struct d limits levels t v path = .ok bytes) : Framed d limits (.struct t) v bytes

/-- The encoding of a struct has in it, so many levels below, bytes behind their length. -/
inductive Holds (d : Document) (limits : Limits) :
    StructDef → Value → (depth : Nat) → ResolvedType → List UInt8 → Prop
  | here {s : StructDef} {v x : Value} {f : Field} {type : ResolvedType} {content : List UInt8}
      (writes : Writes d s v f type x) (framed : Framed d limits type x content) :
      Holds d limits s v 0 type content
  | nested {s t : StructDef} {v x : Value} {f : Field} {depth : Nat} {type : ResolvedType}
      {content : List UInt8} (writes : Writes d s v f (.struct t) x)
      (h : Holds d limits t x depth type content) : Holds d limits s v (depth + 1) type content

/-- Limits admit all that the encoding of a struct has in it. -/
def Limits.AdmitsEncoding (l : Limits) (d : Document) (limits : Limits) (s : StructDef)
    (v : Value) : Prop :=
  ∀ depth type content, Holds d limits s v depth type content → l.Admits depth type content

namespace Direct

variable {d : Document} {limits more : Limits}
  {nested nested' : StructDef → Value → String → Except Fault (List UInt8)} {s : StructDef}
  {members : Table Value} {path path' : String} {fs : List Field}
  {ps ps' : List (Field × List UInt8)}

/-- A written field has its bytes. -/
theorem exists_value_of_parts (h : parts d limits nested s members path fs = .ok ps) {f : Field}
    (hf : f ∈ fs) {given : ResolvedType → Value} (hg : given? members f = some given)
    {type : ResolvedType} (ht : d.resolve (some s) f.type = .ok type) :
    ∃ bytes, value limits nested type (given type) (path ++ "." ++ f.name) = .ok bytes := by
  induction fs generalizing ps with
  | nil => cases hf
  | cons g rest ih =>
    obtain ⟨hnone, hmore⟩ |
      ⟨given', type', bytes, later, hgiven, htype, -, hbytes, hmore, rfl⟩ := parts_cons h
    · obtain rfl | hf := List.mem_cons.1 hf
      · rw [hg] at hnone
        cases hnone
      · exact ih hmore hf
    · obtain rfl | hf := List.mem_cons.1 hf
      · obtain rfl := Option.some.inj (hg.symm.trans hgiven)
        obtain rfl := Except.ok.inj (ht.symm.trans htype)
        exact ⟨bytes, hbytes⟩
      · exact ih hmore hf

/-- Fields are encoded as before where their values are. -/
theorem parts_transfer (h : parts d limits nested s members path fs = .ok ps)
    (hv : ∀ f ∈ fs, ∀ given type bytes, given? members f = some given →
      d.resolve (some s) f.type = .ok type →
        value limits nested type (given type) (path ++ "." ++ f.name) = .ok bytes →
          value more nested' type (given type) (path ++ "." ++ f.name) = .ok bytes) :
    parts d more nested' s members path fs = .ok ps := by
  induction fs generalizing ps with
  | nil => exact h
  | cons f rest ih =>
    rw [List.forall_mem_cons] at hv
    obtain ⟨hnone, hmore⟩ |
      ⟨given, type, bytes, later, hgiven, htype, hvalid, hbytes, hmore, rfl⟩ := parts_cons h
    · rw [parts_cons_absent hnone]
      exact ih hmore hv.2
    · rw [parts_cons_given hgiven htype, hvalid, ok_bind,
        hv.1 given type bytes hgiven htype hbytes, ok_bind, ih hmore hv.2, map_ok]

/-! ### One encoding -/

/-- What has no length in front of it does not depend on limits. -/
theorem value_unframed {type : ResolvedType} (ht : ¬type.isFramed) {v : Value} {bytes : List UInt8}
    (h : value limits nested type v path = .ok bytes) :
    value more nested' type v path' = .ok bytes := by
  cases type with
  | bool =>
    cases v with
    | bool b => exact h
    | _ => cases h
  | int kind bounds =>
    cases hn : v.int? with
    | none => simp [value, hn, ResolvedType.refuse] at h
    | some n => simpa only [value, hn] using h
  | float32 =>
    cases hx : v.float? with
    | none => simp [value, hx, ResolvedType.refuse] at h
    | some x => simpa only [value, hx] using h
  | float64 =>
    cases hx : v.float? with
    | none => simp [value, hx, ResolvedType.refuse] at h
    | some x => simpa only [value, hx] using h
  | enum e =>
    rw [value_enum] at h ⊢
    cases hc : Encode.code? e v with
    | none => simp [hc, ResolvedType.refuse] at h
    | some code => simpa only [hc] using h
  | _ => exact absurd rfl ht

theorem framed_unique {content bytes bytes' : List UInt8}
    (h : framed limits content path = .ok bytes) (h' : framed more content path' = .ok bytes') :
    bytes = bytes' :=
  (framed_eq_ok h).2.trans (framed_eq_ok h').2.symm

theorem value_unique (hn : ∀ s v path path' bytes bytes', nested s v path = .ok bytes →
      nested' s v path' = .ok bytes' → bytes = bytes') {type : ResolvedType} {v : Value}
    {bytes bytes' : List UInt8} (h : value limits nested type v path = .ok bytes)
    (h' : value more nested' type v path' = .ok bytes') : bytes = bytes' := by
  by_cases ht : type.isFramed
  · cases type with
    | string =>
      cases v with
      | string s => exact framed_unique h h'
      | _ => cases h
    | any =>
      rw [value_any] at h h'
      exact framed_unique h h'
    | struct t =>
      rw [value_struct] at h h'
      obtain ⟨content, hcontent, h⟩ := bind_eq_ok.1 h
      obtain ⟨content', hcontent', h'⟩ := bind_eq_ok.1 h'
      obtain rfl := hn t v path path' content content' hcontent hcontent'
      exact framed_unique h h'
    | _ => cases ht
  · exact Except.ok.inj ((value_unframed ht h).symm.trans h')

theorem parts_unique (hn : ∀ s v path path' bytes bytes', nested s v path = .ok bytes →
      nested' s v path' = .ok bytes' → bytes = bytes')
    (h : parts d limits nested s members path fs = .ok ps)
    (h' : parts d more nested' s members path' fs = .ok ps') : ps = ps' := by
  induction fs generalizing ps ps' with
  | nil => exact Except.ok.inj (h.symm.trans h')
  | cons f rest ih =>
    obtain ⟨hnone, hmore⟩ |
      ⟨given, type, bytes, later, hgiven, htype, -, hbytes, hmore, rfl⟩ := parts_cons h
    · rw [parts_cons_absent hnone] at h'
      exact ih hmore h'
    · obtain ⟨hnone, -⟩ |
        ⟨given', type', bytes', later', hgiven', htype', -, hbytes', hmore', rfl⟩ := parts_cons h'
      · rw [hgiven] at hnone
        cases hnone
      · obtain rfl := Option.some.inj (hgiven.symm.trans hgiven')
        obtain rfl := Except.ok.inj (htype.symm.trans htype')
        rw [value_unique hn hbytes hbytes', ih hmore hmore']

/-- The bytes of a struct depend neither on limits nor on the path. -/
theorem struct_unique {levels levels' : Nat} {v : Value} {bytes bytes' : List UInt8}
    (h : struct d limits levels s v path = .ok bytes)
    (h' : struct d more levels' s v path' = .ok bytes') : bytes = bytes' := by
  induction levels generalizing levels' s v path path' bytes bytes' with
  | zero => cases h
  | succ levels ih =>
    cases levels' with
    | zero => cases h'
    | succ levels' =>
      cases v with
      | object members =>
        obtain ⟨ps, hps, rfl⟩ := map_eq_ok.1 h
        obtain ⟨ps', hps', rfl⟩ := map_eq_ok.1 h'
        have hn (s : StructDef) (v : Value) (path path' : String) (bytes bytes' : List UInt8)
            (h : struct d limits levels s v path = .ok bytes)
            (h' : struct d more levels' s v path' = .ok bytes') : bytes = bytes' := ih h h'
        rw [parts_unique hn hps hps']
      | _ => cases h

/-! ### Limits and encodings -/

/-- What is encoded for a field of a struct that is encoded. -/
theorem exists_value_of_writes {levels : Nat} {v x : Value} {bytes : List UInt8} {f : Field}
    {type : ResolvedType} (h : struct d limits (levels + 1) s v path = .ok bytes)
    (hw : Writes d s v f type x) :
    ∃ content, value limits (struct d limits levels) type x (path ++ "." ++ f.name) =
      .ok content := by
  obtain ⟨members, given, hv, hgiven, rfl⟩ := hw.given
  cases v with
  | object =>
    obtain rfl := Option.some.inj hv
    obtain ⟨ps, hps, -⟩ := map_eq_ok.1 h
    exact exists_value_of_parts hps hw.declared hgiven hw.resolved
  | _ => cases h

/-- What an encoding within limits has in it, they admit. -/
theorem admits_of_struct {levels : Nat} {v : Value} {bytes content : List UInt8} {depth : Nat}
    {type : ResolvedType} (h : struct d limits (levels + 1) s v path = .ok bytes)
    (hh : Holds d more s v depth type content) :
    content.length ≤ limits.maxLength.toNat ∧ ∀ t, type = .struct t → depth < levels := by
  induction hh generalizing levels path bytes with
  | here writes framed =>
    obtain ⟨_, hvalue⟩ := exists_value_of_writes h writes
    cases framed with
    | string s => exact ⟨(framed_eq_ok hvalue).1, nofun⟩
    | any v =>
      rw [value_any] at hvalue
      exact ⟨(framed_eq_ok hvalue).1, nofun⟩
    | struct hstruct =>
      rw [value_struct] at hvalue
      obtain ⟨inner, hinner, hframed⟩ := bind_eq_ok.1 hvalue
      obtain rfl := struct_unique hinner hstruct
      cases levels with
      | zero => cases hinner
      | succ levels => exact ⟨(framed_eq_ok hframed).1, fun _ _ => levels.succ_pos⟩
  | nested writes _ ih =>
    obtain ⟨_, hvalue⟩ := exists_value_of_writes h writes
    rw [value_struct] at hvalue
    obtain ⟨inner, hinner, -⟩ := bind_eq_ok.1 hvalue
    cases levels with
    | zero => cases hinner
    | succ levels =>
      obtain ⟨hlength, hdeeper⟩ := ih hinner
      exact ⟨hlength, fun t ht => Nat.succ_lt_succ (hdeeper t ht)⟩

theorem framed_of_length {content bytes : List UInt8} (h : framed more content path = .ok bytes)
    (hl : content.length ≤ limits.maxLength.toNat) : framed limits content path = .ok bytes := by
  rw [framed, if_pos hl, (framed_eq_ok h).2]

/-- What is admitted in full is encoded. -/
theorem struct_of_admits {levels levels' : Nat} {v : Value} {bytes : List UInt8}
    (h : struct d more levels' s v path = .ok bytes)
    (ha : ∀ depth type content, Holds d more s v depth type content →
      content.length ≤ limits.maxLength.toNat ∧ ∀ t, type = .struct t → depth < levels) :
    struct d limits (levels + 1) s v path = .ok bytes := by
  induction levels' generalizing levels s v path bytes with
  | zero => cases h
  | succ levels' ih =>
    cases v with
    | object members =>
      obtain ⟨ps, hps, rfl⟩ := map_eq_ok.1 h
      rw [struct, parts_transfer hps, map_ok]
      intro f hf given type bytes hgiven htype hvalue
      have hwrites : Writes d s (.object members) f type (given type) :=
        ⟨hf, htype, members, given, rfl, hgiven, rfl⟩
      cases type with
      | string =>
        cases hx : given .string with
        | string s =>
          rw [hx] at hvalue hwrites
          exact framed_of_length hvalue (ha 0 _ _ (.here hwrites (.string s))).1
        | _ =>
          rw [hx] at hvalue
          cases hvalue
      | any =>
        rw [value_any] at hvalue ⊢
        exact framed_of_length hvalue (ha 0 _ _ (.here hwrites (.any _))).1
      | struct t =>
        rw [value_struct] at hvalue ⊢
        obtain ⟨inner, hinner, hvalue⟩ := bind_eq_ok.1 hvalue
        obtain ⟨hlength, hdeeper⟩ := ha 0 _ _ (.here hwrites (.struct hinner))
        obtain ⟨below, rfl⟩ := Nat.exists_eq_add_of_le' (hdeeper t rfl)
        rw [ih hinner fun depth type content hh => ?_, ok_bind]
        · exact framed_of_length hvalue hlength
        · obtain ⟨hlength, hdeeper⟩ := ha _ _ _ (.nested hwrites hh)
          exact ⟨hlength, fun u hu => Nat.lt_of_succ_lt_succ (hdeeper u hu)⟩
      | _ =>
        refine value_unframed ?_ hvalue
        exact Bool.false_ne_true
    | _ => cases h

end Direct

/-! ### Decoding -/

namespace Decode

/-- Bytes stand at a cursor behind their length. -/
def Payload (c : Cursor) (content : List UInt8) : Prop :=
  ∃ length mid after, c.varint = (.ok length, mid) ∧ mid.take length = (.ok content, after)

/-- In reading fields from a cursor on, one of them is read at another cursor. -/
inductive Comes (d : Document) (limits : Limits)
    (nested : StructDef → Cursor → String → Except Fault (Value × Cursor)) (s : StructDef)
    (path : String) : List Field → Cursor → Field → ResolvedType → Cursor → Prop
  | first {f : Field} {rest : List Field} {c : Cursor} {type : ResolvedType}
      (inside : c.atEnd = false) (resolved : d.resolve (some s) f.type = .ok type) :
      Comes d limits nested s path (f :: rest) c f type c
  | later {f g : Field} {rest : List Field} {c mid c' : Cursor} {type type' : ResolvedType}
      {v : Value} (inside : c.atEnd = false) (resolved : d.resolve (some s) f.type = .ok type)
      (read : value limits nested type c (path ++ "." ++ f.name) = .ok (v, mid))
      (h : Comes d limits nested s path rest mid g type' c') :
      Comes d limits nested s path (f :: rest) c g type' c'

/-- In reading a struct bytes are taken from behind their length, so many levels below. -/
inductive Takes (d : Document) (limits : Limits) : (levels : Nat) → StructDef → Cursor → String →
    (depth : Nat) → ResolvedType → List UInt8 → Prop
  | here {levels : Nat} {s : StructDef} {c c' : Cursor} {path : String} {f : Field}
      {type : ResolvedType} {content : List UInt8}
      (comes : Comes d limits (struct d limits levels) s path s.fields c f type c')
      (framed : type.isFramed) (payload : Payload c' content) :
      Takes d limits (levels + 1) s c path 0 type content
  | nested {levels : Nat} {s t : StructDef} {c c' : Cursor} {path : String} {f : Field}
      {depth : Nat} {type : ResolvedType} {content inner : List UInt8}
      (comes : Comes d limits (struct d limits levels) s path s.fields c f (.struct t) c')
      (payload : Payload c' content)
      (h : Takes d limits levels t (.ofBytes content) (path ++ "." ++ f.name) depth type inner) :
      Takes d limits (levels + 1) s c path (depth + 1) type inner

variable {d : Document} {limits more : Limits}
  {nested nested' : StructDef → Cursor → String → Except Fault (Value × Cursor)} {s t : StructDef}
  {path : String} {c c' : Cursor} {type : ResolvedType} {content : List UInt8}

/-- The bytes behind their length are read, and their number has passed the check. -/
theorem payload_eq_ok {read : List UInt8 × Cursor} (h : payload limits c path = .ok read)
    (hp : Payload c content) : read.1 = content ∧ content.length ≤ limits.maxLength.toNat := by
  obtain ⟨length, mid, after, hvarint, htake⟩ := hp
  obtain ⟨hlength, -, -⟩ := take_eq_ok htake
  simp only [payload, varint, hvarint, ok_bind] at h
  split at h
  · cases h
  · next hshort =>
    rw [htake] at h
    obtain rfl := Except.ok.inj h
    exact ⟨rfl, hlength ▸ Nat.not_lt.1 hshort⟩

theorem length_of_value {read : Value × Cursor} (h : value limits nested type c path = .ok read)
    (ht : type.isFramed) (hp : Payload c content) :
    content.length ≤ limits.maxLength.toNat := by
  obtain ⟨_, hpayload⟩ : ∃ bytes, payload limits c path = .ok bytes := by
    cases type with
    | string => exact (bind_eq_ok.1 h).imp fun _ hb => hb.1
    | any => exact (bind_eq_ok.1 h).imp fun _ hb => hb.1
    | struct t => exact (bind_eq_ok.1 h).imp fun _ hb => hb.1
    | _ => cases ht
  exact (payload_eq_ok hpayload hp).2

theorem nested_of_value {read : Value × Cursor}
    (h : value limits nested (.struct t) c path = .ok read) (hp : Payload c content) :
    ∃ inner, nested t (.ofBytes content) path = .ok inner := by
  obtain ⟨_, hpayload, h⟩ := bind_eq_ok.1 h
  obtain ⟨rfl, -⟩ := payload_eq_ok hpayload hp
  obtain ⟨inner, hinner, -⟩ := bind_eq_ok.1 h
  exact ⟨inner, hinner⟩

/-- A field that comes in the run under more generous limits comes in this one too, and is read. -/
theorem Comes.read (hl : limits ≤ more)
    (hn : ∀ s c path, Agrees (nested s c path) (nested' s c path))
    {fs : List Field} {f : Field} (hc : Comes d more nested' s path fs c f type c')
    {members : Table Value} {result : Table Value × Cursor}
    (h : fields d limits nested s path fs members c = .ok result) :
    ∃ read, value limits nested type c' (path ++ "." ++ f.name) = .ok read := by
  induction hc generalizing members with
  | first inside resolved =>
    rw [fields, inside, if_neg Bool.false_ne_true, resolved, ok_bind] at h
    obtain ⟨read, hread, -⟩ := bind_eq_ok.1 h
    exact ⟨read, hread⟩
  | later inside resolved read _ ih =>
    rw [fields, inside, if_neg Bool.false_ne_true, resolved, ok_bind] at h
    obtain ⟨first, hfirst, h⟩ := bind_eq_ok.1 h
    have hsame := (value_agrees hl hn _ _).eq_of_ok hfirst
    obtain rfl := Except.ok.inj (read.symm.trans hsame)
    exact ih h

/-- What decoding within limits takes from behind its length, they admit. -/
theorem admits_of_takes (hl : limits ≤ more) {levels levels' depth : Nat}
    (hlevels : levels ≤ levels') {read : Value × Cursor}
    (h : struct d limits levels s c path = .ok read)
    (ht : Takes d more levels' s c path depth type content) :
    content.length ≤ limits.maxLength.toNat ∧ ∀ t, type = .struct t → depth + 1 < levels := by
  induction ht generalizing levels read with
  | here comes framed payload =>
    cases levels with
    | zero => cases h
    | succ levels =>
      obtain ⟨_, hfields, -⟩ := bind_eq_ok.1 h
      obtain ⟨_, hvalue⟩ :=
        comes.read hl (struct_agrees hl (Nat.le_of_succ_le_succ hlevels)) hfields
      refine ⟨length_of_value hvalue framed payload, ?_⟩
      rintro t rfl
      obtain ⟨_, hinner⟩ := nested_of_value hvalue payload
      cases levels with
      | zero => cases hinner
      | succ levels => omega
  | nested comes payload _ ih =>
    cases levels with
    | zero => cases h
    | succ levels =>
      have hbelow := Nat.le_of_succ_le_succ hlevels
      obtain ⟨_, hfields, -⟩ := bind_eq_ok.1 h
      obtain ⟨_, hvalue⟩ := comes.read hl (struct_agrees hl hbelow) hfields
      obtain ⟨_, hinner⟩ := nested_of_value hvalue payload
      obtain ⟨hlength, hdeeper⟩ := ih hbelow hinner
      exact ⟨hlength, fun t ht => Nat.succ_lt_succ (hdeeper t ht)⟩

end Decode

/-! ### Both -/

namespace Document

variable {limits more : Limits}

/-- Under tighter limits encoding and decoding end as under more generous ones, or at a limit. What
is encoded under the generous ones is encoded, in the same bytes, exactly if the tighter ones admit
all that it has in it, and what is decoded under the tighter ones took nothing else. -/
theorem limits_exact (d : Document) (hl : limits ≤ more) (name : String) :
    (∀ v, Agrees (d.encode limits name v) (d.encode more name v)) ∧
      (∀ bytes offset,
        Agrees (d.decode limits name bytes offset) (d.decode more name bytes offset)) ∧
      (∀ s v bytes, d.struct? name = some s → d.encode more name v = .ok bytes →
        (d.encode limits name v = .ok bytes ↔ limits.AdmitsEncoding d more s v)) ∧
      ∀ s bytes offset v stop, d.struct? name = some s →
        d.decode limits name bytes offset = .ok (v, stop) → ∀ depth type content,
          Decode.Takes d more more.levels s ⟨bytes, offset⟩ name depth type content →
            limits.Admits depth type content := by
  refine ⟨d.encode_agrees hl name, d.decode_agrees hl name, fun s v bytes hs hmore => ?_,
    fun s bytes offset v stop hs h depth type content ht => ?_⟩
  · rw [encode_direct, encodeDirect, hs] at hmore ⊢
    constructor
    · intro h depth type content hh
      obtain ⟨hlength, hdeeper⟩ := Direct.admits_of_struct h hh
      exact ⟨hlength, hdeeper⟩
    · intro ha
      exact Direct.struct_of_admits hmore fun depth type content hh =>
        ⟨(ha depth type content hh).length, (ha depth type content hh).deeper⟩
  · obtain ⟨t, after, ht', hread, -⟩ := decode_eq_ok.1 h
    obtain rfl := Option.some.inj (hs.symm.trans ht')
    obtain ⟨hlength, hdeeper⟩ := Decode.admits_of_takes hl (levels_le hl) hread ht
    exact ⟨hlength, fun t ht => Nat.lt_of_succ_lt_succ (hdeeper t ht)⟩

/-- The nested struct of the sample has five bytes and is one level deep, and the JSON text in it
has four. -/
theorem limits_exact_sample :
    Limits.AdmitsEncoding ⟨1, 5⟩ Sample.document {} Sample.outer Sample.value ∧
      ¬Limits.AdmitsEncoding ⟨1, 4⟩ Sample.document {} Sample.outer Sample.value ∧
      ¬Limits.AdmitsEncoding ⟨0, 5⟩ Sample.document {} Sample.outer Sample.value ∧
      Limits.Admits ⟨0, 4⟩ 0 .any [110, 117, 108, 108] := by
  have hexact (limits : Limits) (hl : limits ≤ {}) := (limits_exact Sample.document hl "S").2.2.1
    Sample.outer Sample.value Sample.bytes Sample.struct?_outer Sample.encode_value
  have hread : (Sample.document.decode ⟨0, 4⟩ "P" [4, 110, 117, 108, 108] 0).toOption.any
      fun _ => true := by
    decide +kernel
  obtain ⟨⟨v, stop⟩, hread, -⟩ := exists_of_any hread
  have htakes : Decode.Takes Sample.document {} ({} : Limits).levels Sample.inner
      ⟨[4, 110, 117, 108, 108], 0⟩ "P" 0 .any [110, 117, 108, 108] :=
    .here (.first rfl rfl) rfl ⟨4, _, _, rfl, rfl⟩
  refine ⟨?_, fun h => ?_, fun h => ?_, ?_⟩
  · exact (hexact ⟨1, 5⟩ ⟨by decide, by decide⟩).1 (by decide +kernel)
  · exact absurd ((hexact ⟨1, 4⟩ ⟨by decide, by decide⟩).2 h) (by decide +kernel)
  · exact absurd ((hexact ⟨0, 5⟩ ⟨by decide, by decide⟩).2 h) (by decide +kernel)
  · exact (limits_exact Sample.document ⟨by decide, by decide⟩ "P").2.2.2 Sample.inner _ 0 v stop
      (by decide) hread 0 .any _ htakes

end Document

end WireSchema
