import Mathlib.Data.List.Nodup
import WireSchema.Proofs.Json.ReadBack
import WireSchema.Proofs.Number.Rounding
import WireSchema.Proofs.Wire.RoundTrip

/-! Encoding again what was read back. The value that is read back is another one than the
value that was written: defaults stand in it, unknown members are gone, and each number,
code and JSON text has its one form. Of each such form the bytes are the same as before, so
after one round the bytes do not change any more. -/

namespace WireSchema

open Outcome

/-! ### Stable values -/

/-- The form that is read back for a value is written as the value was: JSON without floats comes
back as it is, and the name of a code, which may be that of another member, gives the code. -/
def settles : ResolvedType → Value → Bool
  | .any, v => v.floatFree && decide (v.depth ≤ Json.maxDepth)
  | .enum e, v => (Encode.code? e v).all fun code => (e.name? code).bind e.code? == some code
  | _, _ => true

/-- At every level the written fields come first, and what is written keeps its bytes. -/
structure Stable (d : Document) (s : StructDef) (v : Value) : Prop where
  leading : ∀ t w, Enters d s v t w → ∀ members, w.object? = some members → Leading t members
  settled : ∀ t w f type x, Enters d s v t w → Writes d t w f type x → settles type x

section Stable
variable {d : Document} {s t : StructDef} {v w : Value} {f : Field}
  {p : ResolvedType → Value → Bool} {levels : Nat}

theorem Stable.below (h : Stable d s v) (hw : Writes d s v f (.struct t) w) : Stable d t w :=
  ⟨fun u x he => h.leading u x (.field hw he),
    fun u x g type y he => h.settled u x g type y (.field hw he)⟩

theorem ofJson_of_settles (h : settles .any v) : Value.ofJson v.toJson = .ok v := by
  simp only [settles, Bool.and_eq_true, decide_eq_true_eq] at h
  exact Value.ofJson_toJson h.1 h.2

theorem Stable.faithful (h : Stable d s v) : Faithful d s v :=
  ⟨h.leading, fun t w f x he hx => ⟨x, ofJson_of_settles (h.settled t w f .any x he hx)⟩⟩

/-- Looks through the levels at all that is written. -/
def everyWritten (d : Document) (p : ResolvedType → Value → Bool) :
    (levels : Nat) → StructDef → Value → Bool
  | 0, _, _ => false
  | levels + 1, s, v =>
    match v.object? with
    | none => true
    | some members =>
      s.fields.all fun f =>
        match Direct.given? members f, d.resolve (some s) f.type with
        | some given, .ok (.struct t) =>
          p (.struct t) (given (.struct t)) && everyWritten d p levels t (given (.struct t))
        | some given, .ok type => p type (given type)
        | _, _ => true

theorem everyWritten_field (h : everyWritten d p (levels + 1) s v) {type : ResolvedType}
    (hw : Writes d s v f type w) :
    p type w ∧ ∀ t, type = .struct t → everyWritten d p levels t w := by
  obtain ⟨members, given, hv, hgiven, rfl⟩ := hw.given
  simp only [everyWritten, hv, List.all_eq_true] at h
  have hf := h f hw.declared
  rw [hgiven, hw.resolved] at hf
  cases type with
  | struct t =>
    rw [Bool.and_eq_true] at hf
    exact ⟨hf.1, fun _ ht => ResolvedType.struct.inj ht ▸ hf.2⟩
  | _ => exact ⟨hf, nofun⟩

/-- What passes the look through the levels holds of all that is written at any of them. -/
theorem everyWritten_sound (h : everyWritten d p levels s v) (he : Enters d s v t w)
    {type : ResolvedType} {x : Value} (hx : Writes d t w f type x) : p type x := by
  induction he generalizing levels with
  | here =>
    cases levels with
    | zero => cases h
    | succ levels => exact (everyWritten_field h hx).1
  | field hw _ ih =>
    cases levels with
    | zero => cases h
    | succ levels => exact ih ((everyWritten_field h hw).2 _ rfl) hx

end Stable

/-! ### Canonical values -/

namespace Direct

variable {d : Document} {limits : Limits}
  {direct : StructDef → Value → String → Except Fault (List UInt8)}
  {canonical : StructDef → Value → Option Value} {s : StructDef} {members : Table Value}
  {path : String}

/-- The bytes of a struct are also those of its canonical value. -/
def Restores (d : Document) (direct : StructDef → Value → String → Except Fault (List UInt8))
    (canonical : StructDef → Value → Option Value) : Prop :=
  ∀ name t v w path bytes, d.struct? name = some t → Stable d t v → canonical t v = some w →
    direct t v path = .ok bytes → w.object?.isSome ∧ direct t w path = .ok bytes

/-- What a value of a type has to satisfy for its canonical form to be written as it is. -/
def Keeps (d : Document) : ResolvedType → Value → Prop
  | .struct t, v => (∃ name, d.struct? name = some t) ∧ Stable d t v
  | type, v => settles type v

/-- The canonical form of a value is accepted, and its bytes are those of the value. -/
theorem value_canonical (hn : Restores d direct canonical) {type : ResolvedType} {v w : Value}
    {bytes : List UInt8} (hk : Keeps d type v) (ha : type.accepts v)
    (hw : Canonical.value? canonical type v = some w)
    (h : value limits direct type v path = .ok bytes) :
    type.accepts w ∧ value limits direct type w path = .ok bytes := by
  cases type with
  | bool =>
    cases v with
    | bool b => exact Option.some.inj hw ▸ ⟨ha, h⟩
    | _ => cases h
  | string =>
    cases v with
    | string s => exact Option.some.inj hw ▸ ⟨ha, h⟩
    | _ => cases h
  | int kind bounds =>
    obtain ⟨n, hint, rfl⟩ := Option.map_eq_some_iff.1 hw
    simp only [ResolvedType.accepts, value, hint] at ha h
    exact ⟨ha, h⟩
  | float32 =>
    obtain ⟨x, hx, rfl⟩ := Option.map_eq_some_iff.1 hw
    simp only [value, hx] at h
    refine ⟨rfl, ?_⟩
    simp only [value, Value.float?, Binary64.narrow_widen_narrow, h]
  | float64 =>
    obtain ⟨x, hx, rfl⟩ := Option.map_eq_some_iff.1 hw
    simp only [value, hx] at h
    exact ⟨rfl, h⟩
  | any =>
    rw [Canonical.value?, ofJson_of_settles hk] at hw
    exact Option.some.inj hw ▸ ⟨ha, h⟩
  | enum e =>
    obtain ⟨name, hname, rfl⟩ := Option.map_eq_some_iff.1 hw
    obtain ⟨code, hcode, hname⟩ := Option.bind_eq_some_iff.1 hname
    have hback : e.code? name = some code := by
      have hsettles : settles (.enum e) v := hk
      simpa [settles, hcode, hname] using hsettles
    rw [value_enum, hcode] at h
    exact ⟨by simp [ResolvedType.accepts, hback], by rw [value_enum, Encode.code?, hback, h]⟩
  | struct t =>
    rw [value_struct] at h ⊢
    obtain ⟨inner, hinner, h⟩ := bind_eq_ok.1 h
    obtain ⟨⟨name, ht⟩, hstable⟩ := hk
    obtain ⟨hobject, hsame⟩ := hn name t v w path inner ht hstable hw hinner
    exact ⟨hobject, by rw [hsame, ok_bind, h]⟩

/-- The canonical rows are those of the fields that are written. -/
theorem names_canonical {fs : List Field} {rows : List (String × Value)}
    (h : Canonical.rows? d canonical s members fs = some rows) :
    rows.map Prod.fst = (fs.filter (written members)).map Field.name := by
  induction fs generalizing rows with
  | nil => rw [← Option.some.inj h]; rfl
  | cons f more ih =>
    rw [Canonical.rows?] at h
    cases hg : given? members f with
    | none =>
      rw [hg] at h
      rw [ih h, List.filter_cons_of_neg (by simp [written, hg])]
    | some given =>
      simp only [hg, Option.bind_eq_bind, Option.bind_eq_some_iff, Option.some.injEq] at h
      obtain ⟨type, -, w, -, later, hlater, rfl⟩ := h
      rw [List.map_cons, ih hlater, List.filter_cons_of_pos (by simp [written, hg]), List.map_cons]

theorem nodup_canonical (hd : (s.fields.map Field.name).Nodup) {rows : List (String × Value)}
    (h : Canonical.rows? d canonical s members s.fields = some rows) :
    (rows.map Prod.fst).Nodup := by
  rw [names_canonical h]
  exact hd.sublist (List.filter_sublist.map _)

/-- A table that has the canonical rows, and nothing for a field that is left out, gives every
field the bytes that it had. -/
theorem parts_canonical (hn : Restores d direct canonical)
    (hk : ∀ f type x, Writes d s (.object members) f type x → Keeps d type x) {found : Table Value}
    {fs : List Field} {rows : List (String × Value)} {ps : List (Field × List UInt8)}
    (hfs : ∀ f ∈ fs, f ∈ s.fields)
    (hthere : ∀ row ∈ rows, found.find? row.1 = some row.2)
    (hgone : ∀ f ∈ fs, given? members f = none → found.find? f.name = none)
    (hrows : Canonical.rows? d canonical s members fs = some rows)
    (h : parts d limits direct s members path fs = .ok ps) :
    parts d limits direct s found path fs = .ok ps := by
  induction fs generalizing rows ps with
  | nil => exact h
  | cons f more ih =>
    rw [List.forall_mem_cons] at hfs hgone
    rw [Canonical.rows?] at hrows
    obtain ⟨hnone, hmore⟩ |
      ⟨given, type, bytes, later, hgiven, htype, hvalid, hbytes, hmore, rfl⟩ := parts_cons h
    · rw [hnone] at hrows
      have hdefault : f.default = none := by
        unfold given? at hnone
        split at hnone <;> first | assumption | cases hnone
      have hfound : given? found f = none := by simp only [given?, hgone.1 hnone, hdefault]
      rw [parts_cons_absent hfound]
      exact ih hfs.2 hthere hgone.2 hrows hmore
    · simp only [hgiven, Option.bind_eq_bind, Option.bind_eq_some_iff, Option.some.injEq] at hrows
      obtain ⟨type', htype', w, hw, rest, hrest, rfl⟩ := hrows
      obtain rfl : type = type' := by
        rw [htype] at htype'
        exact Option.some.inj htype'
      rw [List.forall_mem_cons] at hthere
      have hfound : given? found f = some fun _ => w := by simp only [given?, hthere.1]
      have hwrites : Writes d s (.object members) f type (given type) :=
        ⟨hfs.1, htype, members, given, rfl, hgiven, rfl⟩
      obtain ⟨haccepts, hsame⟩ := value_canonical hn (hk f type _ hwrites)
        (ResolvedType.accepts_of_validate hvalid) hw hbytes
      rw [parts_cons_given hfound htype, ResolvedType.validate, if_pos haccepts, ok_bind, hsame,
        ok_bind, ih hfs.2 hthere.2 hgone.2 hrest hmore, map_ok]

theorem keeps_of_writes {v x : Value} {f : Field} {type : ResolvedType} (h : Stable d s v)
    (hw : Writes d s v f type x) : Keeps d type x := by
  cases type with
  | struct t => exact ⟨d.struct?_of_resolve hw.resolved, h.below hw⟩
  | _ => exact h.settled s v f _ x .here hw

/-- At every level the canonical value of a struct has the bytes that the struct has. -/
theorem struct_restores (hd : d.WellFormed) (levels : Nat) :
    Restores d (struct d limits levels) (Canonical.struct? d levels) := by
  induction levels with
  | zero => intro name t v w path bytes _ _ _ h; cases h
  | succ levels ih =>
    intro name t v w path bytes ht hstable hw h
    cases v with
    | object members =>
      obtain ⟨ps, hps, rfl⟩ := map_eq_ok.1 h
      simp only [Canonical.struct?, Value.object?, Option.bind_eq_bind, Option.bind_eq_some_iff,
        Option.some.injEq] at hw
      obtain ⟨_, rfl, rows, hrows, rfl⟩ := hw
      have hnames := names_canonical hrows
      have hdistinct := (hd.structs name t ht).2.distinct
      have hnodup := nodup_canonical hdistinct hrows
      refine ⟨rfl, ?_⟩
      rw [struct, parts_canonical ih (fun f type x => keeps_of_writes hstable) (fun _ hf => hf)
        (fun row => Table.find?_ofList_of_mem hnodup) ?_ hrows hps, map_ok]
      intro f hf hnone
      refine Table.find?_ofList_eq_none fun hmem => ?_
      rw [hnames] at hmem
      obtain ⟨g, hg, hsame⟩ := List.mem_map.1 hmem
      obtain ⟨hg, hwritten⟩ := List.mem_filter.1 hg
      obtain rfl := List.inj_on_of_nodup_map hdistinct hg hf hsame
      rw [written, hnone] at hwritten
      cases hwritten
    | _ => cases h

end Direct

namespace Document

variable {text name : String} {d : Document} {limits : Limits} {s : StructDef} {v : Value}
  {bytes : List UInt8}

/-- What is encoded from a stable value is decoded whole, and what it is decoded to is encoded
under the same limits in the same bytes. -/
theorem encode_decode_encode (hc : compile text = .ok d) (hs : d.struct? name = some s)
    (he : d.encode limits name v = .ok bytes) (hv : Stable d s v) :
    ∃ w, d.decode limits name bytes 0 = .ok (w, bytes.length) ∧
      d.encode limits name w = .ok bytes := by
  obtain ⟨members, parts, rows, rfl, hlaid⟩ := laid_of_encode hc hs he hv.faithful
  obtain ⟨hwell, -⟩ := compile_inBounds hc
  refine ⟨.object (Table.ofList rows), ?_, ?_⟩
  · rw [decode_zero hs, Limits.levels, hlaid.struct_eq]
    simp [Cursor.ofBytes, Cursor.advance]
  · rw [encode_direct, encodeDirect, hs] at he ⊢
    exact (Direct.struct_restores hwell _ name s _ _ name bytes hs hv hlaid.canonical_eq he).2

/-- The sample, where a name stands for a code and a default for a missing field. -/
theorem encode_decode_encode_sample :
    ∃ w, Sample.document.decode {} "S" Sample.bytes 0 = .ok (w, 11) ∧
      Sample.document.encode {} "S" w = .ok Sample.bytes := by
  have hsettled : everyWritten Sample.document settles 2 Sample.outer Sample.value := by
    decide +kernel
  exact encode_decode_encode Sample.compile_text Sample.struct?_outer Sample.encode_value
    ⟨Sample.faithful_value.leading,
      fun _ _ _ _ _ he hw => everyWritten_sound hsettled he hw⟩

end Document

end WireSchema
