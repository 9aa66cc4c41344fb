import WireSchema.Proofs.Json.Scaled
import WireSchema.Proofs.Json.Spelled
import WireSchema.Proofs.Wire.Stable

/-! Floats that are kept by their JSON text. A finite double is always the nearest one to the
decimal that its text spells out. The reader rounds more than once, and gives the double back
where the significand and the power of ten are doubles themselves; elsewhere it may give one of
its neighbours. -/

namespace WireSchema

open Outcome

/-! ### One double -/

theorem Decimal.spelled_nearest (d : Decimal) : d.spelled.nearest = d.nearest := by
  rw [Decimal.spelled]
  split_ifs with hwhole
  · obtain ⟨k, hk⟩ := Int.eq_ofNat_of_zero_le hwhole.1
    refine Format.round_congr _ (pow10_pos _) (pow10_pos _) ?_
    have hzero : (-1 : Int).toNat = 0 := rfl
    have hone : (-(-1) : Int).toNat = 1 := rfl
    simp only [hk, hzero, hone, Int.toNat_natCast, Int.toNat_neg_natCast, pow10_eq]
    ring
  · rfl

namespace Binary64

variable {x : Binary64}

/-- The double nearest to what its text spells out is the double itself. -/
theorem spelled_nearest (hx : x.isFinite) : x.spelled.nearest = x.pattern := by
  rw [spelled]
  split_ifs with hzero
  · rw [hzero]
    decide +kernel
  · rw [Decimal.spelled_nearest]
    exact (Decimal.shortest_fits (Nat.pos_of_ne_zero hzero) (of_decide_eq_true hx)).nearest

theorem ofPattern_pattern (x : Binary64) : ofPattern x.negative x.pattern = x := by
  obtain ⟨bits⟩ := x
  have hlt := bits.toNat_lt
  have hvalue := toNat_ofPattern (Binary64.negative ⟨bits⟩)
    (show Binary64.pattern ⟨bits⟩ < 2 ^ 63 from Nat.mod_lt _ (by decide))
  have hbits : (ofPattern (Binary64.negative ⟨bits⟩) (Binary64.pattern ⟨bits⟩)).bits = bits := by
    refine UInt64.toNat.inj (hvalue.trans ?_)
    by_cases hsign : 2 ^ 63 ≤ bits.toNat
    · simp only [Binary64.negative, Binary64.pattern, pow2_eq, hsign, decide_true, if_true]
      omega
    · simp only [Binary64.negative, Binary64.pattern, pow2_eq, hsign, decide_false,
        Bool.false_eq_true, if_false]
      omega
  exact congrArg Binary64.mk hbits

/-- The reader makes the double again of what its text spells out. -/
def Kept (x : Binary64) : Prop :=
  Json.scaled x.spelled.digits x.spelled.exponent = some x.pattern

instance (x : Binary64) : Decidable x.Kept := inferInstanceAs (Decidable (_ = _))

/-- A double is kept that is written with few digits and a small power of ten. -/
theorem kept_of_short (hx : x.isFinite) (hd : x.spelled.digits < 2 ^ 53)
    (he : x.spelled.exponent.natAbs ≤ 22) : x.Kept := by
  have hnearest := spelled_nearest hx
  have hfinite : x.spelled.nearest < Format.double.infinity := hnearest ▸ of_decide_eq_true hx
  rw [Kept, Json.scaled_exact hd he hfinite, hnearest]

end Binary64

theorem Value.ofJson_float_iff {x : Binary64} (hx : x.isFinite) :
    ofJson (Value.float x).toJson = .ok (.float x) ↔ x.Kept := by
  obtain ⟨hread, hrefused⟩ := ofJson_float hx
  cases h : Json.scaled x.spelled.digits x.spelled.exponent with
  | none =>
    obtain ⟨position, hfault⟩ := hrefused h
    rw [hfault, Binary64.Kept, h]
    exact ⟨nofun, nofun⟩
  | some q =>
    have hq : q < 2 ^ 63 := by
      have hle := Json.scaled_le h
      rw [double_infinity] at hle
      omega
    rw [hread q h, Binary64.Kept, h]
    refine ⟨fun hkept => ?_, fun hkept => ?_⟩
    · have hsame : Binary64.ofPattern x.negative q = x := Value.float.inj (Except.ok.inj hkept)
      rw [← hsame, Binary64.pattern_ofPattern _ hq]
    · rw [Option.some.inj hkept, Binary64.ofPattern_pattern]

/-! ### Fields of JSON -/

namespace Canonical

variable {d : Document} {canonical : StructDef → Value → Option Value} {s : StructDef}
  {members : Table Value} {f : Field} {given : ResolvedType → Value} {type : ResolvedType}

/-- A field that is written has its row. -/
theorem exists_row (hg : Direct.given? members f = some given)
    (ht : d.resolve (some s) f.type = .ok type) {fs : List Field} {rows : List (String × Value)}
    (h : rows? d canonical s members fs = some rows) (hf : f ∈ fs) :
    ∃ w, value? canonical type (given type) = some w ∧ (f.name, w) ∈ rows := by
  induction fs generalizing rows with
  | nil => cases hf
  | cons g more ih =>
    rw [rows?] at h
    obtain rfl | hf := List.mem_cons.1 hf
    · simp only [hg, ht, Option.bind_eq_bind, Option.bind_eq_some_iff, Option.some.injEq] at h
      obtain ⟨_, htype, w, hw, later, -, rfl⟩ := h
      obtain rfl := Option.some.inj htype
      exact ⟨w, hw, List.mem_cons_self⟩
    · cases hgiven : Direct.given? members g with
      | none =>
        rw [hgiven] at h
        exact ih h hf
      | some other =>
        simp only [hgiven, Option.bind_eq_bind, Option.bind_eq_some_iff, Option.some.injEq] at h
        obtain ⟨_, -, _, -, later, hlater, rfl⟩ := h
        obtain ⟨w, hw, hrow⟩ := ih hlater hf
        exact ⟨w, hw, List.mem_cons_of_mem _ hrow⟩

end Canonical

namespace Document

variable {text name : String} {d : Document} {limits : Limits} {s : StructDef} {v x : Value}
  {f : Field} {bytes : List UInt8}

/-- What stands in a field of JSON is decoded to what its own text is read as. -/
theorem decode_encode_any (hc : compile text = .ok d) (hs : d.struct? name = some s)
    (he : d.encode limits name v = .ok bytes) (hv : Faithful d s v) (hf : f ∈ s.fields)
    (ht : f.type = .any) (hx : v.get? f.name = some x) :
    ∃ w u, d.decode limits name bytes 0 = .ok (w, bytes.length) ∧
      Value.ofJson x.toJson = .ok u ∧ w.get? f.name = some u := by
  obtain ⟨members, parts, rows, rfl, hlaid⟩ := laid_of_encode hc hs he hv
  obtain ⟨hwell, -⟩ := compile_inBounds hc
  have hgiven : Direct.given? members f = some fun _ => x := by
    rw [Direct.given?, show members.find? f.name = some x from hx]
  have htype : d.resolve (some s) f.type = .ok .any := by rw [ht]; rfl
  obtain ⟨u, hu, hrow⟩ := Canonical.exists_row hgiven htype hlaid.canonical hf
  refine ⟨.object (Table.ofList rows), u, ?_, toOption_eq_some.1 hu, ?_⟩
  · rw [decode_zero hs, Limits.levels, hlaid.struct_eq]
    simp [Cursor.ofBytes, Cursor.advance]
  · have hnodup := Direct.nodup_canonical (hwell.structs name s hs).2.distinct hlaid.canonical
    exact Table.find?_ofList_of_mem hnodup hrow

/-- A finite double is nearest to the decimal that its text spells out. The text is read as the
double exactly if the reader makes it of that decimal, which is so where the significand has 53
bits and the power of ten is the twenty-second at most. In the same cases a field of JSON that
holds the double is decoded to it. -/
theorem decode_encode_float {x : Binary64} (hx : x.isFinite) :
    x.spelled.nearest = x.pattern ∧
      (Value.ofJson (Value.float x).toJson = .ok (.float x) ↔ x.Kept) ∧
      (x.spelled.digits < 2 ^ 53 → x.spelled.exponent.natAbs ≤ 22 → x.Kept) ∧
      ∀ {text name : String} {d : Document} {limits : Limits} {s : StructDef} {v : Value}
        {f : Field} {bytes : List UInt8}, compile text = .ok d → d.struct? name = some s →
        d.encode limits name v = .ok bytes → Faithful d s v → f ∈ s.fields → f.type = .any →
        v.get? f.name = some (.float x) →
          ∃ w, d.decode limits name bytes 0 = .ok (w, bytes.length) ∧
            (w.get? f.name = some (.float x) ↔ x.Kept) := by
  have hread := Value.ofJson_float_iff hx
  refine ⟨Binary64.spelled_nearest hx, hread, Binary64.kept_of_short hx, ?_⟩
  intro text name d limits s v f bytes hc hs he hv hf ht hget
  obtain ⟨w, u, hdecode, hu, hmember⟩ := decode_encode_any hc hs he hv hf ht hget
  refine ⟨w, hdecode, ?_⟩
  rw [← hread, hu, hmember, Option.some.injEq, Except.ok.injEq]

/-- A struct with a field of JSON. -/
def loose : Document := ⟨Table.ofList [("S", ⟨"S", [⟨"f", .any, none⟩], .empty⟩)], .empty⟩

def tenth : Value := .object (Table.ofList [("f", .float ⟨0x3fb999999999999a⟩)])

/-- One tenth is written with a single digit, and kept. -/
theorem decode_encode_float_tenth :
    Value.ofJson "0.1" = .ok (.float ⟨0x3fb999999999999a⟩) ∧
      ∃ w, loose.decode {} "S" [3, 0x30, 0x2e, 0x31] 0 = .ok (w, 4) ∧
        w.get? "f" = some (.float ⟨0x3fb999999999999a⟩) := by
  have htext : (Value.float ⟨0x3fb999999999999a⟩).toJson = "0.1" := by decide +kernel
  have hcompile : compile "struct S \x7b any f; \x7d" = .ok loose := by decide +kernel
  have hencode : loose.encode {} "S" tenth = .ok [3, 0x30, 0x2e, 0x31] := by decide +kernel
  obtain ⟨-, hread, hshort, hfield⟩ :=
    decode_encode_float (show Binary64.isFinite ⟨0x3fb999999999999a⟩ by decide)
  have hkept := hshort (by decide +kernel) (by decide +kernel)
  have hfaithful : Faithful loose ⟨"S", [⟨"f", .any, none⟩], .empty⟩ tenth :=
    faithful_of_keepsFields (show keepsFields loose 1 _ _ by decide +kernel)
  obtain ⟨w, hdecode, hmember⟩ := hfield hcompile rfl hencode hfaithful List.mem_cons_self rfl rfl
  exact ⟨htext ▸ hread.2 hkept, w, hdecode, hmember.2 hkept⟩

/-- The largest odd integer that is a double is written with a zero after the point, so that its
significand has more than 53 bits, and is read as the double before it. -/
theorem decode_encode_float_odd :
    Binary64.isFinite ⟨0x433fffffffffffff⟩ ∧
      (Value.float ⟨0x433fffffffffffff⟩).toJson = "9007199254740991.0" ∧
      Value.ofJson "9007199254740991.0" = .ok (.float ⟨0x433ffffffffffffe⟩) ∧
      Value.ofJson (Value.float ⟨0x433fffffffffffff⟩).toJson ≠
        .ok (.float ⟨0x433fffffffffffff⟩) := by
  have hfinite : Binary64.isFinite ⟨0x433fffffffffffff⟩ := by decide
  have htext : (Value.float ⟨0x433fffffffffffff⟩).toJson = "9007199254740991.0" := by
    decide +kernel
  have hread : Value.ofJson (Value.float ⟨0x433fffffffffffff⟩).toJson =
      .ok (.float ⟨0x433ffffffffffffe⟩) :=
    (Value.ofJson_float hfinite).1 0x433ffffffffffffe (by decide +kernel)
  have hkept : ¬Binary64.Kept ⟨0x433fffffffffffff⟩ := by decide +kernel
  exact ⟨hfinite, htext, htext ▸ hread, mt (Value.ofJson_float_iff hfinite).1 hkept⟩

end Document

end WireSchema
