import WireSchema.Proofs.Wire.Taken

/-! Decoding depends on no other bytes than those it reports as consumed. They are decoded to
the same value behind any other bytes, and before any others too, once every field of the
struct is there: where a field is missing, more bytes would be read as that field. -/

namespace WireSchema

open Outcome

namespace Decode

variable {d : Document} {limits : Limits}
  {nested : StructDef → Cursor → String → Except Fault (Value × Cursor)} {s : StructDef}
  {path : String} {fs : List Field} {c c' after : Cursor} {parts : List (Field × List UInt8)}
  {rows : List (String × Value)}

/-- The pieces alone are read as the same fields. -/
theorem Parted.whole (h : Parted d limits nested s path fs c after parts rows)
    (hc : c'.At (parts.flatMap Prod.snd)) :
    fields d limits nested s path fs .empty c' =
      .ok (Table.ofList rows, c'.advance (parts.flatMap Prod.snd).length) := by
  obtain ⟨later, rest, rfl, -, -⟩ := h.pieces
  exact fields_whole h.read hc later

/-- Where no field is missing, the pieces are read so whatever bytes follow. -/
theorem Parted.followed (h : Parted d limits nested s path fs c after parts rows)
    (hall : fs = parts.map Prod.fst) {rest : List UInt8}
    (hc : c'.At (parts.flatMap Prod.snd ++ rest)) :
    fields d limits nested s path fs .empty c' =
      .ok (Table.ofList rows, c'.advance (parts.flatMap Prod.snd).length) := by
  rw [hall, ← List.append_nil (parts.map Prod.fst), fields_run h.read hc]
  rfl

/-- Fields with different names are all read, if the names of all were found. -/
theorem Parted.all (h : Parted d limits nested s path fs c after parts rows)
    (hd : (fs.map Field.name).Nodup)
    (hfound : ∀ f ∈ fs, (Table.ofList rows).contains f.name) : fs = parts.map Prod.fst := by
  obtain ⟨later, rest, rfl, -, -⟩ := h.pieces
  cases later with
  | nil => exact List.append_nil _
  | cons f more =>
    have hf := hfound f (by simp)
    rw [Table.contains_ofList, h.names] at hf
    rw [List.map_append, List.map_cons, List.nodup_append] at hd
    exact absurd rfl (hd.2.2 f.name hf f.name List.mem_cons_self)

end Decode

/-- The bytes of the sample with its last field, between two others. -/
def Sample.surrounded : List UInt8 := 9 :: Sample.bytes ++ [1, 7]

namespace Document

open Decode

variable {text name : String} {d : Document} {limits : Limits} {bytes : List UInt8}
  {offset stop : Nat} {v : Value}

/-- The bytes from the offset to where decoding stopped give the same value behind any others,
and so they do before any others as well if the value has every field of the struct. -/
theorem decode_consumed (hc : compile text = .ok d) (ho : offset ≤ bytes.length)
    (h : d.decode limits name bytes offset = .ok (v, stop)) :
    offset ≤ stop ∧ stop ≤ bytes.length ∧
      (∀ before, d.decode limits name (before ++ (bytes.drop offset).take (stop - offset))
        before.length = .ok (v, before.length + (stop - offset))) ∧
      ∀ s, d.struct? name = some s → (∀ f ∈ s.fields, (v.get? f.name).isSome) →
        ∀ before behind, d.decode limits name
          (before ++ ((bytes.drop offset).take (stop - offset) ++ behind)) before.length =
            .ok (v, before.length + (stop - offset)) := by
  obtain ⟨s, after, hs, hstruct, rfl⟩ := decode_eq_ok.1 h
  obtain ⟨below, parts, rows, hlevels, hparted, rfl⟩ := exists_parted_struct hstruct
  obtain ⟨later, rest, hfs, hunread, hstop⟩ := hparted.pieces
  have hdrop : bytes.drop offset = parts.flatMap Prod.snd ++ rest := hunread
  have hafter : after.index - offset = (parts.flatMap Prod.snd).length := by
    rw [hparted.after]
    exact Nat.add_sub_cancel_left _ _
  have htake : (bytes.drop offset).take (after.index - offset) = parts.flatMap Prod.snd := by
    rw [hafter, hdrop, List.take_left]
  have hlength := congrArg List.length hdrop
  rw [List.length_drop, List.length_append] at hlength
  have hindex : after.index = offset + (parts.flatMap Prod.snd).length := by
    rw [hparted.after]
    rfl
  -- a cursor behind other bytes stands before the pieces
  have hat (before more : List UInt8) : (⟨before ++ more, before.length⟩ : Cursor).At more :=
    ⟨by simp, List.drop_left⟩
  refine ⟨by omega, by omega, fun before => ?_, fun t ht hfound before behind => ?_⟩
  · rw [htake, hafter, decode_eq_ok]
    refine ⟨s, (⟨before ++ parts.flatMap Prod.snd, before.length⟩ : Cursor).advance
      (parts.flatMap Prod.snd).length, hs, ?_, rfl⟩
    rw [hlevels, struct, hparted.whole (hat before _), ok_bind]
  · obtain rfl : s = t := Option.some.inj (hs.symm.trans ht)
    obtain ⟨hwell, -⟩ := compile_inBounds hc
    have hall := hparted.all (hwell.structs name s hs).2.distinct hfound
    rw [htake, hafter, decode_eq_ok]
    refine ⟨s, (⟨before ++ (parts.flatMap Prod.snd ++ behind), before.length⟩ : Cursor).advance
      (parts.flatMap Prod.snd).length, hs, ?_, rfl⟩
    rw [hlevels, struct, hparted.followed hall (hat before _), ok_bind]

/-- Behind one byte the sample is decoded with all its fields, and so it is in any other place. -/
theorem decode_consumed_sample :
    ∃ v, Sample.document.decode {} "S" Sample.surrounded 1 = .ok (v, 13) ∧
      ∀ before behind, Sample.document.decode {} "S"
        (before ++ ((Sample.bytes ++ [1]) ++ behind)) before.length =
          .ok (v, before.length + 12) := by
  have hread : ∃ v, Sample.document.decode {} "S" Sample.surrounded 1 = .ok (v, 13) ∧
      ∀ f ∈ Sample.outer.fields, (v.get? f.name).isSome := by
    have h : ((Sample.document.decode {} "S" Sample.surrounded 1).toOption.any fun read =>
        read.2 == 13 && Sample.outer.fields.all fun f => (read.1.get? f.name).isSome) := by
      decide +kernel
    obtain ⟨read, hread, h⟩ := exists_of_any h
    simp only [Bool.and_eq_true, beq_iff_eq, List.all_eq_true] at h
    exact ⟨read.1, by rw [hread, ← h.1], h.2⟩
  obtain ⟨v, hv, hfound⟩ := hread
  obtain ⟨-, -, -, hall⟩ := decode_consumed Sample.compile_text (by decide) hv
  exact ⟨v, hv, hall Sample.outer Sample.struct?_outer hfound⟩

end Document

end WireSchema
