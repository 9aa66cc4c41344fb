import WireSchema.Proofs.Wire.RoundTrip

/-! Decoding a part of what was encoded, from its start. Cut at the end of a field, the bytes
give the fields up to there; cut inside a field, they give a fault that names the field and
says that bytes are missing. A part is never read as another value. -/

namespace WireSchema

/-- Where a field starts that has `j` fields before it. -/
def boundary (parts : List (Field × List UInt8)) (j : Nat) : Nat :=
  ((parts.take j).flatMap Prod.snd).length

section Boundaries
variable {parts : List (Field × List UInt8)} {j m : Nat}

theorem boundary_length (parts : List (Field × List UInt8)) :
    boundary parts parts.length = (parts.flatMap Prod.snd).length := by
  rw [boundary, List.take_length]

/-- The fields before one, the field itself, and those behind it. -/
theorem flatMap_around (hj : j < parts.length) :
    parts.flatMap Prod.snd =
      (parts.take j).flatMap Prod.snd ++ (parts[j].2 ++ (parts.drop (j + 1)).flatMap Prod.snd) := by
  conv_lhs => rw [← List.take_append_drop j parts, List.drop_eq_getElem_cons hj]
  rw [List.flatMap_append, List.flatMap_cons]

theorem boundary_succ (hj : j < parts.length) :
    boundary parts (j + 1) = boundary parts j + parts[j].2.length := by
  rw [boundary, List.take_succ_eq_append_getElem hj, List.flatMap_append, List.length_append,
    List.flatMap_singleton, boundary]

/-- Every place in the bytes belongs to a field. -/
theorem exists_boundary (hm : m < (parts.flatMap Prod.snd).length) :
    ∃ j < parts.length, boundary parts j ≤ m ∧ m < boundary parts (j + 1) := by
  have hfind : ∀ k ≤ parts.length, m < boundary parts k →
      ∃ j < k, boundary parts j ≤ m ∧ m < boundary parts (j + 1) := by
    intro k
    induction k with
    | zero => exact fun _ h => absurd h (Nat.not_lt_zero m)
    | succ k ih =>
      intro hk h
      by_cases hlow : boundary parts k ≤ m
      · exact ⟨k, Nat.lt_succ_self k, hlow, h⟩
      · obtain ⟨j, hj, hplace⟩ := ih (by omega) (by omega)
        exact ⟨j, by omega, hplace⟩
  exact hfind parts.length (Nat.le_refl _) (boundary_length parts ▸ hm)

theorem take_boundary (hj : j < parts.length) :
    (parts.flatMap Prod.snd).take (boundary parts j) = (parts.take j).flatMap Prod.snd := by
  rw [flatMap_around hj, boundary, List.take_left]

theorem take_inside (hj : j < parts.length) (hlow : boundary parts j < m)
    (hhigh : m < boundary parts (j + 1)) :
    (parts.flatMap Prod.snd).take m =
      (parts.take j).flatMap Prod.snd ++ parts[j].2.take (m - boundary parts j) := by
  rw [boundary_succ hj] at hhigh
  rw [flatMap_around hj, List.take_append, ← boundary,
    List.take_of_length_le (show ((parts.take j).flatMap Prod.snd).length ≤ m from hlow.le),
    List.take_append_of_le_length (by omega)]

end Boundaries

namespace Decode

variable {d : Document} {limits : Limits} {levels : Nat} {s : StructDef} {members : Table Value}
  {path : String} {bytes : List UInt8} {parts : List (Field × List UInt8)}
  {rows : List (String × Value)} {j m : Nat}

/-- The fields of a laid-out struct, from one of them on. -/
theorem Laid.fields_split (h : Laid d limits levels s members path bytes parts rows)
    (hj : j < parts.length) :
    ∃ later, s.fields = (parts.take j).map Prod.fst ++ (parts[j].1 :: later) := by
  obtain ⟨later, hfields⟩ := h.leading
  refine ⟨(parts.drop (j + 1)).map Prod.fst ++ later, ?_⟩
  conv_lhs => rw [hfields, ← List.take_append_drop j parts, List.drop_eq_getElem_cons hj]
  rw [List.map_append, List.map_cons, List.append_assoc, List.cons_append]

theorem Laid.struct_boundary (h : Laid d limits levels s members path bytes parts rows)
    (hj : j < parts.length) :
    struct d limits (levels + 1) s (.ofBytes (bytes.take (boundary parts j))) path =
      .ok (.object (Table.ofList (rows.take j)),
        (Cursor.ofBytes (bytes.take (boundary parts j))).advance (boundary parts j)) := by
  obtain ⟨later, hfields⟩ := h.fields_split hj
  rw [h.whole, take_boundary hj, struct, hfields,
    fields_whole (List.forall₂_take j h.read) (Cursor.ofBytes_at _) _]
  rfl

theorem Laid.struct_inside (h : Laid d limits levels s members path bytes parts rows)
    (hj : j < parts.length) (hlow : boundary parts j < m) (hhigh : m < boundary parts (j + 1)) :
    ∃ needed remaining, struct d limits (levels + 1) s (.ofBytes (bytes.take m)) path =
      .error (.truncated (path ++ "." ++ parts[j].1.name) needed remaining) := by
  obtain ⟨later, hfields⟩ := h.fields_split hj
  have hlength : j < rows.length := h.read.length_eq ▸ hj
  have hfield : ReadsField d limits (struct d limits levels) s path parts[j] rows[j] :=
    h.read.get hj hlength
  have hc := Cursor.ofBytes_at (bytes.take m)
  have htake := take_inside hj hlow hhigh
  rw [← h.whole] at htake
  rw [htake] at hc
  rw [boundary_succ hj] at hhigh
  obtain ⟨needed, remaining, hcut⟩ := fields_cut hfield (m := m - boundary parts j)
    (by omega) (by omega) hc.advance later
  refine ⟨needed, remaining, ?_⟩
  rw [struct, hfields, htake, fields_run (List.forall₂_take j h.read) hc, hcut, Outcome.error_bind]

theorem Laid.names (h : Laid d limits levels s members path bytes parts rows) :
    rows.map Prod.fst = parts.map fun part => part.1.name :=
  names_read h.read

theorem Laid.nonempty (h : Laid d limits levels s members path bytes parts rows)
    (hj : j < parts.length) : boundary parts j < boundary parts (j + 1) := by
  have hfield := h.read.get hj (h.read.length_eq ▸ hj)
  rw [boundary_succ hj]
  exact Nat.lt_add_of_pos_right (List.length_pos_iff.2 hfield.nonempty)

end Decode

namespace Document

variable {text name : String} {d : Document} {limits : Limits} {s : StructDef} {v : Value}
  {bytes : List UInt8}

/-- The first bytes of what was encoded, fewer than all, under the conditions on which all of them
are read back. They end at a boundary between the written fields and are read as the canonical
value of the fields before it, or they end inside a field and are said to lack bytes for it. -/
theorem decode_take (hc : compile text = .ok d) (hs : d.struct? name = some s)
    (he : d.encode limits name v = .ok bytes) (hf : Faithful d s v) :
    ∃ members parts rows, v = .object members ∧
      Direct.parts d limits (Direct.struct d limits limits.maxDepth.toNat) s members name s.fields =
        .ok parts ∧
      bytes = parts.flatMap Prod.snd ∧
      Canonical.rows? d (Canonical.struct? d limits.maxDepth.toNat) s members s.fields =
        some rows ∧
      rows.map Prod.fst = parts.map (fun part => part.1.name) ∧
      (∀ j < parts.length, boundary parts j < boundary parts (j + 1)) ∧
      (∀ m < bytes.length, ∃ j < parts.length,
        boundary parts j ≤ m ∧ m < boundary parts (j + 1)) ∧
      (∀ j < parts.length, d.decode limits name (bytes.take (boundary parts j)) 0 =
        .ok (.object (Table.ofList (rows.take j)), boundary parts j)) ∧
      ∀ j, (hj : j < parts.length) → ∀ m, boundary parts j < m → m < boundary parts (j + 1) →
        ∃ needed remaining, d.decode limits name (bytes.take m) 0 =
          .error (.truncated (name ++ "." ++ parts[j].1.name) needed remaining) := by
  obtain ⟨members, parts, rows, hv, h⟩ := laid_of_encode hc hs he hf
  refine ⟨members, parts, rows, hv, h.written, h.whole, h.canonical, h.names,
    fun j hj => h.nonempty hj, fun m hm => ?_, fun j hj => ?_, fun j hj m hlow hhigh => ?_⟩
  · rw [h.whole] at hm
    exact exists_boundary hm
  · rw [decode_zero hs, Limits.levels, h.struct_boundary hj]
    simp [Cursor.ofBytes, Cursor.advance]
  · obtain ⟨needed, remaining, hcut⟩ := h.struct_inside hj hlow hhigh
    exact ⟨needed, remaining, by rw [decode_zero hs, Limits.levels, hcut, Outcome.map_error]⟩

/-- The sample, cut between its fields. -/
theorem decode_take_sample :
    ∃ (parts : List (Field × List UInt8)) (rows : List (String × Value)),
      Sample.bytes = parts.flatMap Prod.snd ∧ ∀ j < parts.length,
        Sample.document.decode {} "S" (Sample.bytes.take (boundary parts j)) 0 =
          .ok (.object (Table.ofList (rows.take j)), boundary parts j) := by
  obtain ⟨_, parts, rows, -, -, hbytes, -, -, -, -, hcut, -⟩ :=
    decode_take Sample.compile_text Sample.struct?_outer Sample.encode_value Sample.faithful_value
  exact ⟨parts, rows, hbytes, hcut⟩

end Document

end WireSchema
