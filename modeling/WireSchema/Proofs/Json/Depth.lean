import Mathlib.Data.List.Basic
import Mathlib.Order.MinMax
import WireSchema.Proofs.Json.ReadBack

/-! Values that nest deeper than is read. What comes before an array or object that has no
level left is read, whatever it is, and there the text is refused, so that a value without
floats is kept by its JSON text exactly if it nests no deeper than the reader goes. -/

namespace WireSchema

open Outcome

namespace Json

/-- Reading ends at an array or object that has no level left. -/
def StopsTooDeep {α : Type} (read : Except Failure α) : Prop :=
  ∃ left, read = .error ⟨.tooDeep, left⟩

/-- The text of a value nests too deep for a reader. -/
structure Refuses (item : Reader Value) (v : Value) : Prop where
  head : Visible v
  read : ∀ rest, EndsNumber rest → StopsTooDeep (item (chars v ++ rest))

section Stops
variable {α β : Type} {read : Except Failure α}

theorem StopsTooDeep.bind (h : StopsTooDeep read) (next : α → Except Failure β) :
    StopsTooDeep (read >>= next) := by
  obtain ⟨left, rfl⟩ := h
  exact ⟨left, rfl⟩

theorem StopsTooDeep.map (h : StopsTooDeep read) (f : α → β) : StopsTooDeep (read.map f) := by
  obtain ⟨left, rfl⟩ := h
  exact ⟨left, rfl⟩

end Stops

/-! ### Items and members -/

section Parts
variable {item : Reader Value} {v : Value} {more : List Value} {steps : Nat}

/-- A value that is read, or else refused for its depth. -/
def Settles (item : Reader Value) (v : Value) : Prop := Returns item v ∨ Refuses item v

theorem Settles.head (h : Settles item v) : Visible v := h.elim Returns.head Refuses.head

theorem items_stop (hv : Settles item v) (hmore : ∀ w ∈ more, Settles item w)
    (hs : more.length < steps) (rest : List Char) (hdeep : ∃ w ∈ v :: more, Refuses item w) :
    StopsTooDeep (items item steps (chars v ++ (laterItems more ++ rest))) := by
  induction more generalizing v steps with
  | nil =>
    obtain ⟨steps, rfl⟩ := Nat.exists_eq_succ_of_ne_zero (Nat.ne_zero_of_lt hs)
    obtain ⟨w, hw, hrefuses⟩ := hdeep
    obtain rfl := List.mem_singleton.1 hw
    exact (hrefuses.read _ (endsNumber_laterItems [] rest)).bind _
  | cons w more ih =>
    obtain ⟨steps, rfl⟩ := Nat.exists_eq_succ_of_ne_zero (Nat.ne_zero_of_lt hs)
    rw [List.forall_mem_cons] at hmore
    by_cases hrefuses : Refuses item v
    · exact (hrefuses.read _ (endsNumber_laterItems (w :: more) rest)).bind _
    · have hdeep : ∃ u ∈ w :: more, Refuses item u :=
        (List.exists_mem_cons_iff _ _ _).1 hdeep |>.resolve_left hrefuses
      rw [items_step (hv.resolve_right hrefuses) hmore.1.head]
      exact (ih hmore.1 hmore.2 (Nat.lt_of_succ_lt_succ hs) hdeep).map _

theorem member_stops (h : Refuses item v) (key : String) {rest : List Char}
    (hr : EndsNumber rest) :
    StopsTooDeep (member item (Text.quotedChars key.toList ++ ':' :: (chars v ++ rest))) := by
  rw [Text.quotedChars, List.cons_append, List.append_assoc, List.singleton_append, member,
    string_quoted, ok_bind]
  simp only [skipSpaces_cons (show isSpace ':' = false by decide)]
  exact (h.read rest hr).bind _

theorem members_stop (key : String) {low : Option String} (hv : Settles item v)
    {more : Rows Value low} (hmore : ∀ row ∈ more.toList, Settles item row.2)
    (hs : more.toList.length < steps) (rest : List Char)
    (hdeep : Refuses item v ∨ ∃ row ∈ more.toList, Refuses item row.2) :
    StopsTooDeep (members item steps
      (Text.quotedChars key.toList ++ ':' :: (chars v ++ (laterMembers more ++ rest)))) := by
  induction more generalizing key v steps with
  | nil =>
    obtain ⟨steps, rfl⟩ := Nat.exists_eq_succ_of_ne_zero (Nat.ne_zero_of_lt hs)
    have hrefuses : Refuses item v := hdeep.resolve_right (by simp [Rows.toList])
    exact (member_stops hrefuses key (endsNumber_laterMembers _ rest)).bind _
  | cons next w more after ih =>
    obtain ⟨steps, rfl⟩ := Nat.exists_eq_succ_of_ne_zero (Nat.ne_zero_of_lt hs)
    rw [Rows.toList, List.forall_mem_cons] at hmore
    by_cases hrefuses : Refuses item v
    · exact (member_stops hrefuses key (endsNumber_laterMembers _ rest)).bind _
    · have hdeep : Refuses item w ∨ ∃ row ∈ more.toList, Refuses item row.2 :=
        (List.exists_mem_cons_iff _ _ _).1 (hdeep.resolve_left hrefuses)
      rw [members_step (hv.resolve_right hrefuses)]
      exact (ih next hmore.1 hmore.2 (Nat.lt_of_succ_lt_succ hs) hdeep).map _

theorem valueWith_array_refuses {items : List Value} (h : ∀ v ∈ items, Settles item v)
    (hdeep : ∃ v ∈ items, Refuses item v) : Refuses (valueWith (some item)) (.array items) := by
  cases items with
  | nil => exact absurd hdeep (by simp)
  | cons v more =>
    rw [List.forall_mem_cons] at h
    refine ⟨⟨_, _, rfl, by decide, by decide⟩, fun rest _ => ?_⟩
    rw [chars, List.cons_append, valueWith, skipSpaces_cons (by decide), List.append_assoc]
    simp only [array_items h.1.head]
    exact (items_stop h.1 h.2 (length_lt_items h.1.head more rest) rest hdeep).map _

theorem valueWith_object_refuses {members : Table Value}
    (h : ∀ row ∈ members.toList, Settles item row.2)
    (hdeep : ∃ row ∈ members.toList, Refuses item row.2) :
    Refuses (valueWith (some item)) (.object members) := by
  cases members with
  | nil => exact absurd hdeep (by simp [Rows.toList])
  | cons key v more after =>
    rw [Rows.toList, List.forall_mem_cons] at h
    refine ⟨⟨_, _, rfl, by decide, by decide⟩, fun rest _ => ?_⟩
    rw [chars, List.cons_append, valueWith, skipSpaces_cons (by decide), List.append_assoc,
      List.cons_append, List.append_assoc]
    simp only [object_members]
    refine (members_stop key h.1 h.2 (length_lt_members key v more rest) rest ?_).map _
    exact (List.exists_mem_cons_iff _ _ _).1 hdeep

end Parts

/-! ### Values -/

theorem value_zero_refuses {v : Value} (hd : 0 < v.depth) : Refuses (value 0) v := by
  cases v with
  | array items =>
    cases items <;> exact ⟨⟨_, _, rfl, by decide, by decide⟩, fun _ _ => ⟨_, rfl⟩⟩
  | object members =>
    cases members <;> exact ⟨⟨_, _, rfl, by decide, by decide⟩, fun _ _ => ⟨_, rfl⟩⟩
  | _ => exact absurd hd (Nat.lt_irrefl 0)

theorem exists_deep_item {items : List Value} {levels : Nat} (h : levels < itemsDepth items) :
    ∃ v ∈ items, levels < v.depth := by
  induction items with
  | nil => exact absurd h (Nat.not_lt_zero _)
  | cons v more ih =>
    rw [itemsDepth, lt_max_iff] at h
    rw [List.exists_mem_cons_iff]
    exact h.imp_right ih

theorem exists_deep_member {low : Option String} {members : Rows Value low} {levels : Nat}
    (h : levels < membersDepth members) : ∃ row ∈ members.toList, levels < row.2.depth := by
  induction members with
  | nil => exact absurd h (Nat.not_lt_zero _)
  | cons key v more after ih =>
    rw [membersDepth, lt_max_iff] at h
    rw [Rows.toList, List.exists_mem_cons_iff]
    exact h.imp_right ih

mutual

/-- A value without floats that has more arrays and objects in one another than there are levels
is refused. -/
theorem value_refuses : ∀ (v : Value) {levels : Nat}, v.floatFree → levels < v.depth →
    Refuses (value levels) v
  | _, 0, _, hd => value_zero_refuses hd
  | .array items, _ + 1, hf, hd =>
    have hdeep := exists_deep_item (Nat.lt_of_succ_lt_succ hd)
    valueWith_array_refuses (fun v hv => (items_settle items hf v hv).1)
      (hdeep.imp fun v hv => ⟨hv.1, (items_settle items hf v hv.1).2 hv.2⟩)
  | .object members, _ + 1, hf, hd =>
    have hdeep := exists_deep_member (Nat.lt_of_succ_lt_succ hd)
    valueWith_object_refuses (fun row hrow => (members_settle members hf row hrow).1)
      (hdeep.imp fun row hrow => ⟨hrow.1, (members_settle members hf row hrow.1).2 hrow.2⟩)

theorem items_settle : ∀ (items : List Value) {levels : Nat}, itemsFloatFree items →
    ∀ v ∈ items, Settles (value levels) v ∧ (levels < v.depth → Refuses (value levels) v)
  | [], _, _ => fun _ hv => nomatch hv
  | v :: more, levels, hf => by
    simp only [itemsFloatFree, Bool.and_eq_true] at hf
    rw [List.forall_mem_cons]
    refine ⟨⟨?_, value_refuses v hf.1⟩, items_settle more hf.2⟩
    exact (Nat.lt_or_ge levels v.depth).symm.imp (value_chars v hf.1) (value_refuses v hf.1)

theorem members_settle {low : Option String} : ∀ (members : Rows Value low) {levels : Nat},
    membersFloatFree members → ∀ row ∈ members.toList,
      Settles (value levels) row.2 ∧ (levels < row.2.depth → Refuses (value levels) row.2)
  | .nil, _, _ => fun _ hv => nomatch hv
  | .cons key v more after, levels, hf => by
    simp only [membersFloatFree, Bool.and_eq_true] at hf
    rw [Rows.toList, List.forall_mem_cons]
    refine ⟨⟨?_, value_refuses v hf.1⟩, members_settle more hf.2⟩
    exact (Nat.lt_or_ge levels v.depth).symm.imp (value_chars v hf.1) (value_refuses v hf.1)

end

end Json

namespace Value

theorem ofJson_tooDeep {v : Value} (hf : v.floatFree) (hd : Json.maxDepth < v.depth) :
    ∃ position, ofJson v.toJson = .error ⟨.tooDeep, position⟩ := by
  obtain ⟨left, h⟩ := (Json.value_refuses v hf hd).read [] nofun
  rw [List.append_nil] at h
  rw [ofJson, toJson, String.toList_ofList, Json.parse, Json.document, h]
  exact ⟨_, rfl⟩

/-- The JSON text of a value without floats is read exactly if at most 127 arrays and objects are
in one another, and then as the same value. Else it is refused for its depth. -/
theorem ofJson_toJson_iff {v : Value} (hf : v.floatFree) :
    ((∃ w, ofJson v.toJson = .ok w) ↔ v.depth ≤ 127) ∧
      (∀ w, ofJson v.toJson = .ok w → w = v) ∧
      (127 < v.depth → ∃ position, ofJson v.toJson = .error ⟨.tooDeep, position⟩) := by
  obtain hd | hd := Nat.lt_or_ge Json.maxDepth v.depth
  · obtain ⟨position, h⟩ := ofJson_tooDeep hf hd
    rw [h]
    refine ⟨⟨nofun, fun hle => absurd hd (Nat.not_lt.2 hle)⟩, nofun, fun _ => ⟨position, rfl⟩⟩
  · rw [ofJson_toJson hf hd]
    refine ⟨⟨fun _ => hd, fun _ => ⟨v, rfl⟩⟩, fun w hw => (Except.ok.inj hw).symm, ?_⟩
    exact fun hdeep => absurd hdeep (Nat.not_lt.2 hd)

/-- A value in so many arrays, one in another. -/
def boxed : Nat → Value → Value
  | 0, v => v
  | n + 1, v => .array [boxed n v]

theorem floatFree_boxed {v : Value} (hf : v.floatFree) (n : Nat) : (boxed n v).floatFree := by
  induction n with
  | zero => exact hf
  | succ n ih => simp [boxed, floatFree, itemsFloatFree, ih]

theorem depth_boxed (n : Nat) (v : Value) : (boxed n v).depth = n + v.depth := by
  induction n with
  | zero => simp [boxed]
  | succ n ih => simp [boxed, depth, itemsDepth, ih]; omega

/-- An object of depth two, with characters that are escaped and the least integer. -/
def escapes : Value :=
  .object (Table.ofList
    [("\"", .int Int64.minValue), ("é\n", .string "\\\x00😀"), ("", .object .nil)])

/-- The object in 125 arrays, and in one more. -/
theorem ofJson_toJson_iff_boxed :
    (∃ w, ofJson (boxed 125 escapes).toJson = .ok w ∧ w = boxed 125 escapes) ∧
      ∃ position, ofJson (boxed 126 escapes).toJson = .error ⟨.tooDeep, position⟩ := by
  have hf : escapes.floatFree := by decide
  have hdepth : escapes.depth = 2 := by decide
  have hread := ofJson_toJson_iff (floatFree_boxed hf 125)
  have hrefused := ofJson_toJson_iff (floatFree_boxed hf 126)
  rw [depth_boxed, hdepth] at hread hrefused
  obtain ⟨w, hw⟩ := hread.1.2 (by decide)
  exact ⟨⟨w, hw, hread.2.1 w hw⟩, hrefused.2.2 (by decide)⟩

end Value

end WireSchema
