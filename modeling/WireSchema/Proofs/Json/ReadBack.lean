import WireSchema.Proofs.Json.Scalar
import WireSchema.Proofs.Table

/-! Values without floats, read as they are written. Arrays and objects are read item by item
and member by member, and one more level is open to what is in them, so that a value is read
back if it nests no deeper than the reader goes. -/

namespace WireSchema

open Outcome

/-! ### Values without floats -/

mutual

/-- No float is in the value. -/
def Value.floatFree : Value → Bool
  | .float _ => false
  | .array items => itemsFloatFree items
  | .object members => membersFloatFree members
  | _ => true

def itemsFloatFree : List Value → Bool
  | [] => true
  | item :: more => item.floatFree && itemsFloatFree more

def membersFloatFree {low : Option String} : Rows Value low → Bool
  | .nil => true
  | .cons _ value rest _ => value.floatFree && membersFloatFree rest

end

mutual

/-- How many arrays and objects are in one another, the value itself included. -/
def Value.depth : Value → Nat
  | .array items => itemsDepth items + 1
  | .object members => membersDepth members + 1
  | _ => 0

def itemsDepth : List Value → Nat
  | [] => 0
  | item :: more => max item.depth (itemsDepth more)

def membersDepth {low : Option String} : Rows Value low → Nat
  | .nil => 0
  | .cons _ value rest _ => max value.depth (membersDepth rest)

end

namespace Json

/-! ### Items and members -/

/-- The text of a value cannot be taken for white space or for the end of an array. -/
def Visible (v : Value) : Prop := ∃ c more, chars v = c :: more ∧ isSpace c = false ∧ c ≠ ']'

/-- A value is read back from its text. -/
structure Returns (item : Reader Value) (v : Value) : Prop where
  head : Visible v
  read : ∀ rest, EndsNumber rest → item (chars v ++ rest) = .ok (v, rest)

theorem skipSpaces_cons {c : Char} (hc : isSpace c = false) (rest : List Char) :
    skipSpaces (c :: rest) = c :: rest :=
  List.dropWhile_cons_of_neg (by simp [hc])

theorem endsNumber_cons {c : Char} (rest : List Char)
    (hc : c.isDigit = false ∧ c ≠ '.' ∧ c ≠ 'e' ∧ c ≠ 'E') : EndsNumber (c :: rest) := by
  rintro d ⟨⟩
  exact hc

theorem endsNumber_laterItems (more : List Value) (rest : List Char) :
    EndsNumber (laterItems more ++ rest) := by
  cases more <;> exact endsNumber_cons _ (by decide)

theorem endsNumber_laterMembers {low : Option String} (more : Rows Value low) (rest : List Char) :
    EndsNumber (laterMembers more ++ rest) := by
  cases more <;> exact endsNumber_cons _ (by decide)

theorem length_le_laterItems (more : List Value) : more.length ≤ (laterItems more).length := by
  induction more with
  | nil => simp
  | cons v more ih => simp [laterItems]; omega

section Parts
variable {item : Reader Value} {v : Value} {more : List Value} {steps : Nat} {key : String}

/-- An item that is read and has another behind it is put before what is read from there on. -/
theorem items_step {w : Value} (hv : Returns item v) (hw : Visible w) (steps : Nat)
    (rest : List Char) :
    items item (steps + 1) (chars v ++ (laterItems (w :: more) ++ rest)) =
      (items item steps (chars w ++ (laterItems more ++ rest))).map
        fun read => (v :: read.1, read.2) := by
  obtain ⟨c, text, hchars, hspace, hclose⟩ := hw
  rw [items, hv.read _ (endsNumber_laterItems (w :: more) rest), ok_bind]
  simp only [laterItems, List.cons_append, List.append_assoc]
  rw [skipSpaces_cons (by decide)]
  simp only [hchars, List.cons_append]
  rw [skipSpaces_cons hspace]
  split
  · next h => cases h
  · next h => exact absurd (List.cons.inj h).1 hclose
  · generalize items item steps _ = read
    cases read <;> rfl

theorem items_chars (hv : Returns item v) (hmore : ∀ w ∈ more, Returns item w)
    (hs : more.length < steps) (rest : List Char) :
    items item steps (chars v ++ (laterItems more ++ rest)) = .ok (v :: more, rest) := by
  induction more generalizing v steps with
  | nil =>
    obtain ⟨steps, rfl⟩ := Nat.exists_eq_succ_of_ne_zero (Nat.ne_zero_of_lt hs)
    rw [items, hv.read _ (endsNumber_laterItems [] rest), ok_bind]
    rfl
  | cons w more ih =>
    obtain ⟨steps, rfl⟩ := Nat.exists_eq_succ_of_ne_zero (Nat.ne_zero_of_lt hs)
    rw [List.forall_mem_cons] at hmore
    rw [items_step hv hmore.1.head, ih hmore.1 hmore.2 (Nat.lt_of_succ_lt_succ hs), map_ok]

/-- An array with an item in it is read as its items are. -/
theorem array_items (hv : Visible v) (more : List Value) (rest : List Char) :
    array item (chars v ++ (laterItems more ++ rest)) =
      (items item (chars v ++ (laterItems more ++ rest)).length
        (chars v ++ (laterItems more ++ rest))).map fun read => (.array read.1, read.2) := by
  obtain ⟨c, text, hchars, hspace, hclose⟩ := hv
  unfold array
  rw [hchars, List.cons_append, skipSpaces_cons hspace]
  split
  · next h => cases h
  · next h => exact absurd (List.cons.inj h).1 hclose
  · generalize items item _ _ = read
    cases read <;> rfl

/-- There are steps enough for the items of an array. -/
theorem length_lt_items (hv : Visible v) (more : List Value) (rest : List Char) :
    more.length < (chars v ++ (laterItems more ++ rest)).length := by
  obtain ⟨c, text, hchars, -⟩ := hv
  have hlength := length_le_laterItems more
  simp only [hchars, List.cons_append, List.length_cons, List.length_append]
  omega

theorem array_chars (hv : Returns item v) (hmore : ∀ w ∈ more, Returns item w)
    (rest : List Char) :
    array item (chars v ++ (laterItems more ++ rest)) = .ok (.array (v :: more), rest) := by
  rw [array_items hv.head, items_chars hv hmore (length_lt_items hv.head more rest), map_ok]

theorem member_chars (hv : Returns item v) {rest : List Char} (hr : EndsNumber rest) :
    member item (Text.quotedChars key.toList ++ ':' :: (chars v ++ rest)) =
      .ok ((key, v), rest) := by
  rw [Text.quotedChars, List.cons_append, List.append_assoc, List.singleton_append, member,
    string_quoted, ok_bind]
  simp only [skipSpaces_cons (show isSpace ':' = false by decide), hv.read rest hr, ok_bind]

/-- A member that is read and has another behind it is put before what is read from there on. -/
theorem members_step {low : Option String} (hv : Returns item v) (next : String) (w : Value)
    (more : Rows Value (some next)) (after : After low next) (steps : Nat) (rest : List Char) :
    members item (steps + 1) (Text.quotedChars key.toList ++
        ':' :: (chars v ++ (laterMembers (.cons next w more after) ++ rest))) =
      (members item steps (Text.quotedChars next.toList ++
        ':' :: (chars w ++ (laterMembers more ++ rest)))).map
          fun read => ((key, v) :: read.1, read.2) := by
  rw [members, member_chars hv (endsNumber_laterMembers _ rest), ok_bind]
  simp only [laterMembers, List.cons_append, List.append_assoc]
  rw [skipSpaces_cons (by decide)]
  simp only [Text.quotedChars, List.cons_append]
  rw [skipSpaces_cons (by decide)]
  split
  · next h => cases h
  · next h => exact absurd (List.cons.inj h).1 (by decide)
  · generalize members item steps _ = read
    cases read <;> rfl

theorem members_chars (key : String) {low : Option String} (hv : Returns item v)
    {more : Rows Value low}
    (hmore : ∀ row ∈ more.toList, Returns item row.2) (hs : more.toList.length < steps)
    (rest : List Char) :
    members item steps
        (Text.quotedChars key.toList ++ ':' :: (chars v ++ (laterMembers more ++ rest))) =
      .ok ((key, v) :: more.toList, rest) := by
  induction more generalizing key v steps with
  | nil =>
    obtain ⟨steps, rfl⟩ := Nat.exists_eq_succ_of_ne_zero (Nat.ne_zero_of_lt hs)
    rw [members, member_chars hv (endsNumber_laterMembers _ rest), ok_bind]
    rfl
  | cons next w more after ih =>
    obtain ⟨steps, rfl⟩ := Nat.exists_eq_succ_of_ne_zero (Nat.ne_zero_of_lt hs)
    rw [Rows.toList, List.forall_mem_cons] at hmore
    rw [members_step hv, ih next hmore.1 hmore.2 (Nat.lt_of_succ_lt_succ hs), map_ok, Rows.toList]

theorem length_le_laterMembers {low : Option String} (more : Rows Value low) :
    more.toList.length ≤ (laterMembers more).length := by
  induction more with
  | nil => simp [Rows.toList]
  | cons key v more after ih => simp [Rows.toList, laterMembers]; omega

/-- An object with a member in it is read as its members are. -/
theorem object_members (key : String) (v : Value) {low : Option String} (more : Rows Value low)
    (rest : List Char) :
    object item (Text.quotedChars key.toList ++ ':' :: (chars v ++ (laterMembers more ++ rest))) =
      (members item (Text.quotedChars key.toList ++
        ':' :: (chars v ++ (laterMembers more ++ rest))).length (Text.quotedChars key.toList ++
          ':' :: (chars v ++ (laterMembers more ++ rest)))).map
            fun read => (.object (Table.ofList read.1), read.2) := by
  unfold object
  rw [Text.quotedChars, List.cons_append, skipSpaces_cons (by decide)]
  split
  · next h => cases h
  · next h => exact absurd (List.cons.inj h).1 (by decide)
  · generalize members item _ _ = read
    cases read <;> rfl

/-- There are steps enough for the members of an object. -/
theorem length_lt_members (key : String) (v : Value) {low : Option String} (more : Rows Value low)
    (rest : List Char) :
    more.toList.length < (Text.quotedChars key.toList ++
      ':' :: (chars v ++ (laterMembers more ++ rest))).length := by
  have hlength := length_le_laterMembers more
  simp only [List.length_append, List.length_cons]
  omega

theorem object_chars (hv : Returns item v) {more : Rows Value (some key)}
    (hmore : ∀ row ∈ more.toList, Returns item row.2) (after : After none key)
    (rest : List Char) :
    object item (Text.quotedChars key.toList ++ ':' :: (chars v ++ (laterMembers more ++ rest))) =
      .ok (.object (.cons key v more after), rest) := by
  have htable : Table.ofList ((key, v) :: more.toList) = .cons key v more after :=
    Table.ofList_toList (.cons key v more after)
  rw [object_members,
    members_chars key hv hmore (length_lt_members key v more rest), map_ok, htable]

end Parts

/-! ### Values -/

section Scalars
variable (item : Option (Reader Value)) (n : Int64) {rest : List Char}

/-- A digit is none of the marks and letters that stand before other things. -/
theorem digit_ne {c : Char} (hc : c.isDigit) :
    ∀ mark ∈ [' ', '\t', '\n', '\r', ']', 'n', 't', 'f', '-', '"', '[', '{'], c ≠ mark := by
  rintro mark hmark rfl
  revert hc
  revert c
  decide

theorem isSpace_digit {c : Char} (hc : c.isDigit) : isSpace c = false := by
  have hmark := digit_ne hc
  simp only [List.forall_mem_cons] at hmark
  simp [isSpace, hmark]

/-- What begins with a digit is a number. -/
theorem valueWith_digit {c : Char} (hc : c.isDigit) (more : List Char) :
    valueWith item (c :: more) = number false (c :: more) := by
  have hmark := digit_ne hc
  simp only [List.forall_mem_cons] at hmark
  unfold valueWith
  rw [skipSpaces_cons (isSpace_digit hc)]
  split <;> simp_all

theorem valueWith_int (hr : EndsNumber rest) :
    valueWith item (Text.intChars n.toInt ++ rest) = .ok (.int n, rest) := by
  obtain ⟨digits, hchars, hnumber⟩ | ⟨⟨c, digits, hchars, hdigit⟩, hnumber⟩ := number_intChars n hr
  · rw [hchars, List.cons_append, valueWith, skipSpaces_cons (by decide)]
    exact hnumber
  · rw [hchars, List.cons_append] at hnumber ⊢
    rw [valueWith_digit item hdigit, hnumber]

theorem head_intChars :
    ∃ c more, Text.intChars n.toInt = c :: more ∧ isSpace c = false ∧ c ≠ ']' := by
  obtain ⟨digits, hchars, -⟩ | ⟨⟨c, digits, hchars, hdigit⟩, -⟩ :=
    @number_intChars n [] nofun
  · exact ⟨'-', digits, hchars, by decide, by decide⟩
  · exact ⟨c, digits, hchars, isSpace_digit hdigit, digit_ne hdigit _ (by simp)⟩

theorem valueWith_string (s : String) :
    valueWith item (Text.quotedChars s.toList ++ rest) = .ok (.string s, rest) := by
  rw [Text.quotedChars, List.cons_append, List.append_assoc, List.singleton_append, valueWith,
    skipSpaces_cons (by decide)]
  simp only [string_quoted, ok_bind]

/-- What is neither an array nor an object is read on every level. -/
theorem valueWith_scalar {v : Value} (hf : v.floatFree) (hd : v.depth = 0) :
    Returns (valueWith item) v := by
  cases v with
  | null => exact ⟨⟨_, _, rfl, by decide, by decide⟩, fun rest _ => rfl⟩
  | bool b => cases b <;> exact ⟨⟨_, _, rfl, by decide, by decide⟩, fun rest _ => rfl⟩
  | int n => exact ⟨head_intChars n, fun rest hr => valueWith_int item n hr⟩
  | float x => cases hf
  | string s => exact ⟨⟨_, _, rfl, by decide, by decide⟩, fun rest _ => valueWith_string item s⟩
  | array items => cases hd
  | object members => cases hd

end Scalars

section Containers
variable {item : Reader Value} {rest : List Char}

theorem valueWith_array {items : List Value} (h : ∀ v ∈ items, Returns item v) :
    Returns (valueWith (some item)) (.array items) := by
  cases items with
  | nil => exact ⟨⟨_, _, rfl, by decide, by decide⟩, fun rest _ => rfl⟩
  | cons v more =>
    rw [List.forall_mem_cons] at h
    refine ⟨⟨_, _, rfl, by decide, by decide⟩, fun rest _ => ?_⟩
    rw [chars, List.cons_append, valueWith, skipSpaces_cons (by decide), List.append_assoc]
    exact array_chars h.1 h.2 rest

theorem valueWith_object {members : Table Value} (h : ∀ row ∈ members.toList, Returns item row.2) :
    Returns (valueWith (some item)) (.object members) := by
  cases members with
  | nil => exact ⟨⟨_, _, rfl, by decide, by decide⟩, fun rest _ => rfl⟩
  | cons key v more after =>
    rw [Rows.toList, List.forall_mem_cons] at h
    refine ⟨⟨_, _, rfl, by decide, by decide⟩, fun rest _ => ?_⟩
    rw [chars, List.cons_append, valueWith, skipSpaces_cons (by decide), List.append_assoc,
      List.cons_append, List.append_assoc]
    exact object_chars h.1 h.2 after rest

end Containers

mutual

/-- A value without floats is read back wherever its arrays and objects fit into the levels. -/
theorem value_chars : ∀ (v : Value) {levels : Nat}, v.floatFree → v.depth ≤ levels →
    Returns (value levels) v
  | .array items, levels + 1, hf, hd =>
    valueWith_array (items_returns items hf (Nat.le_of_succ_le_succ hd))
  | .object members, levels + 1, hf, hd =>
    valueWith_object (members_returns members hf (Nat.le_of_succ_le_succ hd))
  | .null, levels, hf, _ => by cases levels <;> exact valueWith_scalar _ hf rfl
  | .bool _, levels, hf, _ => by cases levels <;> exact valueWith_scalar _ hf rfl
  | .int _, levels, hf, _ => by cases levels <;> exact valueWith_scalar _ hf rfl
  | .string _, levels, hf, _ => by cases levels <;> exact valueWith_scalar _ hf rfl

theorem items_returns : ∀ (items : List Value) {levels : Nat}, itemsFloatFree items →
    itemsDepth items ≤ levels → ∀ v ∈ items, Returns (value levels) v
  | [], _, _, _ => fun _ hv => nomatch hv
  | v :: more, levels, hf, hd => by
    simp only [itemsFloatFree, Bool.and_eq_true] at hf
    simp only [itemsDepth] at hd
    rw [List.forall_mem_cons]
    exact ⟨value_chars v hf.1 (by omega), items_returns more hf.2 (by omega)⟩

theorem members_returns {low : Option String} : ∀ (members : Rows Value low) {levels : Nat},
    membersFloatFree members → membersDepth members ≤ levels →
      ∀ row ∈ members.toList, Returns (value levels) row.2
  | .nil, _, _, _ => fun _ hv => nomatch hv
  | .cons key v more after, levels, hf, hd => by
    simp only [membersFloatFree, Bool.and_eq_true] at hf
    simp only [membersDepth] at hd
    rw [Rows.toList, List.forall_mem_cons]
    exact ⟨value_chars v hf.1 (by omega), members_returns more hf.2 (by omega)⟩

end

end Json

/-- Values without floats that nest no deeper than is allowed are kept by their JSON text. -/
theorem Value.ofJson_toJson {v : Value} (hf : v.floatFree) (hd : v.depth ≤ Json.maxDepth) :
    Value.ofJson v.toJson = .ok v := by
  have h := (Json.value_chars v hf hd).read [] nofun
  rw [List.append_nil] at h
  rw [ofJson, toJson, String.toList_ofList, Json.parse, Json.document, h]
  rfl

end WireSchema
