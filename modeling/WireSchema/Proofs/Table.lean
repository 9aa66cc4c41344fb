import WireSchema.Table

/-! Finding rows. The keys ascend, so a row that is in the table is the one that its key
finds, and a table is known by what its keys find. Tables are united by adding the rows
of one to the other. -/

namespace WireSchema

namespace Rows

variable {α : Type} {low : Option String} {key : String} {value : α}

theorem find?_of_mem (t : Rows α low) (h : (key, value) ∈ t.toList) :
    After low key ∧ t.find? key = some value := by
  induction t with
  | nil => cases h
  | cons k v rest after ih =>
    rw [toList, List.mem_cons] at h
    obtain h | h := h
    · obtain ⟨rfl, rfl⟩ := Prod.mk.inj h
      exact ⟨after, if_pos rfl⟩
    · obtain ⟨hlt, hfind⟩ := ih h
      have hlt : k < key := hlt
      have hne : k ≠ key := fun he => String.lt_irrefl key (he ▸ hlt)
      exact ⟨after.trans hlt, by rw [find?, if_neg hne, hfind]⟩

theorem mem_of_find? (t : Rows α low) (h : t.find? key = some value) :
    (key, value) ∈ t.toList := by
  induction t with
  | nil => cases h
  | cons k v rest after ih =>
    rw [find?] at h
    split at h
    · next hk =>
      subst hk
      exact List.mem_cons.2 (.inl (congrArg (k, ·) (Option.some.inj h).symm))
    · exact List.mem_cons_of_mem _ (ih h)

theorem exists_find?_of_mem_values {t : Rows α low} (h : value ∈ t.values) :
    ∃ key, t.find? key = some value := by
  obtain ⟨⟨key, value⟩, hmem, rfl⟩ := List.mem_map.1 h
  exact ⟨key, (find?_of_mem t hmem).2⟩

theorem mem_values_of_find? {t : Rows α low} (h : t.find? key = some value) : value ∈ t.values :=
  List.mem_map.2 ⟨(key, value), mem_of_find? t h, rfl⟩

theorem mem_values {t : Rows α low} : value ∈ t.values ↔ ∃ key, t.find? key = some value :=
  ⟨exists_find?_of_mem_values, fun ⟨_, h⟩ => mem_values_of_find? h⟩

/-- Every row comes after the bound. -/
theorem after_of_find? {t : Rows α low} (h : t.find? key = some value) : After low key :=
  (find?_of_mem t (mem_of_find? t h)).1

theorem find?_self_eq_none (t : Rows α (some key)) : t.find? key = none :=
  Option.eq_none_iff_forall_ne_some.2 fun _ h => String.lt_irrefl key (after_of_find? h)

theorem find?_map {β : Type} (f : α → β) (t : Rows α low) (key : String) :
    (t.map f).find? key = (t.find? key).map f := by
  induction t with
  | nil => rfl
  | cons k v rest after ih =>
    rw [map, find?, find?, ih]
    split <;> rfl

/-- What the keys find says which rows there are. -/
theorem ext_find? {t u : Rows α low} (h : ∀ key, t.find? key = u.find? key) : t = u := by
  induction t with
  | nil =>
    cases u with
    | nil => rfl
    | cons key value rest after =>
      have hkey := h key
      rw [find?, find?, if_pos rfl] at hkey
      cases hkey
  | cons key value rest after ih =>
    cases u with
    | nil =>
      have hkey := h key
      rw [find?, find?, if_pos rfl] at hkey
      cases hkey
    | cons key' value' rest' after' =>
      -- neither first key comes before the other
      have hfound := h key
      have hfound' := h key'
      simp only [find?, if_true] at hfound hfound'
      have hkey : key' = key := by
        refine Decidable.byContradiction fun hne => ?_
        rw [if_neg hne] at hfound
        rw [if_neg (Ne.symm hne)] at hfound'
        have hlt : key < key' := after_of_find? hfound'
        have hlt' : key' < key := after_of_find? hfound.symm
        exact String.lt_irrefl key (String.lt_trans hlt hlt')
      subst hkey
      rw [if_pos rfl] at hfound
      obtain rfl := Option.some.inj hfound
      congr 1
      refine ih fun wanted => ?_
      by_cases hw : key' = wanted
      · subst hw
        rw [find?_self_eq_none, find?_self_eq_none]
      · have hwanted := h wanted
        rwa [find?, find?, if_neg hw, if_neg hw] at hwanted

end Rows

namespace Table

variable {α : Type} {P : String → α → Prop}

/-- Every row of a table, with its key. -/
def All (P : String → α → Prop) (t : Table α) : Prop :=
  ∀ key value, t.find? key = some value → P key value

theorem all_empty : All P .empty := nofun

theorem All.insert {t : Table α} {key : String} {value : α} (h : t.All P) (hrow : P key value) :
    All P (t.insert key value) := by
  intro k v hfind
  rw [find?_insert] at hfind
  split at hfind
  · next hk =>
    obtain rfl := Option.some.inj hfind
    exact hk ▸ hrow
  · exact h k v hfind

/-! ### Rows with new names -/

/-- Different names, none of which the table knows. -/
def Fresh (known : Table α) (names : List String) : Prop :=
  names.Nodup ∧ ∀ name ∈ names, known.contains name = false

theorem contains_insert (known : Table α) (key : String) (value : α) (wanted : String) :
    (known.insert key value).contains wanted =
      (decide (key = wanted) || known.contains wanted) := by
  unfold Rows.contains
  rw [find?_insert]
  split
  · next h => simp [h]
  · next h => simp [h]

theorem fresh_nil (known : Table α) : Fresh known [] := ⟨List.nodup_nil, by simp⟩

theorem fresh_cons {known : Table α} {name : String} {names : List String} (value : α) :
    Fresh known (name :: names) ↔
      known.contains name = false ∧ Fresh (known.insert name value) names := by
  simp only [Fresh, List.nodup_cons, List.forall_mem_cons, contains_insert, Bool.or_eq_false_iff,
    decide_eq_false_iff_not, forall_and]
  constructor
  · rintro ⟨⟨hnot, hnodup⟩, hname, hnames⟩
    exact ⟨hname, hnodup, fun n hn he => hnot (he ▸ hn), hnames⟩
  · rintro ⟨hname, hnodup, hnot, hnames⟩
    exact ⟨⟨fun hn => hnot _ hn rfl, hnodup⟩, hname, hnames⟩

theorem fresh_empty {names : List String} : Fresh (α := α) .empty names ↔ names.Nodup :=
  and_iff_left fun _ _ => rfl

/-- Rows put into a table one after another. -/
def addAll (known : Table α) (rows : List (String × α)) : Table α :=
  rows.foldl (fun t row => Table.insert t row.1 row.2) known

theorem addAll_append (known : Table α) (a b : List (String × α)) :
    known.addAll (a ++ b) = (known.addAll a).addAll b := List.foldl_append

theorem contains_addAll (known : Table α) (rows : List (String × α)) (key : String) :
    (known.addAll rows).contains key = true ↔
      known.contains key = true ∨ key ∈ rows.map Prod.fst := by
  induction rows generalizing known with
  | nil => exact (or_iff_left List.not_mem_nil).symm
  | cons row rows ih =>
    change ((known.insert row.1 row.2).addAll rows).contains key = true ↔ _
    rw [ih, contains_insert, Bool.or_eq_true, decide_eq_true_eq, List.map_cons, List.mem_cons,
      or_comm (a := row.1 = key), or_assoc, eq_comm (a := row.1)]

theorem contains_ofList (rows : List (String × α)) (key : String) :
    (ofList rows).contains key = true ↔ key ∈ rows.map Prod.fst :=
  (contains_addAll .empty rows key).trans (or_iff_right Bool.false_ne_true)

/-- Values put under their names have their names for keys. -/
theorem contains_named {name : α → String} {vs : List α} {key : String} :
    (addAll .empty (vs.map fun v => (name v, v))).contains key = true ↔ key ∈ vs.map name := by
  rw [contains_addAll, List.map_map]
  exact or_iff_right Bool.false_ne_true

theorem find?_addAll (known : Table α) (rows : List (String × α)) (key : String) :
    (known.addAll rows).find? key = ((ofList rows).find? key).or (known.find? key) := by
  induction rows generalizing known with
  | nil => rfl
  | cons row rows ih =>
    have hknown := ih (known.insert row.1 row.2)
    have hempty := ih (Table.insert .empty row.1 row.2)
    change (known.addAll (row :: rows)).find? key = _ at hknown
    change (ofList (row :: rows)).find? key = _ at hempty
    rw [hknown, hempty, find?_insert, find?_insert, Option.or_assoc]
    congr 1
    split <;> rfl

theorem find?_ofList_eq_none {rows : List (String × α)} {key : String}
    (h : key ∉ rows.map Prod.fst) : (ofList rows).find? key = none := by
  rwa [← contains_ofList, Rows.contains, Bool.not_eq_true, Option.isSome_eq_false_iff,
    Option.isNone_iff_eq_none] at h

/-- Of rows with different keys each is found. -/
theorem find?_ofList_of_mem {rows : List (String × α)} (hd : (rows.map Prod.fst).Nodup)
    {row : String × α} (h : row ∈ rows) : (ofList rows).find? row.1 = some row.2 := by
  induction rows with
  | nil => cases h
  | cons first rows ih =>
    rw [List.map_cons, List.nodup_cons] at hd
    change (Table.addAll (Table.insert .empty first.1 first.2) rows).find? row.1 = _
    rw [find?_addAll, find?_insert]
    obtain rfl | h := List.mem_cons.1 h
    · rw [find?_ofList_eq_none hd.1, Option.none_or, if_pos rfl]
    · rw [ih hd.2 h, Option.some_or]

/-- What is found is one of the rows. -/
theorem mem_of_find?_ofList {rows : List (String × α)} {key : String} {value : α}
    (h : (ofList rows).find? key = some value) : (key, value) ∈ rows := by
  induction rows with
  | nil => cases h
  | cons first rows ih =>
    change (Table.addAll (Table.insert .empty first.1 first.2) rows).find? key = _ at h
    rw [find?_addAll, find?_insert, Option.or_eq_some_iff] at h
    obtain h | ⟨-, h⟩ := h
    · exact List.mem_cons_of_mem _ (ih h)
    · split at h
      · next hkey =>
        obtain rfl := Option.some.inj h
        exact hkey ▸ List.mem_cons_self
      · cases h

theorem find?_ofList_toList {low : Option String} (t : Rows α low) (wanted : String) :
    (ofList t.toList).find? wanted = t.find? wanted := by
  induction t with
  | nil => rfl
  | cons key value rest after ih =>
    change (Table.addAll (Table.insert .empty key value) rest.toList).find? wanted = _
    rw [find?_addAll, ih, find?_insert, Rows.find?]
    split
    · next h =>
      subst h
      rw [Rows.find?_self_eq_none]
      rfl
    · exact Option.or_none

theorem ofList_toList (t : Table α) : ofList t.toList = t :=
  Rows.ext_find? (find?_ofList_toList t)

/-- The rows of both, those of the second counting where both have a key. -/
def union (t u : Table α) : Table α := t.addAll u.toList

@[simp] theorem find?_union (t u : Table α) (key : String) :
    (t.union u).find? key = (u.find? key).or (t.find? key) := by
  rw [union, find?_addAll, find?_ofList_toList]

theorem addAll_eq_union (t : Table α) (rows : List (String × α)) :
    t.addAll rows = t.union (ofList rows) :=
  Rows.ext_find? fun key => by rw [find?_union, find?_addAll]

/-- No key is in both. -/
def Apart (t u : Table α) : Prop := ∀ key, ¬(t.contains key = true ∧ u.contains key = true)

theorem exists_shared {t u : Table α} (h : ¬t.Apart u) :
    ∃ key, t.contains key = true ∧ u.contains key = true :=
  Classical.byContradiction fun hnone => h fun key hboth => hnone ⟨key, hboth⟩

theorem Apart.symm {t u : Table α} (h : t.Apart u) : u.Apart t := fun key hboth =>
  h key hboth.symm

theorem Apart.find? {t u : Table α} {key : String} {value : α} (h : t.Apart u)
    (ht : t.find? key = some value) : u.find? key = none := by
  rw [Option.eq_none_iff_forall_ne_some]
  exact fun other hu => h key ⟨by simp [Rows.contains, ht], by simp [Rows.contains, hu]⟩

/-- Names in tables that share no key are different. -/
theorem Apart.nodup {name : α → String} {vs ws : List α} (hvs : (vs.map name).Nodup)
    (hws : (ws.map name).Nodup)
    (h : (addAll .empty (vs.map fun v => (name v, v))).Apart
      (addAll .empty (ws.map fun v => (name v, v)))) : ((vs ++ ws).map name).Nodup := by
  rw [List.map_append, List.nodup_append]
  refine ⟨hvs, hws, fun key hkey other hother heq => h key ⟨contains_named.2 hkey, ?_⟩⟩
  exact contains_named.2 (heq ▸ hother)

theorem union_comm {t u : Table α} (h : t.Apart u) : t.union u = u.union t := by
  refine Rows.ext_find? fun key => ?_
  rw [find?_union, find?_union]
  cases ht : t.find? key with
  | none => simp
  | some value => simp [h.find? ht]

theorem mem_values_union {t u : Table α} (h : t.Apart u) {value : α} :
    value ∈ (t.union u).values ↔ value ∈ t.values ∨ value ∈ u.values := by
  simp only [Rows.mem_values, find?_union, Option.or_eq_some_iff]
  constructor
  · rintro ⟨key, hu | ⟨-, ht⟩⟩
    · exact .inr ⟨key, hu⟩
    · exact .inl ⟨key, ht⟩
  · rintro (⟨key, ht⟩ | ⟨key, hu⟩)
    · exact ⟨key, .inr ⟨h.find? ht, ht⟩⟩
    · exact ⟨key, .inl hu⟩

end Table

end WireSchema
