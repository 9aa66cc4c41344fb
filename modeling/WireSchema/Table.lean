/-! Rows in strictly ascending key order. The bound in the type of a row's rest is
the row's own key, so a table out of order or with a key twice cannot be written
down, and two tables with the same rows are the same table. Keys are compared
character by character, which for text in UTF-8 is also the order of the bytes. -/

namespace WireSchema

/-- What the first key has to come after, if anything. -/
def After : Option String → String → Prop
  | none, _ => True
  | some low, key => low < key

instance : (low : Option String) → (key : String) → Decidable (After low key)
  | none, _ => isTrue trivial
  | some low, key => inferInstanceAs (Decidable (low < key))

theorem After.trans {low : Option String} {a b : String} (h : After low a) (hab : a < b) :
    After low b := by
  cases low with
  | none => trivial
  | some _ => exact String.lt_trans h hab

theorem lt_of_not_lt_of_ne {a b : String} (h : ¬a < b) (hne : a ≠ b) : b < a :=
  Decidable.byContradiction fun hn =>
    hne (String.le_antisymm (String.not_lt.1 hn) (String.not_lt.1 h))

inductive Rows (α : Type) : Option String → Type
  | nil {low : Option String} : Rows α low
  | cons {low : Option String} (key : String) (value : α) (rest : Rows α (some key))
      (after : After low key) : Rows α low

abbrev Table (α : Type) := Rows α none

namespace Rows

variable {α β : Type} {low : Option String}

def toList {low : Option String} : Rows α low → List (String × α)
  | nil => []
  | cons key value rest _ => (key, value) :: rest.toList

def keys (t : Rows α low) : List String := t.toList.map Prod.fst

def values (t : Rows α low) : List α := t.toList.map Prod.snd

def size {low : Option String} : Rows α low → Nat
  | nil => 0
  | cons _ _ rest _ => rest.size + 1

def find? {low : Option String} : Rows α low → String → Option α
  | nil, _ => none
  | cons key value rest _, wanted => if key = wanted then some value else rest.find? wanted

def contains (t : Rows α low) (key : String) : Bool := (t.find? key).isSome

/-- The same rows under a weaker bound. -/
def weaken {low : Option String} {key : String} :
    Rows α (some key) → After low key → Rows α low
  | nil, _ => nil
  | cons k v rest after, h => cons k v rest (h.trans after)

/-- Puts a row in its place, over the row that had the key. -/
def insertAfter {low : Option String} (t : Rows α low) (key : String) (value : α)
    (h : After low key) : Rows α low :=
  match t with
  | nil => cons key value nil h
  | cons k v rest after =>
    if hlt : key < k then cons key value (cons k v rest hlt) h
    else if heq : key = k then cons k value rest after
    else cons k v (rest.insertAfter key value (lt_of_not_lt_of_ne hlt heq)) after

def erase {low : Option String} : Rows α low → String → Rows α low
  | nil, _ => nil
  | cons key value rest after, gone =>
    if key = gone then rest.weaken after else cons key value (rest.erase gone) after

def map {low : Option String} (f : α → β) : Rows α low → Rows β low
  | nil => nil
  | cons key value rest after => cons key (f value) (rest.map f) after

theorem toList_inj {low : Option String} {t u : Rows α low} : t.toList = u.toList → t = u := by
  induction t with
  | nil => cases u <;> simp [toList]
  | cons key value rest after ih =>
    cases u with
    | nil => simp [toList]
    | cons key' value' rest' after' =>
      intro h
      simp only [toList, List.cons.injEq, Prod.mk.injEq] at h
      obtain ⟨⟨rfl, rfl⟩, h⟩ := h
      rw [ih h]

@[simp] theorem find?_weaken {key : String} (t : Rows α (some key)) (h : After low key)
    (wanted : String) : (t.weaken h).find? wanted = t.find? wanted := by
  cases t <;> rfl

theorem find?_insertAfter {low : Option String} (t : Rows α low) (key : String) (value : α)
    (h : After low key) (wanted : String) :
    (t.insertAfter key value h).find? wanted =
      if key = wanted then some value else t.find? wanted := by
  induction t with
  | nil => rfl
  | cons k v rest after ih =>
    unfold insertAfter
    split
    · rfl
    · split
      · next heq => subst heq; simp only [find?]; split <;> rfl
      · next hne =>
        simp only [find?]
        split
        · next hk => subst hk; rw [if_neg hne]
        · exact ih _

instance [DecidableEq α] : DecidableEq (Rows α low) := fun t u =>
  if h : t.toList = u.toList then isTrue (toList_inj h)
  else isFalse fun e => h (congrArg toList e)

end Rows

namespace Table

variable {α : Type}

def empty : Table α := .nil

def insert (t : Table α) (key : String) (value : α) : Table α := t.insertAfter key value trivial

@[simp] theorem find?_insert (t : Table α) (key : String) (value : α) (wanted : String) :
    (t.insert key value).find? wanted = if key = wanted then some value else t.find? wanted :=
  Rows.find?_insertAfter t key value trivial wanted

/-- Rows taken in turn; of two with one key the later stays. -/
def ofList (rows : List (String × α)) : Table α :=
  rows.foldl (fun t row => Table.insert t row.1 row.2) empty

end Table

end WireSchema
