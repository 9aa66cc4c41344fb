import Mathlib.Data.List.Nodup
import WireSchema.Proofs.Schema.Written
import WireSchema.Proofs.Schema.WellFormed
import WireSchema.Proofs.Text.Identifier
import WireSchema.Proofs.Typing.Resolve
import WireSchema.Value.Basic

/-! Trails through the structs of a value, and the paths that faults give for them. A trail is
the names of fields, each in the struct that the one before it leads to. The names have no
dots, so two trails do not have one path, and a path leads to one field at most. -/

namespace WireSchema

/-! ### Paths -/

/-- The path of a trail, from a path on. -/
def trailPath (path : String) (trail : List String) : String :=
  trail.foldl (fun path name => path ++ "." ++ name) path

/-- The characters that a trail adds to a path. -/
def trailChars (trail : List String) : List Char := trail.flatMap fun name => '.' :: name.toList

theorem toList_trailPath (path : String) (trail : List String) :
    (trailPath path trail).toList = path.toList ++ trailChars trail := by
  induction trail generalizing path with
  | nil => simp [trailPath, trailChars]
  | cons name more ih =>
    change (trailPath (path ++ "." ++ name) more).toList = _
    rw [ih]
    simp [trailChars]

/-- Up to the first dot. -/
theorem takeWhile_trailChars {name : List Char} (h : '.' ∉ name) (trail : List String) :
    (name ++ trailChars trail).takeWhile (· != '.') = name := by
  cases trail with
  | nil =>
    rw [trailChars, List.flatMap_nil, List.append_nil, List.takeWhile_eq_self_iff]
    exact fun c hc => bne_iff_ne.2 fun he => h (he ▸ hc)
  | cons first more =>
    rw [trailChars, List.flatMap_cons, List.cons_append]
    exact Schema.takeWhile_ne_append h _

theorem trailChars_inj {trail trail' : List String} (h : ∀ name ∈ trail, '.' ∉ name.toList)
    (h' : ∀ name ∈ trail', '.' ∉ name.toList) (he : trailChars trail = trailChars trail') :
    trail = trail' := by
  induction trail generalizing trail' with
  | nil =>
    cases trail' with
    | nil => rfl
    | cons name more => cases he
  | cons name more ih =>
    cases trail' with
    | nil => cases he
    | cons name' more' =>
      rw [List.forall_mem_cons] at h h'
      have hchars : name.toList ++ trailChars more = name'.toList ++ trailChars more' :=
        (List.cons.inj he).2
      have hname := congrArg (List.takeWhile (· != '.')) hchars
      rw [takeWhile_trailChars h.1, takeWhile_trailChars h'.1] at hname
      rw [hname] at hchars
      rw [String.toList_inj.1 hname, ih h.2 h'.2 (List.append_cancel_left hchars)]

/-- Trails of names without dots have different paths. -/
theorem trailPath_inj {path : String} {trail trail' : List String}
    (h : ∀ name ∈ trail, '.' ∉ name.toList) (h' : ∀ name ∈ trail', '.' ∉ name.toList)
    (he : trailPath path trail = trailPath path trail') : trail = trail' := by
  have hchars := congrArg String.toList he
  rw [toList_trailPath, toList_trailPath] at hchars
  exact trailChars_inj h h' (List.append_cancel_left hchars)

/-! ### Trails -/

/-- A trail leads from a struct and its value to another: each field is there, and is a struct. -/
inductive Follows (d : Document) : StructDef → Value → List String → StructDef → Value → Prop
  | here {s : StructDef} {v : Value} : Follows d s v [] s v
  | field {s t u : StructDef} {v w x : Value} {f : Field} {trail : List String}
      (declared : f ∈ s.fields) (present : v.get? f.name = some w)
      (resolved : d.resolve (some s) f.type = .ok (.struct t)) (below : Follows d t w trail u x) :
      Follows d s v (f.name :: trail) u x

section Follows
variable {d : Document} {s t t' : StructDef} {v w w' : Value} {trail trail' : List String}
  {key : String}

theorem Field.WellFormed.dotless {f : Field} (h : f.WellFormed) : '.' ∉ f.name.toList := by
  intro hdot
  have hchar := Text.isIdentChar_of_mem h.name '.' hdot
  revert hchar
  decide

/-- Fields of one name are one field. -/
theorem eq_of_name_eq (hd : d.WellFormed) (hs : d.struct? key = some s) {f g : Field}
    (hf : f ∈ s.fields) (hg : g ∈ s.fields) (h : f.name = g.name) : f = g :=
  List.inj_on_of_nodup_map (hd.structs key s hs).2.distinct hf hg h

theorem Follows.struct? (h : Follows d s v trail t w) (hs : d.struct? key = some s) :
    ∃ name, d.struct? name = some t := by
  induction h generalizing key with
  | here => exact ⟨key, hs⟩
  | field _ _ resolved _ ih =>
    obtain ⟨name, hname⟩ := d.struct?_of_resolve resolved
    exact ih hname

theorem Follows.dotless (hd : d.WellFormed) (h : Follows d s v trail t w)
    (hs : d.struct? key = some s) : ∀ name ∈ trail, '.' ∉ name.toList := by
  induction h generalizing key with
  | here => exact List.forall_mem_nil _
  | field declared _ resolved _ ih =>
    obtain ⟨name, hname⟩ := d.struct?_of_resolve resolved
    rw [List.forall_mem_cons]
    exact ⟨((hd.structs key _ hs).2.fields _ declared).dotless, ih hname⟩

/-- A trail leads to one place. -/
theorem Follows.unique (hd : d.WellFormed) (hs : d.struct? key = some s)
    (h : Follows d s v trail t w) (h' : Follows d s v trail t' w') : t = t' ∧ w = w' := by
  induction h generalizing key with
  | here =>
    cases h'
    exact ⟨rfl, rfl⟩
  | @field s t u v w x f trail declared present resolved below ih =>
    generalize hn : f.name :: trail = names at h'
    cases h' with
    | here => cases hn
    | @field _ t'' _ _ w'' _ g _ declared' present' resolved' below' =>
      obtain ⟨hname, rfl⟩ := List.cons.inj hn
      obtain rfl := eq_of_name_eq hd hs declared declared' hname
      rw [present] at present'
      rw [resolved] at resolved'
      obtain rfl := Option.some.inj present'
      obtain rfl := ResolvedType.struct.inj (Except.ok.inj resolved')
      obtain ⟨name, hkey⟩ := d.struct?_of_resolve resolved
      exact ih hkey below'

/-- Fields with one path are one field, of one value. -/
theorem Follows.field_unique (hd : d.WellFormed) (hs : d.struct? key = some s)
    (h : Follows d s v trail t w) (h' : Follows d s v trail' t' w') {f f' : Field}
    (hf : f ∈ t.fields) (hf' : f' ∈ t'.fields) {path : String}
    (hp : trailPath path (trail ++ [f.name]) = trailPath path (trail' ++ [f'.name])) :
    t = t' ∧ w = w' ∧ f = f' := by
  have hdotless {trail : List String} {t : StructDef} {w : Value} {f : Field}
      (h : Follows d s v trail t w) (hf : f ∈ t.fields) :
      ∀ name ∈ trail ++ [f.name], '.' ∉ name.toList := by
    obtain ⟨name, hname⟩ := h.struct? hs
    rw [List.forall_mem_append, List.forall_mem_singleton]
    exact ⟨h.dotless hd hs, ((hd.structs name t hname).2.fields f hf).dotless⟩
  have htrail := trailPath_inj (hdotless h hf) (hdotless h' hf') hp
  obtain ⟨rfl, hname⟩ := List.append_inj' htrail rfl
  obtain ⟨rfl, rfl⟩ := h.unique hd hs h'
  obtain ⟨name, hkey⟩ := h.struct? hs
  exact ⟨rfl, rfl, eq_of_name_eq hd hkey hf hf' (List.singleton_inj.1 hname)⟩

end Follows

end WireSchema
