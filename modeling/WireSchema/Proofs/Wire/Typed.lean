import WireSchema.Proofs.Wire.Taken

/-! The type of what is decoded. Whatever the bytes were, the members of a struct are its first
fields up to one of them, and each of them is of the type of its field, in the form in which
a value of that type is decoded. -/

namespace WireSchema

open Outcome

/-- A value is of a type as decoding gives it, with at most `levels` structs in one another. -/
inductive Typed (d : Document) : (levels : Nat) → ResolvedType → Value → Prop
  | bool {levels : Nat} (b : Bool) : Typed d levels .bool (.bool b)
  | string {levels : Nat} (s : String) : Typed d levels .string (.string s)
  | float32 {levels : Nat} (x : Binary32) : Typed d levels .float32 (.float x.widen)
  | float64 {levels : Nat} (x : Binary64) : Typed d levels .float64 (.float x)
  | any {levels : Nat} {text : String} {v : Value} (h : Value.ofJson text = .ok v) :
      Typed d levels .any v
  | int {levels : Nat} {kind : IntKind} {n : Int64} (bounds : Option Bounds)
      (h : kind.bounds.contains n) : Typed d levels (.int kind bounds) (.int n)
  | named {levels : Nat} {e : EnumDef} {code : Int64} {name : String}
      (h : e.name? code = some name) : Typed d levels (.enum e) (.string name)
  | unnamed {levels : Nat} {e : EnumDef} {code : Int64} (h : e.name? code = none) :
      Typed d levels (.enum e) (.int code)
  | struct {levels : Nat} {s : StructDef} {members : Table Value} (k : Nat)
      (keys : ∀ key, members.contains key ↔ key ∈ (s.fields.take k).map Field.name)
      (resolved : ∀ f ∈ s.fields.take k, ∃ type, d.resolve (some s) f.type = .ok type)
      (typed : ∀ f ∈ s.fields.take k, ∀ type v, d.resolve (some s) f.type = .ok type →
        members.find? f.name = some v → Typed d levels type v) :
      Typed d (levels + 1) (.struct s) (.object members)

namespace Decode

variable {d : Document} {limits : Limits} {levels : Nat}
  {nested : StructDef → Cursor → String → Except Fault (Value × Cursor)} {type : ResolvedType}
  {s : StructDef} {v : Value} {c after : Cursor} {path : String}

theorem word_lt {width word : Nat} (h : expect c width path (c.word width) = .ok (word, after)) :
    word < 256 ^ width := by
  rw [Cursor.word] at h
  cases htake : c.take width with
  | mk outcome later =>
    rw [htake] at h
    cases outcome with
    | error fault => cases fault <;> cases h
    | ok bytes =>
      obtain ⟨hlength, -, -⟩ := take_eq_ok htake
      obtain ⟨rfl, rfl⟩ := Prod.mk.inj (Except.ok.inj h)
      exact hlength ▸ LittleEndian.decode_lt bytes

theorem typed_enumOfCode (e : EnumDef) (code : Int64) :
    Typed d levels (.enum e) (enumOfCode e code) := by
  rw [enumOfCode]
  split
  · next name h => exact .named h
  · next h => exact .unnamed h

theorem typed_anyOfBytes {bytes : List UInt8} (h : anyOfBytes bytes path = .ok v) :
    Typed d levels .any v := by
  unfold anyOfBytes at h
  split at h
  · cases h
  · next chars _ =>
    split at h
    · cases h
    · next w hparse =>
      obtain rfl := Except.ok.inj h
      have htext : Value.ofJson (String.ofList chars) = .ok w := by
        rwa [Value.ofJson, String.toList_ofList]
      exact .any htext

/-- A value that was read is of its type, if those of structs are. -/
theorem typed_value (hn : ∀ t, type = .struct t → ∀ bytes v after,
      nested t (.ofBytes bytes) path = .ok (v, after) → Typed d levels type v)
    (h : value limits nested type c path = .ok (v, after)) : Typed d levels type v := by
  cases type with
  | int kind bounds =>
    obtain ⟨⟨word, mid⟩, hword, h⟩ := bind_eq_ok.1 h
    obtain ⟨rfl, rfl⟩ := Prod.mk.inj (Except.ok.inj h)
    exact .int bounds (contains_intOfWord (word_lt hword))
  | string =>
    obtain ⟨_, -, h⟩ := bind_eq_ok.1 h
    obtain ⟨rfl, rfl⟩ := Prod.mk.inj (Except.ok.inj h)
    exact .string _
  | any =>
    obtain ⟨⟨bytes, mid⟩, -, h⟩ := bind_eq_ok.1 h
    obtain ⟨w, hw, h⟩ := bind_eq_ok.1 h
    obtain ⟨rfl, rfl⟩ := Prod.mk.inj (Except.ok.inj h)
    exact typed_anyOfBytes hw
  | bool =>
    obtain ⟨⟨byte, mid⟩, -, h⟩ := bind_eq_ok.1 h
    obtain ⟨w, hw, h⟩ := bind_eq_ok.1 h
    obtain ⟨rfl, rfl⟩ := Prod.mk.inj (Except.ok.inj h)
    unfold boolOfByte at hw
    split at hw
    · exact Except.ok.inj hw ▸ .bool false
    · exact Except.ok.inj hw ▸ .bool true
    · cases hw
  | float32 =>
    obtain ⟨⟨x, mid⟩, -, h⟩ := bind_eq_ok.1 h
    obtain ⟨rfl, rfl⟩ := Prod.mk.inj (Except.ok.inj h)
    exact .float32 x
  | float64 =>
    obtain ⟨⟨x, mid⟩, -, h⟩ := bind_eq_ok.1 h
    obtain ⟨rfl, rfl⟩ := Prod.mk.inj (Except.ok.inj h)
    exact .float64 x
  | enum e =>
    obtain ⟨⟨code, mid⟩, -, h⟩ := bind_eq_ok.1 h
    obtain ⟨rfl, rfl⟩ := Prod.mk.inj (Except.ok.inj h)
    exact typed_enumOfCode e _
  | struct t =>
    obtain ⟨⟨bytes, mid⟩, -, h⟩ := bind_eq_ok.1 h
    obtain ⟨⟨w, inner⟩, hw, h⟩ := bind_eq_ok.1 h
    obtain ⟨rfl, rfl⟩ := Prod.mk.inj (Except.ok.inj h)
    exact hn t rfl bytes w inner hw

/-- Every field of the pieces has its row, and every row is that of a field. -/
theorem Parted.row {fs : List Field} {parts : List (Field × List UInt8)}
    {rows : List (String × Value)} (h : Parted d limits nested s path fs c after parts rows)
    {f : Field} (hf : f ∈ parts.map Prod.fst) :
    ∃ bytes, ∃ row ∈ rows, ReadsField d limits nested s path (f, bytes) row := by
  obtain ⟨part, hpart, rfl⟩ := List.mem_map.1 hf
  obtain ⟨i, hi, rfl⟩ := List.getElem_of_mem hpart
  have hi' : i < rows.length := h.read.length_eq ▸ hi
  exact ⟨_, rows[i], List.getElem_mem hi', h.read.get hi hi'⟩

/-- At every level the struct that was read is of its type. -/
theorem typed_struct (hd : d.WellFormed) {key : String} (hs : d.struct? key = some s)
    (h : struct d limits levels s c path = .ok (v, after)) : Typed d levels (.struct s) v := by
  induction levels generalizing key s v c after path with
  | zero => cases h
  | succ levels ih =>
    obtain ⟨below, parts, rows, hlevels, hparted, rfl⟩ := exists_parted_struct h
    obtain rfl := Nat.succ.inj hlevels
    obtain ⟨later, _, hfields, -, -⟩ := hparted.pieces
    have hdistinct := (hd.structs key s hs).2.distinct
    have hfirst : s.fields.take parts.length = parts.map Prod.fst := by
      rw [hfields, List.take_left' (List.length_map _)]
    have hnames : (rows.map Prod.fst).Nodup := by
      rw [hfields, List.map_append, ← hparted.names] at hdistinct
      exact (List.nodup_append.1 hdistinct).1
    refine .struct parts.length (fun wanted => ?_) (fun f hf => ?_) fun f hf type w htype hw => ?_
    · rw [Table.contains_ofList, hparted.names, hfirst]
    · rw [hfirst] at hf
      obtain ⟨bytes, row, -, hread⟩ := hparted.row hf
      obtain ⟨type, htype, -⟩ := hread.reads
      exact ⟨type, htype⟩
    · rw [hfirst] at hf
      obtain ⟨bytes, row, hrow, hread⟩ := hparted.row hf
      obtain ⟨type', htype', hreads⟩ := hread.reads
      have hfound := Table.find?_ofList_of_mem hnames hrow
      rw [hread.name, hw] at hfound
      rw [htype] at htype'
      obtain rfl := Option.some.inj hfound
      obtain rfl := Except.ok.inj htype'
      have hvalue := hreads.whole (.ofBytes bytes) []
        (by rw [List.append_nil]; exact Cursor.ofBytes_at bytes)
      refine typed_value (fun t ht inner x last hx => ?_) hvalue
      subst ht
      obtain ⟨name, hname⟩ := d.struct?_of_resolve htype
      exact ih hname hx

end Decode

end WireSchema
