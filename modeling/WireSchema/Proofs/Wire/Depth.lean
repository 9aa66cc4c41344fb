import WireSchema.Proofs.Wire.Admitted
import WireSchema.Proofs.Wire.Default

/-! How deep encoding and decoding go. Structs may refer to themselves, so no schema bounds how
many are entered one in another: the bytes and the value do. In decoding a struct stands behind
its length, of a byte or more, in fewer bytes than are left of the struct around it. In
encoding it is an object of the value, since the default of a field is no object. -/

namespace WireSchema

open Outcome

/-- The run does not end at the limit on depth. -/
def Shallow {α : Type} (x : Except Fault α) : Prop := ∀ path limit, x ≠ .error (.tooDeep path limit)

namespace Shallow

variable {α β : Type} {x : Except Fault α}

theorem ok (a : α) : Shallow (.ok a : Except Fault α) := fun _ _ => nofun

theorem bind {f : α → Except Fault β} (h : Shallow x) (hf : ∀ a, x = .ok a → Shallow (f a)) :
    Shallow (x >>= f) := by
  intro path limit he
  obtain he | ⟨a, ha, he⟩ := bind_eq_error.1 he
  · exact h path limit he
  · exact hf a ha path limit he

theorem map (h : Shallow x) (f : α → β) : Shallow (x.map f) :=
  fun path limit he => h path limit (map_eq_error.1 he)

end Shallow

/-! ### Decoding -/

namespace Decode

variable {d : Document} {limits : Limits}
  {nested : StructDef → Cursor → String → Except Fault (Value × Cursor)} {s : StructDef}
  {path : String} {c c' : Cursor} {type : ResolvedType}

/-- No read leaves more bytes than there were. -/
theorem remaining_le_of_value {v : Value} {after : Cursor}
    (h : value limits nested type c path = .ok (v, after)) : after.remaining ≤ c.remaining := by
  obtain ⟨bytes, -, htook⟩ := took_value h
  rw [htook.after, Cursor.remaining_advance]
  exact Nat.sub_le _ _

theorem Comes.remaining_le {fs : List Field} {f : Field}
    (h : Comes d limits nested s path fs c f type c') : c'.remaining ≤ c.remaining := by
  induction h with
  | first => exact Nat.le_refl _
  | later _ _ read _ ih => exact Nat.le_trans ih (remaining_le_of_value read)

/-- A struct that is to be read, and how many levels may be entered, it included. -/
structure Entry where
  levels : Nat
  struct : StructDef
  cursor : Cursor
  path : String

/-- In reading a struct another is entered, the next one below, behind so many bytes for the number
of its own. -/
inductive Enters (d : Document) (limits : Limits) : Entry → (spent : Nat) → Entry → Prop
  | mk {levels : Nat} {s t : StructDef} {c c' mid after : Cursor} {path : String} {f : Field}
      {content : List UInt8}
      (comes : Comes d limits (struct d limits levels) s path s.fields c f (.struct t) c')
      (length : c'.varint = (.ok content.length, mid))
      (taken : mid.take content.length = (.ok content, after)) :
      Enters d limits ⟨levels + 1, s, c, path⟩ (mid.index - c'.index)
        ⟨levels, t, .ofBytes content, path ++ "." ++ f.name⟩

/-- In reading a struct another is entered so many levels below, behind so many bytes for the
numbers of bytes of it and of those around it. -/
inductive Descends (d : Document) (limits : Limits) (top : Entry) :
    (depth spent : Nat) → Entry → Prop
  | here : Descends d limits top 0 0 top
  | step {depth spent n : Nat} {e e' : Entry} (h : Descends d limits top depth spent e)
      (enters : Enters d limits e n e') : Descends d limits top (depth + 1) (spent + n) e'

section Descends
variable {e e' e'' : Entry} {depth spent n : Nat}

/-- A struct has fewer bytes than are left of the one around it. -/
theorem Enters.shorter (h : Enters d limits e n e') :
    0 < n ∧ n + e'.cursor.remaining ≤ e.cursor.remaining := by
  cases h with
  | mk comes length taken =>
    have hle := comes.remaining_le
    obtain ⟨hpos, hsum⟩ := Cursor.varint_eq_ok length
    obtain ⟨-, ⟨rest, hat⟩, -⟩ := take_eq_ok taken
    have hmid := hat.remaining
    rw [List.length_append] at hmid
    rw [Cursor.remaining_ofBytes]
    dsimp only
    omega

/-- Each level down takes a byte of what was left at the top. -/
theorem Descends.shorter (h : Descends d limits e depth spent e') :
    depth ≤ spent ∧ spent + e'.cursor.remaining ≤ e.cursor.remaining := by
  induction h with
  | here => exact ⟨Nat.le_refl 0, by omega⟩
  | step _ enters ih =>
    obtain ⟨hpos, hle⟩ := enters.shorter
    omega

theorem Descends.above (he : Enters d limits e n e') (h : Descends d limits e' depth spent e'') :
    Descends d limits e (depth + 1) (n + spent) e'' := by
  induction h with
  | here => simpa using Descends.step .here he
  | step _ enters ih =>
    rw [← Nat.add_assoc]
    exact .step ih enters

end Descends

theorem varint_shallow : Shallow (varint c path) := by
  intro p limit h
  unfold varint at h
  split at h <;> cases h

theorem expect_shallow {α : Type} {needed : Nat} {read : Except Cursor.Fault α × Cursor} :
    Shallow (expect c needed path read) := by
  intro p limit h
  unfold expect at h
  split at h <;> cases h

theorem payload_shallow : Shallow (payload limits c path) := by
  refine varint_shallow.bind fun read _ => ?_
  dsimp only
  split
  · exact fun _ _ => nofun
  · exact expect_shallow

theorem boolOfByte_shallow {byte : Nat} : Shallow (boolOfByte byte path) := by
  intro p limit h
  unfold boolOfByte at h
  split at h <;> cases h

theorem anyOfBytes_shallow {bytes : List UInt8} : Shallow (anyOfBytes bytes path) := by
  intro p limit h
  unfold anyOfBytes at h
  split at h
  · cases h
  · split at h <;> cases h

/-- Only in a nested struct may reading a value end at the limit. -/
theorem value_shallow (h : ∀ t content after, type = .struct t →
      payload limits c path = .ok (content, after) →
        Shallow (nested t (.ofBytes content) path)) :
    Shallow (value limits nested type c path) := by
  cases type with
  | int kind bounds => exact expect_shallow.bind fun _ _ => .ok _
  | string => exact payload_shallow.bind fun _ _ => .ok _
  | any => exact payload_shallow.bind fun _ _ => anyOfBytes_shallow.bind fun _ _ => .ok _
  | bool => exact expect_shallow.bind fun _ _ => boolOfByte_shallow.bind fun _ _ => .ok _
  | float32 => exact expect_shallow.bind fun _ _ => .ok _
  | float64 => exact expect_shallow.bind fun _ _ => .ok _
  | enum e => exact varint_shallow.bind fun _ _ => .ok _
  | struct t =>
    refine payload_shallow.bind fun read hread => ?_
    exact (h t read.1 read.2 rfl hread).bind fun _ _ => .ok _

theorem fields_shallow {fs : List Field} (members : Table Value)
    (h : ∀ f t c' content after, Comes d limits nested s path fs c f (.struct t) c' →
      payload limits c' (path ++ "." ++ f.name) = .ok (content, after) →
        Shallow (nested t (.ofBytes content) (path ++ "." ++ f.name))) :
    Shallow (fields d limits nested s path fs members c) := by
  induction fs generalizing members c with
  | nil => exact .ok _
  | cons f rest ih =>
    rw [fields]
    split
    · exact .ok _
    · next hend =>
      have hinside : c.atEnd = false := Bool.eq_false_iff.2 hend
      refine Shallow.bind ?_ fun type htype => ?_
      · intro p limit hr
        obtain ⟨name, scope, he⟩ := Document.resolve_eq_error hr
        cases he
      · refine Shallow.bind ?_ fun read hread => ih _ fun g t c' content after hcomes => ?_
        · refine value_shallow fun t content after ht hp => ?_
          subst ht
          exact h f t c content after (.first hinside htype) hp
        · exact h g t c' content after (.later hinside htype hread hcomes)

/-- Reading a struct ends at the limit only if so many structs are entered one in another as there
are levels. -/
theorem struct_shallow {levels : Nat}
    (h : ∀ spent e, ¬Descends d limits ⟨levels, s, c, path⟩ levels spent e) :
    Shallow (struct d limits levels s c path) := by
  induction levels generalizing s c path with
  | zero => exact absurd .here (h 0 _)
  | succ levels ih =>
    refine Shallow.bind ?_ fun _ _ => .ok _
    refine fields_shallow _ fun f t c' content after hcomes hp => ih fun spent e hd => ?_
    obtain ⟨mid, hlength, htaken⟩ := exists_length_of_payload hp
    exact h _ e (.above (.mk hcomes hlength htaken) hd)

end Decode

/-! ### Encoding -/

mutual

/-- How many objects are in one another, each a member of the one around it, the value itself
included. What is in an array is not counted, since nothing there is taken for a struct. -/
def Value.objectDepth : Value → Nat
  | .object members => membersObjectDepth members + 1
  | _ => 0

def membersObjectDepth {low : Option String} : Rows Value low → Nat
  | .nil => 0
  | .cons _ value rest _ => max value.objectDepth (membersObjectDepth rest)

end

theorem objectDepth_le_of_find? {low : Option String} {members : Rows Value low} {key : String}
    {v : Value} (h : members.find? key = some v) :
    v.objectDepth ≤ membersObjectDepth members := by
  induction members with
  | nil => cases h
  | cons k w rest after ih =>
    rw [Rows.find?] at h
    rw [membersObjectDepth]
    split at h
    · obtain rfl := Option.some.inj h
      exact Nat.le_max_left _ _
    · exact Nat.le_trans (ih h) (Nat.le_max_right _ _)

theorem Value.objectDepth_pos {v : Value} (h : v.object?.isSome) : 0 < v.objectDepth := by
  cases v with
  | object members => exact Nat.succ_pos _
  | _ => cases h

namespace Direct

variable {d : Document} {limits : Limits} {s : StructDef} {key path : String} {v : Value}

/-- Each struct that is entered takes an object of the value, for no default is one. -/
theorem struct_shallow (hd : d.WellFormed) {levels : Nat} (hs : d.struct? key = some s)
    (hpos : 0 < levels) (hv : v.objectDepth ≤ levels) :
    Shallow (struct d limits levels s v path) := by
  induction levels generalizing key s v path with
  | zero => exact absurd hpos (Nat.lt_irrefl 0)
  | succ levels ih =>
    cases v with
    | object members =>
      refine Shallow.map (fun place limit h => ?_) _
      obtain ⟨f, hf, hfield⟩ := parts_eq_error h
      obtain ⟨given, hgiven, hfault | ⟨type, htype, hfault⟩⟩ := field_eq_error hfield
      · obtain ⟨name, scope, hfault⟩ := Document.resolve_eq_error hfault
        cases hfault
      · obtain ⟨-, hfault⟩ | ⟨length, -, hfault⟩ | ⟨t, rfl, hobject, hnested⟩ :=
          given_eq_error hfault
        · cases hfault
        · cases hfault
        · obtain ⟨x, hx, rfl⟩ | ⟨-, raw, hraw, rfl⟩ := given?_eq_some hgiven
          · obtain ⟨name, hname⟩ := d.struct?_of_resolve htype
            have hle : x.objectDepth ≤ levels :=
              Nat.le_trans (objectDepth_le_of_find? hx) (Nat.le_of_succ_le_succ hv)
            have hlevels := Nat.lt_of_lt_of_le (Value.objectDepth_pos hobject) hle
            exact ih hname hlevels hle place limit hnested
          · rw [hd.object?_liftDefault hs hf hraw] at hobject
            cases hobject
    | _ => exact fun _ _ => nofun

/-- A nested struct is written only for an object that was supplied. -/
theorem supplied_of_writes (hd : d.WellFormed) (hs : d.struct? key = some s) {f : Field}
    {type : ResolvedType} {x : Value} (hw : Writes d s v f type x) (hx : x.object?.isSome) :
    v.get? f.name = some x := by
  obtain ⟨members, given, hv, hgiven, rfl⟩ := hw.given
  obtain ⟨w, hw', rfl⟩ | ⟨-, raw, hraw, rfl⟩ := given?_eq_some hgiven
  · rw [Value.get?, hv]
    exact hw'
  · rw [hd.object?_liftDefault hs hw.declared hraw] at hx
    cases hx

end Direct

/-! ### Both -/

namespace Document

/-- Decoding never meets the limit on depth where it allows as many levels as bytes are left, since
every level takes a byte and leaves the struct in it fewer bytes. Encoding never meets it where
it allows as many levels as there are objects in one another, since no default adds one. -/
theorem depth_bounded {text : String} {d : Document} (hc : compile text = .ok d) (limits : Limits)
    (name : String) :
    (∀ bytes offset, bytes.length - offset ≤ limits.maxDepth.toNat →
        ∀ path limit, d.decode limits name bytes offset ≠ .error (.tooDeep path limit)) ∧
      (∀ s bytes offset depth spent e, d.struct? name = some s →
        Decode.Descends d limits ⟨limits.levels, s, ⟨bytes, offset⟩, name⟩ depth spent e →
          depth ≤ spent ∧ spent + e.cursor.remaining ≤ bytes.length - offset ∧
            ∀ n e', Decode.Enters d limits e n e' →
              0 < n ∧ n + e'.cursor.remaining ≤ e.cursor.remaining) ∧
      (∀ v, v.objectDepth ≤ limits.maxDepth.toNat + 1 →
        ∀ path limit, d.encode limits name v ≠ .error (.tooDeep path limit)) ∧
      ∀ key s, d.struct? key = some s → ∀ f ∈ s.fields,
        (∀ raw, f.default = some raw →
          ∀ type : ResolvedType, (type.liftDefault raw).object? = none) ∧
        ∀ v t x, Writes d s v f (.struct t) x → x.object?.isSome → v.get? f.name = some x := by
  obtain ⟨hd, -⟩ := compile_inBounds hc
  refine ⟨fun bytes offset hle => ?_, fun s bytes offset depth spent e _ h => ?_,
    fun v hv => ?_, fun key s hs f hf => ?_⟩
  · cases hs : d.struct? name with
    | none =>
      intro path limit hdeep
      rw [decode, getStruct, hs] at hdeep
      cases hdeep
    | some s =>
      have hstruct : Shallow (Decode.struct d limits limits.levels s ⟨bytes, offset⟩ name) := by
        refine Decode.struct_shallow fun spent e h => ?_
        obtain ⟨hdepth, hspent⟩ := h.shorter
        have hlevels : limits.maxDepth.toNat + 1 ≤ bytes.length - offset :=
          Nat.le_trans hdepth (Nat.le_trans (Nat.le_add_right _ _) hspent)
        omega
      rw [decode, getStruct, hs]
      exact hstruct.bind fun _ _ => .ok _
  · obtain ⟨hdepth, hspent⟩ := h.shorter
    exact ⟨hdepth, hspent, fun n e' h => h.shorter⟩
  · rw [encode_direct, encodeDirect]
    cases hs : d.struct? name with
    | none =>
      intro path limit hdeep
      cases hdeep
    | some s => exact Direct.struct_shallow hd hs (Nat.succ_pos _) hv
  · exact ⟨fun raw hraw => hd.object?_liftDefault hs hf hraw,
      fun v t x hw => Direct.supplied_of_writes hd hs hw⟩

/-- A struct in itself. -/
def link : StructDef :=
  ⟨"N", [⟨"k", .int .uint8 none, none⟩, ⟨"n", .named "N", none⟩], .empty⟩

def chain : Document := ⟨Table.ofList [("N", link)], .empty⟩

/-- Three structs in one another take four bytes, or three objects. The second of them is entered
behind a byte. Where fewer levels are allowed the bytes are refused. -/
theorem depth_bounded_chain :
    (∀ path limit, chain.decode ⟨4, 9⟩ "N" [0, 7, 2, 8, 0] 1 ≠ .error (.tooDeep path limit)) ∧
      1 + (Cursor.ofBytes [8, 0]).remaining ≤ 4 ∧
      (∀ path limit, chain.encode ⟨2, 9⟩ "N" (.object (Table.ofList [("k", .int 7),
        ("n", .object (Table.ofList [("n", .object .nil)]))])) ≠ .error (.tooDeep path limit)) ∧
      chain.decode ⟨1, 9⟩ "N" [7, 2, 8, 0] 0 = .error (.tooDeep "N.n.n" 1) := by
  have hcompile : compile "struct N { uint8 k; N n; }" = .ok chain := by decide +kernel
  have hlarge := depth_bounded hcompile ⟨4, 9⟩ "N"
  have hsmall := depth_bounded hcompile ⟨2, 9⟩ "N"
  have hcomes : Decode.Comes chain ⟨4, 9⟩ (Decode.struct chain ⟨4, 9⟩ 4) link "N" link.fields
      ⟨[0, 7, 2, 8, 0], 1⟩ ⟨"n", .named "N", none⟩ (.struct link) ⟨[0, 7, 2, 8, 0], 2⟩ :=
    .later rfl rfl rfl (.first rfl rfl)
  have henters : Decode.Enters chain ⟨4, 9⟩ ⟨5, link, ⟨[0, 7, 2, 8, 0], 1⟩, "N"⟩ 1
      ⟨4, link, .ofBytes [8, 0], "N" ++ "." ++ "n"⟩ :=
    @Decode.Enters.mk chain ⟨4, 9⟩ 4 link link _ _ ⟨[0, 7, 2, 8, 0], 3⟩ _ _ _ [8, 0] hcomes rfl rfl
  refine ⟨hlarge.1 _ 1 (by decide), ?_, hsmall.2.2.1 _ (by decide), rfl⟩
  exact (hlarge.2.1 link _ 1 1 1 _ rfl (.step .here henters)).2.1

end Document

end WireSchema
