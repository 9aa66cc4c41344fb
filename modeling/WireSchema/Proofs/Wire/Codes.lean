import Mathlib.Data.List.TakeWhile
import WireSchema.Proofs.Schema.Numbering
import WireSchema.Wire.Decode

/-! The names and the codes of an enum. Of several members with one code the last gives the name,
and of several with one name the last gives the code. So the name of a code leads back to
the code unless it is given again, to another code, behind the last member that has it. -/

namespace WireSchema

open Outcome

namespace EnumDef

variable {e : EnumDef} {code : Int64} {name : String}

/-- The members behind the last one with the code. -/
def later (e : EnumDef) (code : Int64) : List Member :=
  (e.members.reverse.takeWhile fun m => m.code != code).reverse

/-- No name is given to two codes. -/
def Unambiguous (e : EnumDef) : Prop :=
  ∀ m ∈ e.members, ∀ m' ∈ e.members, m.name = m'.name → m.code = m'.code

theorem code_ne_of_mem_later {m : Member} (h : m ∈ e.later code) : m.code ≠ code := by
  rw [later, List.mem_reverse] at h
  simpa using List.mem_takeWhile_imp h

/-- A code that has a name has it from the member before the later ones. -/
theorem exists_members_eq (h : e.name? code = some name) :
    ∃ before, e.members = before ++ ⟨name, code⟩ :: e.later code := by
  obtain ⟨before, after, hmembers, hafter⟩ := name?_eq_some.1 h
  have hlater : e.later code = after := by
    rw [later, hmembers, List.reverse_append, List.reverse_cons, List.append_assoc,
      List.takeWhile_append_of_pos (by simpa using hafter)]
    simp
  exact ⟨before, hlater.symm ▸ hmembers⟩

/-- Only where the name of a code is not given again does it lead back to the code. -/
theorem code?_eq_some_iff (h : e.name? code = some name) :
    e.code? name = some code ↔ ∀ m ∈ e.later code, m.name ≠ name := by
  obtain ⟨before, hmembers⟩ := exists_members_eq h
  have hfind : e.code? name =
      (((e.later code).reverse.find? fun m => m.name == name).or (some ⟨name, code⟩)).map
        (·.code) := by
    rw [code?, hmembers, List.reverse_append, List.reverse_cons, List.append_assoc,
      List.find?_append]
    simp
  cases hlater : (e.later code).reverse.find? fun m => m.name == name with
  | none =>
    rw [hfind, hlater, Option.none_or, Option.map_some]
    refine iff_of_true rfl fun m hm hname => ?_
    exact List.find?_eq_none.1 hlater m (List.mem_reverse.2 hm) (beq_iff_eq.2 hname)
  | some m =>
    have hm := List.mem_reverse.1 (List.mem_of_find?_eq_some hlater)
    rw [hfind, hlater, Option.some_or, Option.map_some, Option.some_inj]
    refine iff_of_false (code_ne_of_mem_later hm) fun hnew => hnew m hm ?_
    simpa using List.find?_some hlater

theorem Unambiguous.code?_eq_some (he : e.Unambiguous) (h : e.name? code = some name) :
    e.code? name = some code := by
  rw [code?_eq_some_iff h]
  intro m hm hname
  obtain ⟨before, hmembers⟩ := exists_members_eq h
  have hsame : m.code = code :=
    he m (by simp [hmembers, hm]) ⟨name, code⟩ (by simp [hmembers]) hname
  exact code_ne_of_mem_later hm hsame

end EnumDef

/-! ### Decoding and encoding again -/

namespace Decode

variable {limits : Limits} {nested : StructDef → Cursor → String → Except Fault (Value × Cursor)}
  {e : EnumDef} {c after : Cursor} {path : String} {v : Value}

/-- A value of an enum comes from the code that was read. -/
theorem value_enum_eq_ok (h : value limits nested (.enum e) c path = .ok (v, after)) :
    ∃ n, varint c path = .ok (n, after) ∧ v = enumOfCode e (UInt64.ofNat n).toInt64 := by
  obtain ⟨⟨n, mid⟩, hn, h⟩ := bind_eq_ok.1 h
  obtain ⟨rfl, rfl⟩ := Prod.mk.inj (Except.ok.inj h)
  exact ⟨n, hn, rfl⟩

theorem enumOfCode_eq_string {code : Int64} {name : String}
    (h : enumOfCode e code = .string name) : e.name? code = some name := by
  unfold enumOfCode at h
  split at h
  · next hname => rw [hname, Value.string.inj h]
  · cases h

end Decode

namespace Encode

variable {limits : Limits}
  {nested : StructDef → Value → String → Array Item → Except Fault Plan}

/-- A name is written as the code that it gives, and as no other. -/
theorem value_name_eq_ok {e : EnumDef} {name : String} (code : Int64) (path : String)
    (items : Array Item) :
    value limits nested (.enum e) (.string name) path items =
      .ok (item (.varint code.toUInt64) items) ↔ e.code? name = some code := by
  simp only [value, code?]
  cases e.code? name with
  | none => simp [ResolvedType.refuse]
  | some other =>
    rw [Option.some_inj]
    constructor
    · intro h
      obtain ⟨hitem, -⟩ := Array.push_eq_push.1 (congrArg Plan.items (Except.ok.inj h))
      rw [← Int64.toInt64_toUInt64 other, Item.varint.inj hitem, Int64.toInt64_toUInt64]
    · rintro rfl
      rfl

end Encode

namespace EnumDef

/-- The name of a code gives the code back exactly if it is not given again behind the last member
with the code, and so it always does where no name is given to two codes. What was decoded from
the code to the name is encoded as the code again in just these cases. -/
theorem code_of_name (e : EnumDef) :
    (∀ code name, e.name? code = some name →
      (e.code? name = some code ↔ ∀ m ∈ e.later code, m.name ≠ name)) ∧
    (e.Unambiguous → ∀ code name, e.name? code = some name → e.code? name = some code) ∧
    ∀ limits nested nested' c path name after items,
      Decode.value limits nested (.enum e) c path = .ok (.string name, after) →
        ∃ n, Decode.varint c path = .ok (n, after) ∧
          (Encode.value limits nested' (.enum e) (.string name) path items =
            .ok (Encode.item (.varint (UInt64.ofNat n)) items) ↔
              ∀ m ∈ e.later (UInt64.ofNat n).toInt64, m.name ≠ name) := by
  refine ⟨fun _ _ => code?_eq_some_iff, fun he _ _ => he.code?_eq_some, ?_⟩
  intro limits nested nested' c path name after items h
  obtain ⟨n, hn, hv⟩ := Decode.value_enum_eq_ok h
  refine ⟨n, hn, ?_⟩
  rw [← UInt64.toUInt64_toInt64 (UInt64.ofNat n), Encode.value_name_eq_ok,
    UInt64.toUInt64_toInt64, code?_eq_some_iff (Decode.enumOfCode_eq_string hv.symm)]

/-- Two names of one code, of which the later is read and written. -/
theorem code_of_name_shared :
    (⟨"E", [⟨"A", 1⟩, ⟨"B", 1⟩]⟩ : EnumDef).code? "B" = some 1 ∧
      ∃ n, Decode.varint ⟨[1], 0⟩ "e" = .ok (n, ⟨[1], 1⟩) ∧
        Encode.value {} (Encode.struct ⟨.empty, .empty⟩ {} 0) (.enum ⟨"E", [⟨"A", 1⟩, ⟨"B", 1⟩]⟩)
          (.string "B") "e" #[] = .ok (Encode.item (.varint (UInt64.ofNat n)) #[]) := by
  obtain ⟨hname, -, hwritten⟩ := code_of_name ⟨"E", [⟨"A", 1⟩, ⟨"B", 1⟩]⟩
  refine ⟨(hname 1 "B" (by decide)).2 (by decide), ?_⟩
  obtain ⟨n, hn, hiff⟩ := hwritten {} (Decode.struct ⟨.empty, .empty⟩ {} 0)
    (Encode.struct ⟨.empty, .empty⟩ {} 0) ⟨[1], 0⟩ "e" "B" ⟨[1], 1⟩ #[] (by rfl)
  refine ⟨n, hn, hiff.2 ?_⟩
  obtain ⟨rfl, -⟩ := Prod.mk.inj (Except.ok.inj ((show Decode.varint ⟨[1], 0⟩ "e" =
    .ok (1, ⟨[1], 1⟩) by rfl).symm.trans hn))
  decide

/-- A name that is given again, to another code: what is decoded from the first of its codes is
encoded as the second. -/
theorem code_of_name_repeated :
    ∃ d e w, Document.compile "enum E { A = 1; A = 2; } struct S { E e; }" = .ok d ∧
      d.enum? "E" = some e ∧ e.name? 1 = some "A" ∧ e.code? "A" = some 2 ∧
        d.decode {} "S" [1] 0 = .ok (w, 1) ∧ w.get? "e" = some (.string "A") ∧
          d.encode {} "S" w = .ok [2] := by
  refine ⟨⟨Table.ofList [("S", ⟨"S", [⟨"e", .named "E", none⟩], .empty⟩)],
    Table.ofList [("E", ⟨"E", [⟨"A", 1⟩, ⟨"A", 2⟩]⟩)]⟩, ⟨"E", [⟨"A", 1⟩, ⟨"A", 2⟩]⟩,
    .object (Table.ofList [("e", .string "A")]), ?_⟩
  refine ⟨by decide +kernel, by decide, by decide, by decide, by rfl, by rfl, by decide +kernel⟩

end EnumDef

end WireSchema
