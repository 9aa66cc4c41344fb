import Mathlib.Algebra.Group.Int.Defs
import WireSchema.Proofs.Schema.Parts

/-! The codes of an enum. An entry with a literal has that code and one without has the next code
after the entry before it, the first code being zero. The codes are those of the integers and
never wrap around: an enum is read just when its entries are well formed and all of its codes
have 64 bits. Of several members with one code or with one name the last is found. -/

namespace WireSchema

open Text (Blanks)

namespace Schema

/-! ### Codes -/

/-- The codes of entries with and without literals, `next` being that of one without. -/
def numbering : (next : Int) → (literals : List (Option Int)) → List Int
  | _, [] => []
  | next, literal :: more => literal.getD next :: numbering (literal.getD next + 1) more

/-- Whether an integer has 64 bits. -/
def Fits (n : Int) : Prop := -2 ^ 63 ≤ n ∧ n < 2 ^ 63

theorem fits_iff {n : Int} : Fits n ↔ ∃ code : Int64, code.toInt = n := by
  constructor
  · rintro ⟨hlow, hhigh⟩
    exact ⟨Int64.ofInt n, Int64.toInt_ofInt_of_le hlow hhigh⟩
  · rintro ⟨code, rfl⟩
    exact ⟨code.le_toInt, code.toInt_lt⟩

/-- No entry without a literal follows one that has the largest code. -/
def Roomy (next : Int) (literals : List (Option Int)) : Prop :=
  ∀ i : Nat, literals[i + 1]? = some none → (numbering next literals)[i]? ≠ some (2 ^ 63 - 1)

theorem roomy_cons {next : Int} {literal : Option Int} {more : List (Option Int)} :
    Roomy next (literal :: more) ↔
      (more[0]? = some none → literal.getD next ≠ 2 ^ 63 - 1) ∧
        Roomy (literal.getD next + 1) more := by
  constructor
  · exact fun h => ⟨fun hnone hmax => h 0 hnone (congrArg some hmax), fun i => h (i + 1)⟩
  · rintro ⟨hfirst, hlater⟩ (_ | i) hnone
    · exact fun hmax => hfirst hnone (Option.some.inj hmax)
    · exact hlater i hnone

/-- All codes have 64 bits just when the literals do and there is room for the others. -/
theorem numbering_fits_iff {next : Int} {literals : List (Option Int)} (hlow : -2 ^ 63 ≤ next) :
    (∀ n ∈ numbering next literals, Fits n) ↔
      (∀ n, some n ∈ literals → Fits n) ∧ (literals[0]? = some none → next < 2 ^ 63) ∧
        Roomy next literals := by
  induction literals generalizing next with
  | nil => simp [numbering, Roomy]
  | cons literal more ih =>
    rw [numbering, List.forall_mem_cons, roomy_cons]
    constructor
    · rintro ⟨hfits, hmore⟩
      obtain ⟨hlow', hhigh⟩ := hfits
      obtain ⟨hliterals, hnext, hlater⟩ := (ih (by omega)).1 hmore
      refine ⟨fun n hn => ?_, fun hnone => ?_, fun hnone => ?_, hlater⟩
      · obtain rfl | hn := List.mem_cons.1 hn
        · exact ⟨hlow', hhigh⟩
        · exact hliterals n hn
      · obtain rfl := Option.some.inj hnone
        exact hhigh
      · have := hnext hnone
        omega
    · rintro ⟨hliterals, hnext, hroom, hlater⟩
      have hfits : Fits (literal.getD next) := by
        cases literal with
        | none => exact ⟨hlow, hnext rfl⟩
        | some n => exact hliterals n List.mem_cons_self
      obtain ⟨hlow', hhigh⟩ := hfits
      refine ⟨⟨hlow', hhigh⟩, (ih (by omega)).2 ⟨fun n hn => ?_, fun hnone => ?_, hlater⟩⟩
      · exact hliterals n (List.mem_cons_of_mem _ hn)
      · have := hroom hnone
        omega

/-! ### Entries -/

/-- An entry as it is written: a name, and perhaps an integer behind an equals sign. -/
inductive Spells : (part : List Char) → (entry : String × Option Int) → Prop
  | bare {name : String} (ident : Text.isIdentifier name.toList) : Spells name.toList (name, none)
  | coded {name : String} {first second literal : List Char} {n : Int}
      (ident : Text.isIdentifier name.toList) (hfirst : Blanks first) (hsecond : Blanks second)
      (integer : Grammar.Integer n literal) :
      Spells (name.toList ++ (first ++ '=' :: (second ++ literal))) (name, some n)

/-- The next code, where there is one, is that of an integer. -/
def Continues (next? : Option Int64) (next : Int) : Prop :=
  ∀ code, next? = some code ↔ code.toInt = next

theorem continues_zero : Continues (some 0) 0 := fun code => by
  rw [Option.some_inj, ← Int64.toInt_inj, eq_comm]
  rfl

theorem continues_successor (code : Int64) : Continues (successor? code) (code.toInt + 1) := by
  intro after
  refine ⟨fun h => ?_, Grammar.successor?_eq_some⟩
  have hmax : code.toInt ≠ 2 ^ 63 - 1 := by
    intro hmax
    obtain rfl : code = Int64.maxValue := Int64.toInt_inj.1 hmax
    cases h
  have hlow := code.le_toInt
  have hhigh := code.toInt_lt
  obtain ⟨other, hother⟩ := fits_iff.1 (show Fits (code.toInt + 1) from ⟨by omega, by omega⟩)
  rw [Grammar.successor?_eq_some hother] at h
  exact Option.some.inj h ▸ hother

/-- What an entry is read as, `next` being the code of one without a literal. -/
theorem entry_iff {next? : Option Int64} {next : Int} {part : List Char} {name : String}
    {code : Int64} (hnext : Continues next? next) (htrim : Text.Trimmed part) :
    (∃ literal, Entry name.toList literal part ∧
        literal.elim next? Text.int64? = some code) ↔
      ∃ n, Spells part (name, n) ∧ n.getD next = code.toInt := by
  constructor
  · rintro ⟨_, hentry, hcode⟩
    cases hentry with
    | bare ident hspace =>
      rw [htrim.eq_nil_of_append hspace, List.append_nil]
      exact ⟨none, .bare ident, ((hnext code).1 hcode).symm⟩
    | coded ident hfirst hsecond digits =>
      have hinteger := Grammar.Integer.of_int64? digits hcode
      exact ⟨some code.toInt, .coded ident hfirst hsecond hinteger, rfl⟩
  · rintro ⟨_, hspells, hcode⟩
    cases hspells with
    | bare ident =>
      have hentry := Entry.bare ident Blanks.nil
      rw [List.append_nil] at hentry
      exact ⟨none, hentry, (hnext code).2 hcode.symm⟩
    | coded ident hfirst hsecond integer =>
      obtain rfl : _ = code.toInt := hcode
      exact ⟨_, .coded ident hfirst hsecond integer.isLiteral, integer.int64?⟩

/-- Members have the names and the codes of entries. -/
structure Numbers (next : Int) (entries : List (String × Option Int)) (ms : List Member) :
    Prop where
  names : ms.map (·.name) = entries.map Prod.fst
  codes : ms.map (·.code.toInt) = numbering next (entries.map Prod.snd)

theorem entries_iff {next? : Option Int64} {next : Int} {parts : List (List Char)}
    {ms : List Member} (hnext : Continues next? next) (htrim : ∀ part ∈ parts, Text.Trimmed part) :
    Entries next? parts ms ↔
      ∃ entries, List.Forall₂ Spells parts entries ∧ Numbers next entries ms := by
  constructor
  · intro h
    induction h generalizing next with
    | nil => exact ⟨[], .nil, rfl, rfl⟩
    | @cons _ name part literal code parts ms hentry hcode _ ih =>
      rw [List.forall_mem_cons] at htrim
      obtain ⟨entries, hspells, hnumbers⟩ := ih (continues_successor code) htrim.2
      have hread : Entry (String.ofList name).toList literal part := by rwa [String.toList_ofList]
      obtain ⟨n, hspell, hn⟩ := (entry_iff hnext htrim.1).1 ⟨literal, hread, hcode⟩
      refine ⟨(_, n) :: entries, .cons hspell hspells, ?_, ?_⟩
      · rw [List.map_cons, List.map_cons, hnumbers.names]
      · rw [List.map_cons, List.map_cons, numbering, hnumbers.codes, hn]
  · rintro ⟨entries, hspells, hnumbers⟩
    induction hspells generalizing next? next ms with
    | nil =>
      obtain rfl := List.map_eq_nil_iff.1 hnumbers.names
      exact .nil
    | @cons part entry parts entries hspell _ ih =>
      obtain ⟨name, n⟩ := entry
      rw [List.forall_mem_cons] at htrim
      obtain ⟨⟨_, code⟩, ms, rfl, rfl, hnames⟩ := List.map_eq_cons_iff.1 hnumbers.names
      obtain ⟨hn, hcodes⟩ : code.toInt = n.getD next ∧
          ms.map (·.code.toInt) = numbering (n.getD next + 1) (entries.map Prod.snd) :=
        List.cons.inj hnumbers.codes
      rw [← hn] at hcodes
      obtain ⟨literal, hentry, hcode⟩ := (entry_iff hnext htrim.1).2 ⟨n, hspell, hn.symm⟩
      have hmore := ih (continues_successor code) htrim.2 ⟨hnames, hcodes⟩
      have hread := Entries.cons hentry hcode hmore
      rwa [String.ofList_toList] at hread

/-- Codes of 64 bits are those of members. -/
theorem exists_numbers {next : Int} {entries : List (String × Option Int)}
    (h : ∀ n ∈ numbering next (entries.map Prod.snd), Fits n) : ∃ ms, Numbers next entries ms := by
  induction entries generalizing next with
  | nil => exact ⟨[], rfl, rfl⟩
  | cons entry entries ih =>
    rw [List.map_cons, numbering, List.forall_mem_cons] at h
    obtain ⟨ms, hnames, hcodes⟩ := ih h.2
    obtain ⟨code, hcode⟩ := fits_iff.1 h.1
    refine ⟨⟨entry.1, code⟩ :: ms, ?_, ?_⟩
    · rw [List.map_cons, List.map_cons, hnames]
    · rw [List.map_cons, List.map_cons, numbering, hcodes, hcode]

theorem Numbers.fits {next : Int} {entries : List (String × Option Int)} {ms : List Member}
    (h : Numbers next entries ms) : ∀ n ∈ numbering next (entries.map Prod.snd), Fits n := by
  rw [← h.codes]
  intro n hn
  obtain ⟨m, -, rfl⟩ := List.mem_map.1 hn
  exact fits_iff.2 ⟨m.code, rfl⟩

theorem trimmed_of_mem_segments {body part : List Char} (h : part ∈ segments body) :
    Text.Trimmed part := by
  obtain ⟨whole, -, rfl⟩ := List.mem_map.1 (List.mem_filter.1 h).1
  exact Text.trimmed_trim whole

end Schema

/-! ### Lookups -/

/-- The last item with a property, if there is one. -/
theorem find?_reverse_eq_some {α : Type} {items : List α} {p : α → Bool} {a : α} :
    items.reverse.find? p = some a ↔
      p a ∧ ∃ before after, items = before ++ a :: after ∧ ∀ b ∈ after, ¬p b := by
  rw [List.find?_eq_some_iff_append]
  refine and_congr_right fun _ => ⟨?_, ?_⟩
  · rintro ⟨after, before, hitems, hafter⟩
    refine ⟨before.reverse, after.reverse, ?_, by simpa using hafter⟩
    rw [← items.reverse_reverse, hitems]
    simp
  · rintro ⟨before, after, rfl, hafter⟩
    exact ⟨after.reverse, before.reverse, by simp, by simpa using hafter⟩

namespace EnumDef

variable {e : EnumDef} {name : String} {code : Int64}

theorem name?_eq_some : e.name? code = some name ↔
    ∃ before after, e.members = before ++ ⟨name, code⟩ :: after ∧ ∀ m ∈ after, m.code ≠ code := by
  rw [name?, Option.map_eq_some_iff]
  simp only [find?_reverse_eq_some, beq_iff_eq]
  constructor
  · rintro ⟨m, ⟨rfl, hlast⟩, rfl⟩
    exact hlast
  · exact fun h => ⟨⟨name, code⟩, ⟨rfl, h⟩, rfl⟩

theorem code?_eq_some : e.code? name = some code ↔
    ∃ before after, e.members = before ++ ⟨name, code⟩ :: after ∧ ∀ m ∈ after, m.name ≠ name := by
  rw [code?, Option.map_eq_some_iff]
  simp only [find?_reverse_eq_some, beq_iff_eq]
  constructor
  · rintro ⟨m, ⟨rfl, hlast⟩, rfl⟩
    exact hlast
  · exact fun h => ⟨⟨name, code⟩, ⟨rfl, h⟩, rfl⟩

end EnumDef

namespace Schema

/-- A body of entries is an enum just when each entry is a name, perhaps with an integer of 64 bits,
and none without an integer follows one that has the largest code. Its members are the entries in
order with the codes that they give or else the next ones; the name of a code is that of the last
member with the code, and the code of a name that of the last member with the name. -/
theorem enum_numbering (text : List Char) (offset : Nat) (b : Block) :
    ((∃ e, enumOfBlock text offset b = .ok e) ↔
      ∃ entries, List.Forall₂ Spells (segments b.body) entries ∧
        (∀ n, some n ∈ entries.map Prod.snd → Fits n) ∧ Roomy 0 (entries.map Prod.snd)) ∧
    ∀ e, enumOfBlock text offset b = .ok e → e.name = b.name ∧
      (∃ entries, List.Forall₂ Spells (segments b.body) entries ∧ Numbers 0 entries e.members) ∧
      (∀ code name, e.name? code = some name ↔ ∃ before after,
        e.members = before ++ ⟨name, code⟩ :: after ∧ ∀ m ∈ after, m.code ≠ code) ∧
      ∀ name code, e.code? name = some code ↔ ∃ before after,
        e.members = before ++ ⟨name, code⟩ :: after ∧ ∀ m ∈ after, m.name ≠ name := by
  have hentries (ms : List Member) : Entries (some 0) (segments b.body) ms ↔
      ∃ entries, List.Forall₂ Spells (segments b.body) entries ∧ Numbers 0 entries ms :=
    entries_iff continues_zero fun _ => trimmed_of_mem_segments
  refine ⟨⟨?_, ?_⟩, fun e he => ⟨(enumOfBlock_eq_ok.1 he).name, ?_,
    fun _ _ => EnumDef.name?_eq_some, fun _ _ => EnumDef.code?_eq_some⟩⟩
  · rintro ⟨e, he⟩
    obtain ⟨entries, hspells, hnumbers⟩ := (hentries _).1 (enumOfBlock_eq_ok.1 he).members
    obtain ⟨hfits, -, hroomy⟩ := (numbering_fits_iff (by decide)).1 hnumbers.fits
    exact ⟨entries, hspells, hfits, hroomy⟩
  · rintro ⟨entries, hspells, hfits, hroomy⟩
    obtain ⟨ms, hnumbers⟩ := exists_numbers
      ((numbering_fits_iff (by decide)).2 ⟨hfits, fun _ => by decide, hroomy⟩)
    exact ⟨⟨b.name, ms⟩, enumOfBlock_eq_ok.2 ⟨rfl, (hentries ms).2 ⟨entries, hspells, hnumbers⟩⟩⟩
  · exact (hentries _).1 (enumOfBlock_eq_ok.1 he).members

/-- The largest code may stand before a literal, and a later member hides an earlier one. -/
theorem enum_numbering_sample :
    let b : Block := ⟨"E", 8, "A; B = 7;; A = -05 ; Z = 9223372036854775807 ; C=7".toList, true⟩
    let e : EnumDef := ⟨"E", [⟨"A", 0⟩, ⟨"B", 7⟩, ⟨"A", -5⟩, ⟨"Z", 9223372036854775807⟩, ⟨"C", 7⟩]⟩
    enumOfBlock [] 0 b = .ok e ∧
      (∃ entries, List.Forall₂ Spells (segments b.body) entries ∧ Numbers 0 entries e.members) ∧
      e.name? 7 = some "C" ∧ e.code? "A" = some (-5) := by
  intro b e
  have he : enumOfBlock [] 0 b = .ok e := by decide +kernel
  obtain ⟨-, hentries, hnames, hcodes⟩ := (enum_numbering [] 0 b).2 e he
  exact ⟨he, hentries, (hnames 7 "C").2 ⟨e.members.take 4, [], rfl, by simp⟩,
    (hcodes "A" (-5)).2 ⟨e.members.take 2, e.members.drop 3, rfl, by decide⟩⟩

end Schema

end WireSchema
