import WireSchema.CommandLine.FileSystem
import WireSchema.Proofs.Outcome

/-! What writing does to the files of a system. All that is written goes to one place, at which
there is no folder and no link, so that paths lead where they led before. What is there
afterwards depends on the room: all bytes, or the first ones up to where they did not fit. -/

namespace WireSchema

open Outcome

/-- So many bytes fit. -/
def Access.Admits (access : Access) (n : Nat) : Prop :=
  ∀ size fault, access.room = some (size, fault) → n ≤ size

/-- The room, if so many bytes do not fit. -/
def Access.short? (access : Access) (n : Nat) : Option (Nat × DiskFault) :=
  access.room.filter fun room => room.1 < n

theorem Access.short?_eq_some {access : Access} {n size : Nat} {fault : DiskFault} :
    access.short? n = some (size, fault) ↔ access.room = some (size, fault) ∧ size < n := by
  simp [short?, Option.filter_eq_some_iff]

theorem Access.short?_eq_none {access : Access} {n : Nat} :
    access.short? n = none ↔ access.Admits n := by
  simp [short?, Admits, Option.filter_eq_none_iff]

/-- One call takes all that there is room for, which is something unless the room is used up. -/
theorem Access.takes_cases {access : Access} {front rest : Nat} (hfits : access.Admits front)
    (hrest : 0 < rest) :
    (∃ n, access.takes front rest = .ok (n + 1) ∧ n + 1 ≤ rest ∧
      access.Admits (front + (n + 1))) ∨
    ∃ fault, access.takes front rest = .error fault ∧ access.room = some (front, fault) := by
  rw [Access.takes]
  cases hroom : access.room with
  | none => exact .inl ⟨rest - 1, by simp; omega, by omega, by simp [Admits, hroom]⟩
  | some room =>
    obtain ⟨size, fault⟩ := room
    have hsize := hfits size fault hroom
    by_cases hlt : front < size
    · refine .inl ⟨min rest (size - front) - 1, ?_, by omega, ?_⟩
      · simp only [if_pos hlt, Except.ok.injEq]
        omega
      · intro size' fault' hroom'
        obtain ⟨rfl, -⟩ := Prod.mk.inj (Option.some.inj (hroom.symm.trans hroom'))
        omega
    · obtain rfl : front = size := by omega
      exact .inr ⟨fault, if_neg hlt, rfl⟩

namespace FileSystem

/-- A device is at the place. -/
def IsDevice (s : FileSystem) (p : Place) : Prop :=
  ∃ access bytes, s.node? p = some (.device access bytes)

/-- A path can be opened for writing, and there is room for the bytes. -/
def Takes (s : FileSystem) (text : String) (bytes : List UInt8) : Prop :=
  ∃ h, s.handle text = .ok h ∧ h.access.Admits bytes.length

variable {s t : FileSystem} {p q : Place} {h : FileHandle} {text : String}
  {bytes a b : List UInt8}

theorem handle_eq_ok :
    s.handle text = .ok h ↔ s.place text = .ok h.place ∧ s.accessAt h.place = .ok h.access := by
  simp only [handle, bind_eq_ok, Except.ok.injEq]
  constructor
  · rintro ⟨p, hp, access, haccess, rfl⟩
    exact ⟨hp, haccess⟩
  · rintro ⟨hp, haccess⟩
    exact ⟨_, hp, _, haccess, rfl⟩

/-- Neither a folder nor a link is opened for writing. -/
theorem node?_of_accessAt {access : Access} (ha : s.accessAt p = .ok access) :
    (∀ folder, s.node? p ≠ some (.folder folder)) ∧ ∀ target, s.node? p ≠ some (.link target) := by
  rw [accessAt] at ha
  constructor
  · intro folder hnode
    rw [hnode] at ha
    cases ha
  · intro target hnode
    rw [hnode] at ha
    cases ha

/-! ### What is at a place after writing -/

@[simp] theorem node?_put (s : FileSystem) (p q : Place) (n : Node) :
    (s.put p n).node? q = if q = p then some n else s.node? q := rfl

@[simp] theorem put_put (s : FileSystem) (p : Place) (n n' : Node) :
    (s.put p n).put p n' = s.put p n' := by
  simp only [put, mk.injEq, true_and]
  funext q
  by_cases hq : q = p <;> simp [hq]

theorem keep_of_isDevice (hd : s.IsDevice h.place) (bytes : List UInt8) : s.keep h bytes = s := by
  obtain ⟨access, given, hnode⟩ := hd
  rw [keep, hnode]

theorem keep_of_not_isDevice (hd : ¬s.IsDevice h.place) (bytes : List UInt8) :
    s.keep h bytes = s.put h.place (.file h.access bytes) := by
  rw [keep]
  split
  · next access given hnode => exact absurd ⟨access, given, hnode⟩ hd
  · rfl

theorem not_isDevice_put {access : Access} : ¬(s.put p (.file access bytes)).IsDevice p := by
  rintro ⟨access, given, hnode⟩
  simp at hnode

/-- A file holds what was written to it last. -/
theorem keep_keep (s : FileSystem) (h : FileHandle) (a b : List UInt8) :
    (s.keep h a).keep h b = s.keep h b := by
  by_cases hd : s.IsDevice h.place
  · rw [keep_of_isDevice hd a]
  · rw [keep_of_not_isDevice hd, keep_of_not_isDevice hd, keep_of_not_isDevice not_isDevice_put,
      put_put]

/-- What is written next goes behind what is there. -/
theorem keep_held (s : FileSystem) (h : FileHandle) (a b : List UInt8) :
    (s.keep h a).keep h ((s.keep h a).held h.place ++ b) = s.keep h (a ++ b) := by
  rw [keep_keep]
  by_cases hd : s.IsDevice h.place
  · rw [keep_of_isDevice hd, keep_of_isDevice hd]
  · rw [keep_of_not_isDevice hd a, held, node?_put, if_pos rfl]

theorem node?_keep (hd : ¬s.IsDevice h.place) :
    (s.keep h bytes).node? h.place = some (.file h.access bytes) := by
  rw [keep_of_not_isDevice hd, node?_put, if_pos rfl]

theorem node?_keep_of_ne (hq : q ≠ h.place) : (s.keep h bytes).node? q = s.node? q := by
  by_cases hd : s.IsDevice h.place
  · rw [keep_of_isDevice hd]
  · rw [keep_of_not_isDevice hd, node?_put, if_neg hq]

/-! ### Where paths lead after writing -/

/-- The second system has the folders and links of the first one. -/
structure SameFolders (s t : FileSystem) : Prop where
  here : t.here = s.here
  folder : ∀ p access, s.node? p = some (.folder access) → t.node? p = some (.folder access)
  link : ∀ p target, t.node? p = some (.link target) ↔ s.node? p = some (.link target)

theorem sameFolders_keep (ha : s.accessAt h.place = .ok h.access) :
    SameFolders s (s.keep h bytes) := by
  by_cases hd : s.IsDevice h.place
  · rw [keep_of_isDevice hd]
    exact ⟨rfl, fun _ _ hp => hp, fun _ _ => Iff.rfl⟩
  · obtain ⟨hfolder, hlink⟩ := node?_of_accessAt ha
    rw [keep_of_not_isDevice hd]
    refine ⟨rfl, fun p access hp => ?_, fun p target => ?_⟩
    · have hq : p ≠ h.place := fun hq => hfolder access (hq ▸ hp)
      rw [node?_put, if_neg hq, hp]
    · by_cases hq : p = h.place
      · subst hq
        simp [hlink]
      · rw [node?_put, if_neg hq]

namespace SameFolders

variable (hst : SameFolders s t)
include hst

theorem search (hp : s.search p = .ok ()) : t.search p = .ok () := by
  rw [FileSystem.search] at hp ⊢
  split at hp
  · next access hnode =>
    rw [hst.folder p access hnode]
    exact hp
  · cases hp
  · cases hp

theorem resolve (p : Place) (name : String) : t.resolve p name = s.resolve p name := by
  rw [FileSystem.resolve, FileSystem.resolve]
  by_cases hlink : ∃ target, s.node? (p ++ [name]) = some (.link target)
  · obtain ⟨target, htarget⟩ := hlink
    rw [htarget, (hst.link _ target).2 htarget]
  · congr 1
    split
    · next target htarget => exact absurd ⟨target, (hst.link _ target).1 htarget⟩ hlink
    · split
      · next target htarget => exact absurd ⟨target, htarget⟩ hlink
      · rfl

theorem step {move : Step} (hp : s.step p move = .ok q) : t.step p move = .ok q := by
  obtain ⟨_, hsearch, hmove⟩ := bind_eq_ok.1 hp
  unfold FileSystem.step
  rw [hst.search hsearch, ok_bind]
  cases move with
  | stay => exact hmove
  | up => exact hmove
  | into name => exact (hst.resolve p name).trans hmove

theorem walk {path : Path} (hp : s.walk path = .ok p) : t.walk path = .ok p := by
  obtain ⟨last, hsteps, hlast⟩ := bind_eq_ok.1 hp
  rw [FileSystem.walk, hst.here, foldlM_eq_ok_of (fun _ _ _ => hst.step) hsteps, ok_bind]
  split at hlast
  · next hname =>
    obtain ⟨_, hsearch, hlast⟩ := bind_eq_ok.1 hlast
    rw [if_pos hname, hst.search hsearch, ok_bind]
    exact hlast
  · next hname =>
    rw [if_neg hname]
    exact hlast

/-- A path leads to the place where it led. -/
theorem place (hp : s.place text = .ok p) : t.place text = .ok p := by
  obtain ⟨path, hpath, hplace⟩ := bind_eq_ok.1 hp
  obtain ⟨last, hwalk, hplace⟩ := bind_eq_ok.1 hplace
  rw [FileSystem.place, hpath, ok_bind, hst.walk hwalk, ok_bind]
  simp only [hst.resolve]
  exact hplace

end SameFolders

/-! ### Reading -/

theorem contents_closed_ne : s.contents true p ≠ .ok bytes := by
  rw [contents]
  cases s.node? p with
  | none => simp
  | some n => cases n <;> simp

/-- What can be read is in a file, and could be written there. -/
theorem read_eq_ok :
    s.read text = .ok bytes ↔ ∃ p, s.place text = .ok p ∧ s.contents false p = .ok bytes := by
  simp only [read, place, bind_eq_ok]
  constructor
  · rintro ⟨path, hpath, p, hp, hread⟩
    split at hread
    · exact absurd hread contents_closed_ne
    · next name hname =>
      obtain ⟨q, hq, hread⟩ := bind_eq_ok.1 hread
      cases hclosed : path.closed with
      | true =>
        rw [hclosed] at hread
        exact absurd hread contents_closed_ne
      | false =>
        rw [hclosed] at hread
        refine ⟨q, ⟨path, hpath, p, hp, ?_⟩, hread⟩
        rw [hname, hclosed]
        exact hq
  · rintro ⟨q, ⟨path, hpath, p, hp, hq⟩, hread⟩
    refine ⟨path, hpath, p, hp, ?_⟩
    split at hq
    · next name hname hclosed =>
      rw [hname, hclosed]
      simp only [hq, ok_bind]
      exact hread
    · cases hq

theorem contents_congr (hnode : t.node? p = s.node? p) (closed : Bool) :
    t.contents closed p = s.contents closed p := by
  rw [contents, contents, hnode]

/-- A file that can be read gives what was written to it. -/
theorem read_keep (hh : s.handle text = .ok h) (hd : ¬s.IsDevice h.place)
    (hreading : h.access.reading = none) : (s.keep h bytes).read text = .ok bytes := by
  obtain ⟨hplace, haccess⟩ := handle_eq_ok.1 hh
  refine read_eq_ok.2 ⟨h.place, (sameFolders_keep haccess).place hplace, ?_⟩
  rw [contents, node?_keep hd]
  simp [hreading, permit]

/-- Other files give what they gave before. -/
theorem read_keep_of_ne (ha : s.accessAt h.place = .ok h.access) (hne : s.place text ≠ .ok h.place)
    (hread : s.read text = .ok a) : (s.keep h bytes).read text = .ok a := by
  obtain ⟨p, hplace, hcontents⟩ := read_eq_ok.1 hread
  refine read_eq_ok.2 ⟨p, (sameFolders_keep ha).place hplace, ?_⟩
  have hp : p ≠ h.place := fun he => hne (he ▸ hplace)
  rw [contents_congr (node?_keep_of_ne hp), hcontents]

/-! ### Writing -/

/-- What comes of writing through a handle: all bytes are written, or those that fit and then a
fault. -/
def written (s : FileSystem) (h : FileHandle) (bytes : List UInt8) :
    Except DiskFault Unit × FileSystem :=
  match h.access.short? bytes.length with
  | none => (.ok (), s.keep h bytes)
  | some (size, fault) => (.error fault, s.keep h (bytes.take size))

theorem written_of_admits (hroom : h.access.Admits bytes.length) :
    s.written h bytes = (.ok (), s.keep h bytes) := by
  rw [written, Access.short?_eq_none.2 hroom]

theorem run_attempt_bind {α β : Type} (f : FileSystem → Except DiskFault (α × FileSystem))
    (g : Except DiskFault α → StateM FileSystem β) (s : FileSystem) :
    (attempt f >>= g).run s = match f s with
      | .ok (a, after) => (g (.ok a)).run after
      | .error fault => (g (.error fault)).run s := by
  rw [attempt, StateT.run_bind, StateT.run_bind, StateT.run_get, pure_bind]
  rcases f s with fault | ⟨a, after⟩ <;> rfl

theorem run_append_bind {β : Type} (s : FileSystem) (h : FileHandle) (front bytes : List UInt8)
    (g : Except DiskFault Nat → StateM FileSystem β) :
    (disk.append h front.length bytes >>= g).run (s.keep h front) =
      match h.access.takes front.length bytes.length with
      | .ok n => (g (.ok n)).run (s.keep h (front ++ bytes.take n))
      | .error fault => (g (.error fault)).run (s.keep h front) := by
  refine (run_attempt_bind _ g _).trans ?_
  rw [append]
  cases h.access.takes front.length bytes.length with
  | error fault => rfl
  | ok n => simp only [ok_bind, keep_held]

/-- The writing goes on until all is written or no room is left. It has come through `front`, and
the bytes behind it may be written in part. -/
theorem run_writeAll (s : FileSystem) (h : FileHandle) (bytes : List UInt8) :
    ∀ (front : List UInt8) (taken : Nat),
      h.access.Admits (front ++ bytes.take taken).length →
      (disk.writeAll h front.length taken bytes).run (s.keep h (front ++ bytes.take taken)) =
        s.written h (front ++ bytes) := by
  induction bytes with
  | nil =>
    intro front taken hfits
    rw [List.take_nil, List.append_nil] at hfits ⊢
    rw [written_of_admits hfits]
    rfl
  | cons byte more ih =>
    -- the next byte is taken in both cases, now or before
    have htaken : ∀ front taken,
        h.access.Admits (front ++ (byte :: more).take (taken + 1)).length →
        (disk.writeAll h (front.length + 1) taken more).run
          (s.keep h (front ++ (byte :: more).take (taken + 1))) =
            s.written h (front ++ byte :: more) := by
      intro front taken hfits
      have hnext := ih (front ++ [byte]) taken
      simp only [List.append_assoc, List.singleton_append, List.length_append,
        List.length_singleton] at hnext
      exact hnext (by simpa using hfits)
    intro front taken hfits
    cases taken with
    | succ taken => exact htaken front taken hfits
    | zero =>
      rw [List.take_zero, List.append_nil] at hfits ⊢
      refine (run_append_bind s h front (byte :: more) _).trans ?_
      have hmore : 0 < (byte :: more).length := Nat.succ_pos _
      obtain ⟨n, hn, hle, hroom⟩ | ⟨fault, hn, hroom⟩ := Access.takes_cases hfits hmore
      · rw [hn]
        refine htaken front n ?_
        rwa [List.length_append, List.length_take, Nat.min_eq_left hle]
      · have hshort : h.access.short? (front ++ byte :: more).length =
            some (front.length, fault) := Access.short?_eq_some.2 ⟨hroom, by simp⟩
        rw [hn, written, hshort]
        simp only [List.take_left]
        rfl

/-- Writing fails where the file is not opened, and then changes nothing. -/
theorem run_write (s : FileSystem) (text : String) (bytes : List UInt8) :
    (disk.write text bytes).run s = match s.handle text with
      | .error fault => (.error fault, s)
      | .ok h => s.written h bytes := by
  refine (run_attempt_bind _ _ s).trans ?_
  rw [create]
  cases s.handle text with
  | error fault => rfl
  | ok h => exact run_writeAll s h bytes [] 0 fun _ _ _ => Nat.zero_le _

end FileSystem

end WireSchema
