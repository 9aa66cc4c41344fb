import Mathlib.Control.Monad.Basic
import WireSchema.CommandLine.Session
import WireSchema.Proofs.CommandLine.Run
import WireSchema.Proofs.Json.ReadBack
import WireSchema.Proofs.Text.Utf8

/-! Runs of command lines. An encoding that writes to an ordinary file leaves it with the bytes
that it would have put out. One that fails changes no file, unless the file was opened and had
too little room: then it holds the first of the bytes. -/

namespace WireSchema

open Outcome

namespace Session

variable {words : List String} {s : FileSystem} {schema name input : String} {limits : Limits}

theorem runIn_of_parse {c : Command} (h : Command.parse words = some c) (s : FileSystem) :
    runIn words s = (ofOutcome (c.runIn s).1, (c.runIn s).2) := by
  rw [runIn, h]

/-- Without a file to write to, the bytes are put out. -/
theorem runIn_encode_out
    (h : Command.parse words = some (.encode schema name input none limits)) (s : FileSystem) :
    runIn words s = (ofOutcome ((s.encoded schema name input limits).map .bytes), s) := by
  rw [runIn_of_parse h, Command.runIn_encode]
  cases s.encoded schema name input limits with
  | error => rfl
  | ok bytes => rfl

theorem runIn_decode {offset : UInt64}
    (h : Command.parse words = some (.decode schema name input offset limits)) (s : FileSystem) :
    runIn words s = (ofOutcome (s.decoded schema name input offset limits), s) := by
  rw [runIn_of_parse h, Command.runIn, Command.finds_decode]

/-- A schema and bytes that are there, and what decoding them shows. -/
theorem runIn_decode_of_read {document : Document} {bytes : List UInt8} {offset : UInt64}
    (h : Command.parse words = some (.decode schema name input offset limits))
    (hschema : s.HasSchema schema document) (hbytes : s.read input = .ok bytes) :
    runIn words s = (ofOutcome ((document.decode limits name bytes offset.toNat).map fun read =>
      Command.display (.ofValue read.1)), s) := by
  rw [runIn_decode h, FileSystem.decoded, FileSystem.readSchema_eq_ok.2 hschema, ok_bind,
    FileSystem.readBytes, hbytes]
  rfl

/-! ### All the ways in which an encoding into a file ends -/

/-- The first bytes of an encoding are in the file that it was written to, which had no room for
the others. -/
def Cut (s : FileSystem) (schema name input output : String) (limits : Limits) (fault : Fault)
    (after : FileSystem) : Prop :=
  ∃ h bytes size reason, s.Encodes schema name input limits bytes ∧ s.handle output = .ok h ∧
    h.access.room = some (size, reason) ∧ size < bytes.length ∧ fault = .disk reason ∧
    after = s.keep h (bytes.take size)

/-- How an encoding into a file ends, and what becomes of the files. -/
inductive Ends (s : FileSystem) (schema name input output : String) (limits : Limits) :
    Session → FileSystem → Prop
  | unread {fault : Fault} (hb : ∀ bytes, ¬s.Encodes schema name input limits bytes) :
      Ends s schema name input output limits (ofOutcome (.error fault)) s
  | unopened {fault : Fault} (hh : ∀ h, s.handle output ≠ .ok h) :
      Ends s schema name input output limits (ofOutcome (.error fault)) s
  | cut {fault : Fault} {after : FileSystem}
      (hcut : Cut s schema name input output limits fault after) :
      Ends s schema name input output limits (ofOutcome (.error fault)) after
  | stored {h : FileHandle} {bytes : List UInt8}
      (hb : s.Encodes schema name input limits bytes) (hh : s.handle output = .ok h)
      (hroom : h.access.Admits bytes.length) :
      Ends s schema name input output limits ⟨0, .nothing, ""⟩ (s.keep h bytes)

theorem runIn_ends {output : String}
    (h : Command.parse words = some (.encode schema name input (some output) limits))
    (s : FileSystem) :
    Ends s schema name input output limits (runIn words s).1 (runIn words s).2 := by
  rw [runIn_of_parse h, Command.runIn_encode]
  cases hencoded : s.encoded schema name input limits with
  | error fault =>
    refine .unread fun bytes hbytes => ?_
    rw [FileSystem.encoded_eq_ok.2 hbytes] at hencoded
    cases hencoded
  | ok bytes =>
    have hbytes := FileSystem.encoded_eq_ok.1 hencoded
    dsimp only
    rw [Command.writeOut_file]
    cases hhandle : s.handle output with
    | error fault => exact .unopened (by simp [hhandle])
    | ok h =>
      dsimp only
      cases hshort : h.access.short? bytes.length with
      | none => exact .stored hbytes hhandle (Access.short?_eq_none.1 hshort)
      | some room =>
        obtain ⟨hroom, hsize⟩ := Access.short?_eq_some.1 hshort
        exact .cut ⟨h, bytes, room.1, room.2, hbytes, hhandle, hroom, hsize, rfl, rfl⟩

namespace Ends

variable {output : String} {session : Session} {after : FileSystem}
  (he : Ends s schema name input output limits session after)
include he

theorem exitCode_eq_zero :
    session.exitCode = 0 ↔
      ∃ bytes, s.Encodes schema name input limits bytes ∧ s.Takes output bytes := by
  cases he with
  | unread hb => simp [ofOutcome, hb]
  | unopened hh => simp [ofOutcome, FileSystem.Takes, hh]
  | cut hcut =>
    obtain ⟨h, bytes, size, reason, hb, hh, hroom, hsize, -, -⟩ := hcut
    refine iff_of_false (by simp [ofOutcome]) ?_
    rintro ⟨bytes', hb', h', hh', hadmits⟩
    obtain rfl := hb.unique hb'
    obtain rfl := Except.ok.inj (hh.symm.trans hh')
    exact absurd (hadmits size reason hroom) (Nat.not_le.2 hsize)
  | stored hb hh hroom => exact iff_of_true rfl ⟨_, hb, _, hh, hroom⟩

/-- A run that ends well has written all bytes. -/
theorem eq_of_exitCode (hzero : session.exitCode = 0) {h : FileHandle} {bytes : List UInt8}
    (hh : s.handle output = .ok h) (hb : s.Encodes schema name input limits bytes) :
    session = ⟨0, .nothing, ""⟩ ∧ after = s.keep h bytes := by
  cases he with
  | unread _ => cases hzero
  | unopened _ => cases hzero
  | cut _ => cases hzero
  | stored hb' hh' _ =>
    obtain rfl := hb.unique hb'
    obtain rfl := Except.ok.inj (hh.symm.trans hh')
    exact ⟨rfl, rfl⟩

/-- Nothing is written elsewhere. -/
theorem eq_or_keep : after = s ∨ ∃ h bytes, s.handle output = .ok h ∧ after = s.keep h bytes := by
  cases he with
  | unread _ => exact .inl rfl
  | unopened _ => exact .inl rfl
  | cut hcut =>
    obtain ⟨h, bytes, size, -, -, hh, -, -, -, hafter⟩ := hcut
    exact .inr ⟨h, _, hh, hafter⟩
  | stored _ hh _ => exact .inr ⟨_, _, hh, rfl⟩

/-- A run ends with what fits where not all bytes fit. -/
theorem eq_of_short {h : FileHandle} {bytes : List UInt8} {size : Nat} {reason : DiskFault}
    (hb : s.Encodes schema name input limits bytes) (hh : s.handle output = .ok h)
    (hroom : h.access.room = some (size, reason)) (hsize : size < bytes.length) :
    session = ofOutcome (.error (.disk reason)) ∧ after = s.keep h (bytes.take size) := by
  cases he with
  | unread hnone => exact absurd hb (hnone bytes)
  | unopened hnone => exact absurd hh (hnone h)
  | cut hcut =>
    obtain ⟨h', bytes', size', reason', hb', hh', hroom', -, rfl, hafter⟩ := hcut
    obtain rfl := hb.unique hb'
    obtain rfl := Except.ok.inj (hh.symm.trans hh')
    obtain ⟨rfl, rfl⟩ := Prod.mk.inj (Option.some.inj (hroom.symm.trans hroom'))
    exact ⟨rfl, hafter⟩
  | stored hb' hh' hadmits =>
    obtain rfl := hb.unique hb'
    obtain rfl := Except.ok.inj (hh.symm.trans hh')
    exact absurd (hadmits size reason hroom) (Nat.not_le.2 hsize)

theorem exists_fault (hne : session.exitCode ≠ 0) :
    ∃ fault, session = ofOutcome (.error fault) ∧
      (after = s ∨ Cut s schema name input output limits fault after) := by
  cases he with
  | unread _ => exact ⟨_, rfl, .inl rfl⟩
  | unopened _ => exact ⟨_, rfl, .inl rfl⟩
  | cut hcut => exact ⟨_, rfl, .inr hcut⟩
  | stored _ _ _ => exact absurd rfl hne

end Ends

/-! ### What an encoding does -/

/-- A run that encodes and puts out the bytes. -/
structure PutsOut (words : List String) (s : FileSystem) (schema name input : String)
    (limits : Limits) : Prop where
  exit : (runIn words s).1.exitCode = 0 ↔ ∃ bytes, s.Encodes schema name input limits bytes
  output : ∀ bytes, s.Encodes schema name input limits bytes →
    runIn words s = (⟨0, .bytes bytes, ""⟩, s)
  fault : (runIn words s).1.exitCode ≠ 0 →
    ∃ fault, runIn words s = (ofOutcome (.error fault), s)

/-- A run that encodes into a file, or to a device, which keeps nothing. -/
structure Stores (words : List String) (s : FileSystem) (schema name input output : String)
    (limits : Limits) : Prop where
  exit : (runIn words s).1.exitCode = 0 ↔
    ∃ bytes, s.Encodes schema name input limits bytes ∧ s.Takes output bytes
  silent : (runIn words s).1.exitCode = 0 → (runIn words s).1 = ⟨0, .nothing, ""⟩
  holds : (runIn words s).1.exitCode = 0 → ∀ h bytes, s.handle output = .ok h →
    ¬s.IsDevice h.place → s.Encodes schema name input limits bytes →
      (runIn words s).2.node? h.place = some (.file h.access bytes) ∧
        (h.access.reading = none → (runIn words s).2.read output = .ok bytes)
  device : ∀ h, s.handle output = .ok h → s.IsDevice h.place → (runIn words s).2 = s
  others : ∀ p, s.place output ≠ .ok p → (runIn words s).2.node? p = s.node? p
  fault : (runIn words s).1.exitCode ≠ 0 → ∃ fault,
    (runIn words s).1 = ofOutcome (.error fault) ∧ ((runIn words s).2 = s ∨
      Cut s schema name input output limits fault (runIn words s).2)
  cut : ∀ h bytes size reason, s.Encodes schema name input limits bytes →
    s.handle output = .ok h → h.access.room = some (size, reason) → size < bytes.length →
      runIn words s = (ofOutcome (.error (.disk reason)), s.keep h (bytes.take size))
  /-- What a decoding of the file shows that comes next, if the schema is in another one. -/
  shown : (runIn words s).1.exitCode = 0 → ∀ h bytes document, s.handle output = .ok h →
    ¬s.IsDevice h.place → h.access.reading = none → s.place schema ≠ .ok h.place →
    s.Encodes schema name input limits bytes → s.HasSchema schema document →
    ∀ later offset, Command.parse later = some (.decode schema name output offset limits) →
      runIn later (runIn words s).2 =
        (ofOutcome ((document.decode limits name bytes offset.toNat).map fun read =>
          Command.display (.ofValue read.1)), (runIn words s).2)

theorem putsOut (h : Command.parse words = some (.encode schema name input none limits))
    (s : FileSystem) : PutsOut words s schema name input limits := by
  have hrun := runIn_encode_out h s
  cases hencoded : s.encoded schema name input limits with
  | error fault =>
    rw [hencoded] at hrun
    refine ⟨?_, ?_, fun _ => ⟨fault, hrun⟩⟩
    · simp [hrun, ofOutcome, ← FileSystem.encoded_eq_ok, hencoded]
    · simp [← FileSystem.encoded_eq_ok, hencoded]
  | ok bytes =>
    rw [hencoded] at hrun
    refine ⟨?_, ?_, ?_⟩
    · simp [hrun, ofOutcome, ← FileSystem.encoded_eq_ok, hencoded]
    · simp [hrun, ofOutcome, ← FileSystem.encoded_eq_ok, hencoded]
    · exact fun hne => absurd (by rw [hrun]; rfl) hne

theorem stores {output : String}
    (h : Command.parse words = some (.encode schema name input (some output) limits))
    (s : FileSystem) : Stores words s schema name input output limits := by
  have he := runIn_ends h s
  refine ⟨he.exitCode_eq_zero, ?silent, ?holds, ?device, ?others, he.exists_fault, ?cut, ?shown⟩
  case silent =>
    intro hzero
    obtain ⟨bytes, hb, h, hh, -⟩ := he.exitCode_eq_zero.1 hzero
    exact (he.eq_of_exitCode hzero hh hb).1
  case holds =>
    intro hzero h bytes hh hd hb
    rw [(he.eq_of_exitCode hzero hh hb).2]
    exact ⟨FileSystem.node?_keep hd, FileSystem.read_keep hh hd⟩
  case device =>
    intro h hh hd
    obtain hafter | ⟨h', bytes, hh', hafter⟩ := he.eq_or_keep
    · exact hafter
    · obtain rfl := Except.ok.inj (hh.symm.trans hh')
      exact hafter.trans (FileSystem.keep_of_isDevice hd bytes)
  case others =>
    intro p hp
    obtain hafter | ⟨h, bytes, hh, hafter⟩ := he.eq_or_keep
    · rw [hafter]
    · have hq : p ≠ h.place := fun hq => hp (hq ▸ (FileSystem.handle_eq_ok.1 hh).1)
      rw [hafter, FileSystem.node?_keep_of_ne hq]
  case cut =>
    intro h bytes size reason hb hh hroom hsize
    obtain ⟨hsession, hafter⟩ := he.eq_of_short hb hh hroom hsize
    exact Prod.ext hsession hafter
  case shown =>
    intro hzero h bytes document hh hd hreading hne hb hschema later offset hlater
    rw [(he.eq_of_exitCode hzero hh hb).2]
    exact runIn_decode_of_read hlater (hschema.of_keep (FileSystem.handle_eq_ok.1 hh).2 hne)
      (FileSystem.read_keep hh hd hreading)

/-- Encoding files by a command line, whatever files there are. Without a file for the output the
run ends well exactly if schema and value are there and the value encodes, and puts out those
bytes. With one it ends well exactly if moreover the file can be opened and has room for them. An
ordinary file then holds the bytes, all others are as they were, and a decoding of it that follows
shows what the bytes decode to. A run that ends otherwise changes no file, unless the file was
opened and had too little room, and then holds the first of the bytes. -/
theorem run_encode (s : FileSystem) (schema name input : String) (limits : Limits) :
    (∀ words, Command.parse words = some (.encode schema name input none limits) →
      PutsOut words s schema name input limits) ∧
    ∀ words output,
      Command.parse words = some (.encode schema name input (some output) limits) →
        Stores words s schema name input output limits :=
  ⟨fun _ h => putsOut h s, fun _ _ h => stores h s⟩

def sampleSchema : Document :=
  ⟨Table.ofList [("M", ⟨"M", [⟨"v", .int .uint8 none, none⟩], .empty⟩)], .empty⟩

def sampleValue : Value := .object (Table.ofList [("v", .int 7)])

/-- A schema and a value that fits it. -/
def sampleFiles : Directory :=
  ⟨Table.ofList [("schema", Utf8.encode "struct M { uint8 v; }".toList),
    ("value", Utf8.encode "\x7b\"v\":7\x7d".toList)]⟩

def sampleWords : List String := ["encode", "-s", "schema", "-n", "M", "--input=value"]

theorem hasSchema_sample
    (h : s.read "schema" = .ok (Utf8.encode "struct M { uint8 v; }".toList)) :
    s.HasSchema "schema" sampleSchema :=
  ⟨_, ⟨_, _, h, Utf8.decode_encode _, rfl⟩, by decide +kernel⟩

theorem encodes_sample
    (hschema : s.read "schema" = .ok (Utf8.encode "struct M { uint8 v; }".toList))
    (hvalue : s.read "value" = .ok (Utf8.encode "\x7b\"v\":7\x7d".toList)) :
    s.Encodes "schema" "M" "value" {} [7] := by
  have htext : String.ofList "\x7b\"v\":7\x7d".toList = sampleValue.toJson := by decide +kernel
  have hjson : Value.ofJson sampleValue.toJson = .ok sampleValue :=
    Value.ofJson_toJson rfl (by decide +kernel)
  exact ⟨sampleSchema, sampleValue, hasSchema_sample hschema,
    ⟨_, ⟨_, _, hvalue, Utf8.decode_encode _, htext⟩, hjson⟩, by decide +kernel⟩

/-- The value is put out, or written to a file and read back from it. -/
theorem run_encode_sample :
    run sampleWords sampleFiles = (⟨0, .bytes [7], ""⟩, sampleFiles.system) ∧
      (run (sampleWords ++ ["-o", "out"]) sampleFiles).2.read "out" = .ok [7] ∧
      (runIn ["decode", "-s", "schema", "-n", "M", "-i", "out"]
        (run (sampleWords ++ ["-o", "out"]) sampleFiles).2).1 =
          ⟨0, .text "\x7b\n  \"v\": 7\n\x7d\n", ""⟩ := by
  have hschema := hasSchema_sample (s := sampleFiles.system) (by decide +kernel)
  have hencodes := encodes_sample (s := sampleFiles.system) (by decide +kernel) (by decide +kernel)
  obtain ⟨hout, hfile⟩ := run_encode sampleFiles.system "schema" "M" "value" {}
  have hprinted := hout sampleWords (by decide +kernel)
  have hstored := hfile (sampleWords ++ ["-o", "out"]) "out" (by decide +kernel)
  have hhandle : sampleFiles.system.handle "out" = .ok ⟨["tmp", "work", "out"], {}⟩ := by
    decide +kernel
  have hfile : ¬sampleFiles.system.IsDevice ["tmp", "work", "out"] := by
    rintro ⟨access, bytes, hnode⟩
    cases hnode
  have hzero := hstored.exit.2 ⟨[7], hencodes, _, hhandle, by simp [Access.Admits]⟩
  refine ⟨hprinted.output _ hencodes, (hstored.holds hzero _ _ hhandle hfile hencodes).2 rfl, ?_⟩
  have hshown := hstored.shown hzero _ _ _ hhandle hfile rfl (by decide +kernel) hencodes hschema
    ["decode", "-s", "schema", "-n", "M", "-i", "out"] 0 (by decide +kernel)
  rw [run, hshown]
  decide +kernel

/-- The same files and one more, for which there is no room. -/
def crowdedFiles : FileSystem :=
  sampleFiles.system.put ["tmp", "work", "out"] (.file { room := some (0, .noSpace) } [1])

/-- A device takes the bytes and keeps none, so that a decoding shows another value. A file
without room is emptied before the writing fails. -/
theorem run_encode_unkept :
    run sampleWords sampleFiles = (⟨0, .bytes [7], ""⟩, sampleFiles.system) ∧
      (run (sampleWords ++ ["-o", "/dev/null"]) sampleFiles).1.exitCode = 0 ∧
      (run (sampleWords ++ ["-o", "/dev/null"]) sampleFiles).2.read "/dev/null" = .ok [] ∧
      (runIn ["decode", "-s", "schema", "-n", "M", "-i", "/dev/null"]
        (run (sampleWords ++ ["-o", "/dev/null"]) sampleFiles).2).1 = ⟨0, .text "\x7b\x7d\n", ""⟩ ∧
      crowdedFiles.read "out" = .ok [1] ∧
      (runIn (sampleWords ++ ["-o", "out"]) crowdedFiles).1.exitCode = 1 ∧
      (runIn (sampleWords ++ ["-o", "out"]) crowdedFiles).2.read "out" = .ok [] := by
  have hschema := hasSchema_sample (s := sampleFiles.system) (by decide +kernel)
  have hencodes := encodes_sample (s := sampleFiles.system) (by decide +kernel) (by decide +kernel)
  have hencodes' := encodes_sample (s := crowdedFiles) (by decide +kernel) (by decide +kernel)
  have hprinted : PutsOut sampleWords sampleFiles.system "schema" "M" "value" {} :=
    putsOut (by decide +kernel) _
  have hnull : Stores (sampleWords ++ ["-o", "/dev/null"]) sampleFiles.system "schema" "M"
      "value" "/dev/null" {} := stores (by decide +kernel) _
  have hcrowded : Stores (sampleWords ++ ["-o", "out"]) crowdedFiles "schema" "M" "value" "out"
      {} := stores (by decide +kernel) _
  have hhandle : sampleFiles.system.handle "/dev/null" = .ok ⟨["dev", "null"], {}⟩ := by
    decide +kernel
  have hsame := hnull.device _ hhandle ⟨{}, [], rfl⟩
  have hempty : sampleFiles.system.read "/dev/null" = .ok [] := by decide +kernel
  have hcut := hcrowded.cut ⟨["tmp", "work", "out"], { room := some (0, .noSpace) }⟩ _ 0 .noSpace
    hencodes' (by decide +kernel) rfl Nat.one_pos
  refine ⟨hprinted.output _ hencodes, ?null, ?read, ?shown, by decide +kernel, ?full, ?emptied⟩
  case null => exact hnull.exit.2 ⟨[7], hencodes, _, hhandle, by simp [Access.Admits]⟩
  case read => rw [run, hsame, hempty]
  case shown =>
    have hparse : Command.parse ["decode", "-s", "schema", "-n", "M", "-i", "/dev/null"] =
        some (.decode "schema" "M" "/dev/null" 0 {}) := by decide +kernel
    rw [run, hsame, runIn_decode_of_read hparse hschema hempty]
    decide +kernel
  case full =>
    rw [hcut]
    rfl
  case emptied =>
    rw [hcut]
    decide +kernel

end Session

end WireSchema
