import WireSchema.CommandLine.Run
import WireSchema.Proofs.CommandLine.FileSystem

/-! What commands find and do. A command reads all that it needs and works before it
writes: what it finds is a function of the files, and the files stay as they are until
there is something to write. -/

namespace WireSchema

open Outcome

/-! ### What is read -/

namespace FileSystem

variable (s : FileSystem)

def readBytes (path : String) : Except Fault (List UInt8) := (s.read path).mapError .disk

def readText (path : String) : Except Fault String := do
  let chars ← (Utf8.decode (← s.readBytes path)).mapError fun _ => .disk .notText
  .ok (String.ofList chars)

def readSchema (path : String) : Except Fault Document := do
  (Document.compile (← s.readText path)).mapError .schema

def readValue (path : String) : Except Fault Value := do
  (Value.ofJson (← s.readText path)).mapError .json

/-- The bytes that an encoding of files comes to. -/
def encoded (schema name input : String) (limits : Limits) : Except Fault (List UInt8) := do
  let document ← s.readSchema schema
  let v ← s.readValue input
  document.encode limits name v

/-- What a decoding of files shows. -/
def decoded (schema name input : String) (offset : UInt64) (limits : Limits) :
    Except Fault Output := do
  let document ← s.readSchema schema
  let bytes ← s.readBytes input
  (document.decode limits name bytes offset.toNat).map fun read => Command.display (.ofValue read.1)

/-- The file of a path is the text in UTF-8. -/
def HasText (path text : String) : Prop :=
  ∃ bytes chars, s.read path = .ok bytes ∧ Utf8.decode bytes = .ok chars ∧
    String.ofList chars = text

def HasSchema (path : String) (document : Document) : Prop :=
  ∃ text, s.HasText path text ∧ Document.compile text = .ok document

def HasValue (path : String) (v : Value) : Prop :=
  ∃ text, s.HasText path text ∧ Value.ofJson text = .ok v

/-- The files are a schema and a value, and the value encodes to the bytes. -/
def Encodes (schema name input : String) (limits : Limits) (bytes : List UInt8) : Prop :=
  ∃ document v, s.HasSchema schema document ∧ s.HasValue input v ∧
    document.encode limits name v = .ok bytes

variable {s} {path schema name input : String} {limits : Limits} {bytes : List UInt8}

theorem readText_eq_ok {text : String} : s.readText path = .ok text ↔ s.HasText path text := by
  simp only [readText, readBytes, HasText, bind_eq_ok, mapError_eq_ok, Except.ok.injEq,
    exists_and_left]

theorem readSchema_eq_ok {document : Document} :
    s.readSchema path = .ok document ↔ s.HasSchema path document := by
  simp only [readSchema, HasSchema, bind_eq_ok, mapError_eq_ok, readText_eq_ok]

theorem readValue_eq_ok {v : Value} : s.readValue path = .ok v ↔ s.HasValue path v := by
  simp only [readValue, HasValue, bind_eq_ok, mapError_eq_ok, readText_eq_ok]

theorem encoded_eq_ok :
    s.encoded schema name input limits = .ok bytes ↔ s.Encodes schema name input limits bytes := by
  simp only [encoded, Encodes, bind_eq_ok, readSchema_eq_ok, readValue_eq_ok, exists_and_left]

theorem Encodes.unique {bytes' : List UInt8} (h : s.Encodes schema name input limits bytes)
    (h' : s.Encodes schema name input limits bytes') : bytes = bytes' :=
  Except.ok.inj ((encoded_eq_ok.2 h).symm.trans (encoded_eq_ok.2 h'))

/-- A schema in another file than the one that is written stays. -/
theorem HasSchema.of_keep {document : Document} {h : FileHandle}
    (hschema : s.HasSchema schema document) (ha : s.accessAt h.place = .ok h.access)
    (hne : s.place schema ≠ .ok h.place) : (s.keep h bytes).HasSchema schema document := by
  obtain ⟨text, ⟨content, chars, hread, hchars, htext⟩, hcompile⟩ := hschema
  exact ⟨text, ⟨content, chars, read_keep_of_ne ha hne hread, hchars, htext⟩, hcompile⟩

end FileSystem

/-! ### What a command does -/

namespace Command

variable {α β : Type} {s : FileSystem}

/-- One part of a command after the other. A fault ends it. -/
theorem run_bind (x : ExceptT Fault (StateM FileSystem) α)
    (f : α → ExceptT Fault (StateM FileSystem) β) (s : FileSystem) :
    (x >>= f).run.run s = match x.run.run s with
      | (.ok a, after) => (f a).run.run after
      | (.error fault, after) => (.error fault, after) := by
  rw [ExceptT.run_bind, StateT.run_bind]
  rcases x.run.run s with ⟨r, after⟩
  cases r <;> rfl

theorem run_monadLift (x : StateM FileSystem α) (s : FileSystem) :
    (monadLift x : ExceptT Fault (StateM FileSystem) α).run.run s =
      (.ok (x.run s).1, (x.run s).2) :=
  rfl

/-- Over the files the outcome is this, and the files stay as they are. -/
def Finds (s : FileSystem) (x : ExceptT Fault (StateM FileSystem) α) (r : Except Fault α) : Prop :=
  x.run.run s = (r, s)

theorem Finds.bind {x : ExceptT Fault (StateM FileSystem) α} {r : Except Fault α}
    {f : α → ExceptT Fault (StateM FileSystem) β} {g : α → Except Fault β}
    (hx : Finds s x r) (hf : ∀ a, Finds s (f a) (g a)) : Finds s (x >>= f) (r >>= g) := by
  rw [Finds] at hx ⊢
  rw [run_bind, hx]
  cases r with
  | error => rfl
  | ok a => exact hf a

theorem finds_readBytes (path : String) :
    Finds s (readBytes FileSystem.disk path) (s.readBytes path) := by
  have hread : Finds s (monadLift (FileSystem.disk.read path)) (.ok (s.read path)) := rfl
  refine hread.bind (g := fun found => found.mapError Fault.disk) fun found => ?_
  cases found with
  | error => rfl
  | ok bytes => rfl

theorem finds_readText (path : String) :
    Finds s (readText FileSystem.disk path) (s.readText path) := by
  refine (finds_readBytes path).bind fun bytes => ?_
  cases Utf8.decode bytes with
  | error => rfl
  | ok chars => rfl

theorem finds_readSchema (path : String) :
    Finds s (readSchema FileSystem.disk path) (s.readSchema path) := by
  refine (finds_readText path).bind fun text => ?_
  cases Document.compile text with
  | error => rfl
  | ok document => rfl

theorem finds_readValue (path : String) :
    Finds s (readValue FileSystem.disk path) (s.readValue path) := by
  refine (finds_readText path).bind fun text => ?_
  cases Value.ofJson text with
  | error => rfl
  | ok v => rfl

theorem finds_liftExcept (x : Except Fault α) : Finds s (run.liftExcept x) x := by
  cases x with
  | error => rfl
  | ok a => rfl

variable {schema name input : String} {limits : Limits}

theorem finds_decode (offset : UInt64) :
    Finds s ((Command.decode schema name input offset limits).run FileSystem.disk)
      (s.decoded schema name input offset limits) := by
  refine (finds_readSchema schema).bind fun document => (finds_readBytes input).bind fun bytes => ?_
  cases document.decode limits name bytes offset.toNat with
  | error => rfl
  | ok read => rfl

/-- An encoding up to its bytes. -/
def encoding (schema name input : String) (limits : Limits) :
    ExceptT Fault (StateM FileSystem) (List UInt8) := do
  let document ← readSchema FileSystem.disk schema
  let v ← readValue FileSystem.disk input
  run.liftExcept (document.encode limits name v)

theorem finds_encoding :
    Finds s (encoding schema name input limits) (s.encoded schema name input limits) :=
  (finds_readSchema schema).bind fun _ => (finds_readValue input).bind fun _ => finds_liftExcept _

/-- An encoding writes last, when it has its bytes. -/
theorem runIn_encode (output : Option String) :
    (Command.encode schema name input output limits).runIn s =
      match s.encoded schema name input limits with
      | .error fault => (.error fault, s)
      | .ok bytes => (writeOut FileSystem.disk bytes output).run.run s := by
  have hrun : (Command.encode schema name input output limits).run FileSystem.disk =
      encoding schema name input limits >>= (writeOut FileSystem.disk · output) := by
    simp only [run, encoding, bind_assoc]
  rw [runIn, hrun, run_bind, finds_encoding]
  cases s.encoded schema name input limits with
  | error => rfl
  | ok bytes => rfl

/-- Bytes go to a file that is opened, as many of them as fit. -/
theorem writeOut_file (bytes : List UInt8) (path : String) :
    (writeOut FileSystem.disk bytes (some path)).run.run s =
      match s.handle path with
      | .error fault => (.error (.disk fault), s)
      | .ok h =>
        match h.access.short? bytes.length with
        | none => (.ok .nothing, s.keep h bytes)
        | some (size, fault) => (.error (.disk fault), s.keep h (bytes.take size)) := by
  rw [writeOut, run_bind, run_monadLift, FileSystem.run_write]
  cases s.handle path with
  | error fault => rfl
  | ok h =>
    simp only [FileSystem.written]
    cases h.access.short? bytes.length with
    | none => rfl
    | some room => rfl

end Command

end WireSchema
