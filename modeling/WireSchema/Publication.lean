import WireSchema.Schema.Document

/-! A published schema that can be replaced. Who holds a document keeps it as it is;
replacing the published one changes only what is taken afterwards. -/

namespace WireSchema

structure Publication where
  published : Document
  /-- Documents that were taken and kept, by name. -/
  held : Table Document

/-- Why a document was not published, and the publication as it then is. -/
structure Refused where
  fault : Schema.Fault
  after : Publication

instance : Coe Refused Schema.Fault := ⟨Refused.fault⟩

namespace Publication

def ofDocument (d : Document) : Publication := ⟨d, .empty⟩

def ofText (text : String) : Except Schema.Fault Publication := do
  let d ← Document.compile text
  .ok (ofDocument d)

/-- The document held under a name, or without a name the published one. -/
def get? (p : Publication) : Option String → Option Document
  | none => some p.published
  | some name => p.held.find? name

def hold (p : Publication) (name : String) (d : Document) : Publication :=
  { p with held := Table.insert p.held name d }

def store (p : Publication) (d : Document) : Publication := { p with published := d }

/-- Publishes what a text compiles to. A text that does not compile changes nothing. -/
def recompile (p : Publication) (text : String) : Except Refused Publication :=
  match Document.compile text with
  | .ok d => .ok (p.store d)
  | .error fault => .error ⟨fault, p⟩

end Publication

end WireSchema
