import WireSchema.Proofs.Schema.WellFormed
import WireSchema.Publication
import WireSchema.Wire.Decode

/-! Runs of a publication against their log. A step that can be taken adds one entry to
the log, and what a source stands for after any run is what the last entry about it says.
Entries are only added, so that a held document stays what it was until something else is
held under its name. -/

namespace WireSchema

/-- The document is what some text compiles to. -/
def Document.Compiled (d : Document) : Prop := ∃ text, Document.compile text = .ok d

namespace Publication

open Outcome

/-! ### Steps -/

/-- What is asked of a publication. A source is the name of a held document, or without a
name the published one. -/
inductive Step where
  | hold (name : String) (source : Option String)
  | recompile (text : String)
  | store (source : Option String)

/-- The publication after it was asked for another document. -/
def settled : Except Refused Publication → Publication
  | .ok p => p
  | .error refused => refused.after

/-- The publication after a step. A source that stands for nothing cannot be used. -/
def step (p : Publication) : Step → Publication
  | .hold name source => (p.get? source).elim p (p.hold name)
  | .recompile text => settled (p.recompile text)
  | .store source => (p.get? source).elim p p.store

def run (p : Publication) (steps : List Step) : Publication := steps.foldl step p

@[simp] theorem run_nil (p : Publication) : p.run [] = p := rfl

@[simp] theorem run_cons (p : Publication) (s : Step) (steps : List Step) :
    p.run (s :: steps) = (p.step s).run steps := rfl

theorem run_append (p : Publication) (a b : List Step) : p.run (a ++ b) = (p.run a).run b :=
  List.foldl_append

/-! ### The log of a run -/

/-- What a step did. -/
inductive Entry where
  | published (d : Document)
  | held (name : String) (d : Document)

namespace Entry

def document : Entry → Document
  | published d => d
  | held _ d => d

/-- What an entry says about a source. -/
def gives? : Entry → Option String → Option Document
  | published d, none => some d
  | held name d, some wanted => if name = wanted then some d else none
  | _, _ => none

theorem document_of_gives? {e : Entry} {source : Option String} {d : Document}
    (h : e.gives? source = some d) : e.document = d := by
  cases e <;> cases source <;> simp_all [gives?, document]

end Entry

/-- The last that entries say about a source. The latest entry is in front. -/
def last? (entries : List Entry) (source : Option String) : Option Document :=
  entries.findSome? (·.gives? source)

theorem last?_cons (e : Entry) (entries : List Entry) (source : Option String) :
    last? (e :: entries) source = (e.gives? source).or (last? entries source) := by
  rw [last?, List.findSome?_cons]
  cases e.gives? source <;> rfl

namespace Step

/-- What a step adds to the log, by the log alone. -/
def entry? (entries : List Entry) : Step → Option Entry
  | hold name source => (last? entries source).map (.held name)
  | recompile text => (Document.compile text).toOption.map .published
  | store source => (last? entries source).map .published

def record (entries : List Entry) (s : Step) : List Entry := (s.entry? entries).toList ++ entries

end Step

/-- The entries of a run that starts with a published document. -/
def log (d : Document) (steps : List Step) : List Entry :=
  steps.foldl Step.record [.published d]

theorem log_append (d : Document) (a b : List Step) :
    log d (a ++ b) = b.foldl Step.record (log d a) := List.foldl_append

/-! ### The publication follows the log -/

/-- Every source stands for what the log says last. -/
def Follows (p : Publication) (entries : List Entry) : Prop :=
  ∀ source, p.get? source = last? entries source

def apply (p : Publication) : Entry → Publication
  | .published d => p.store d
  | .held name d => p.hold name d

theorem get?_apply (p : Publication) (e : Entry) (source : Option String) :
    (p.apply e).get? source = (e.gives? source).or (p.get? source) := by
  cases e with
  | published d => cases source <;> rfl
  | held name d =>
    cases source with
    | none => rfl
    | some wanted =>
      simp only [apply, get?, hold, Table.find?_insert, Entry.gives?]
      split <;> rfl

variable {p : Publication} {entries : List Entry}

/-- All that a step can do: what it adds to the log happens, or nothing does. -/
theorem Follows.step_eq (h : p.Follows entries) (s : Step) :
    p.step s = (s.entry? entries).elim p p.apply := by
  cases s with
  | hold name source =>
    simp only [step, Step.entry?, h source]
    cases last? entries source <;> rfl
  | recompile text =>
    simp only [step, Step.entry?, Publication.recompile]
    cases Document.compile text <;> rfl
  | store source =>
    simp only [step, Step.entry?, h source]
    cases last? entries source <;> rfl

theorem Follows.step (h : p.Follows entries) (s : Step) :
    (p.step s).Follows (s.record entries) := by
  intro source
  rw [h.step_eq, Step.record]
  cases s.entry? entries with
  | none => exact h source
  | some e =>
    rw [Option.elim_some, get?_apply, h source]
    exact (last?_cons e entries source).symm

theorem Follows.run (h : p.Follows entries) (steps : List Step) :
    (p.run steps).Follows (steps.foldl Step.record entries) := by
  induction steps generalizing p entries with
  | nil => exact h
  | cons s more ih => exact ih (h.step s)

theorem follows_ofDocument (d : Document) : (ofDocument d).Follows [.published d] := by
  intro source
  cases source <;> rfl

theorem follows_log (d : Document) (steps : List Step) :
    ((ofDocument d).run steps).Follows (log d steps) :=
  (follows_ofDocument d).run steps

theorem recompile_of_compile_eq_error {text : String} {fault : Schema.Fault}
    (h : Document.compile text = .error fault) : p.recompile text = .error ⟨fault, p⟩ := by
  rw [recompile, h]

/-! ### Held documents stay -/

variable {name : String}

theorem last?_record {s : Step} (h : ∀ source, s ≠ .hold name source) :
    last? (s.record entries) (some name) = last? entries (some name) := by
  cases s with
  | hold other source =>
    have hne : other ≠ name := fun he => h source (he ▸ rfl)
    simp only [Step.record, Step.entry?]
    cases last? entries source with
    | none => rfl
    | some d => simp [last?_cons, Entry.gives?, hne]
  | recompile text =>
    simp only [Step.record, Step.entry?]
    cases (Document.compile text).toOption <;> rfl
  | store source =>
    simp only [Step.record, Step.entry?]
    cases last? entries source <;> rfl

/-- What is held under a name is as it was while nothing is held under that name. -/
theorem last?_foldl_record {steps : List Step} (h : ∀ source, Step.hold name source ∉ steps) :
    last? (steps.foldl Step.record entries) (some name) = last? entries (some name) := by
  induction steps generalizing entries with
  | nil => rfl
  | cons s more ih =>
    simp only [List.mem_cons, not_or] at h
    rw [List.foldl_cons, ih fun source => (h source).2,
      last?_record fun source he => (h source).1 he.symm]

/-! ### Every document of the log is compiled -/

theorem compiled_of_last? {source : Option String} {d : Document}
    (hlog : ∀ e ∈ entries, e.document.Compiled) (h : last? entries source = some d) :
    d.Compiled := by
  obtain ⟨e, he, hgives⟩ := List.exists_of_findSome?_eq_some h
  exact Entry.document_of_gives? hgives ▸ hlog e he

theorem compiled_of_entry? {s : Step} {e : Entry} (hlog : ∀ e ∈ entries, e.document.Compiled)
    (h : s.entry? entries = some e) : e.document.Compiled := by
  cases s with
  | hold name source =>
    obtain ⟨d, hd, rfl⟩ := Option.map_eq_some_iff.1 h
    exact compiled_of_last? hlog hd
  | recompile text =>
    obtain ⟨d, hd, rfl⟩ := Option.map_eq_some_iff.1 h
    exact ⟨text, toOption_eq_some.1 hd⟩
  | store source =>
    obtain ⟨d, hd, rfl⟩ := Option.map_eq_some_iff.1 h
    exact compiled_of_last? hlog hd

theorem compiled_foldl_record (hlog : ∀ e ∈ entries, e.document.Compiled) (steps : List Step) :
    ∀ e ∈ steps.foldl Step.record entries, e.document.Compiled := by
  induction steps generalizing entries with
  | nil => exact hlog
  | cons s more ih =>
    refine ih fun e he => ?_
    obtain he | he := List.mem_append.1 he
    · exact compiled_of_entry? hlog (Option.mem_toList.1 he)
    · exact hlog e he

/-! ### Whole runs -/

/-- A run from a text that compiles, whatever is asked in it. Each source stands for the document
that was last published, or last held under the name. A text that does not compile is refused and
changes nothing. A held document stays until something else is held under its name, and encodes
and decodes as it did. All documents are compiled ones. -/
theorem run_follows_log {text : String} {p : Publication} (h : ofText text = .ok p)
    (steps : List Step) :
    ∃ first, Document.compile text = .ok first ∧
      (∀ source, (p.run steps).get? source = last? (log first steps) source) ∧
      (∀ other fault, Document.compile other = .error fault →
        (p.run steps).recompile other = .error ⟨fault, p.run steps⟩ ∧
          p.run (steps ++ [.recompile other]) = p.run steps) ∧
      (∀ name d later, (p.run steps).get? (some name) = some d →
        (∀ source, Step.hold name source ∉ later) →
          (p.run (steps ++ later)).get? (some name) = some d ∧
            ∀ limits struct,
              (∀ v, ((p.run (steps ++ later)).get? (some name)).map (·.encode limits struct v) =
                some (d.encode limits struct v)) ∧
              ∀ bytes offset,
                ((p.run (steps ++ later)).get? (some name)).map
                  (·.decode limits struct bytes offset) =
                    some (d.decode limits struct bytes offset)) ∧
      ∀ source d, (p.run steps).get? source = some d →
        (∃ other, Document.compile other = .ok d) ∧ d.WellFormed ∧ d.InBounds := by
  obtain ⟨first, hfirst, hp⟩ := bind_eq_ok.1 h
  obtain rfl := Except.ok.inj hp
  have hfollows := follows_log first
  refine ⟨first, hfirst, hfollows steps, fun other fault hother => ?_,
    fun name d later hd hlater => ?_, fun source d hd => ?_⟩
  · have hrefused := recompile_of_compile_eq_error (p := (ofDocument first).run steps) hother
    exact ⟨hrefused, by rw [run_append, run_cons, run_nil, step, hrefused, settled]⟩
  · have hstays : ((ofDocument first).run (steps ++ later)).get? (some name) = some d := by
      rw [hfollows, log_append, last?_foldl_record hlater, ← hfollows, hd]
    simp [hstays]
  · have hstart : ∀ e ∈ [Entry.published first], e.document.Compiled := by
      simpa [Entry.document] using ⟨text, hfirst⟩
    have hcompiled : d.Compiled :=
      compiled_of_last? (compiled_foldl_record hstart steps) (hfollows steps source ▸ hd)
    obtain ⟨other, hother⟩ := hcompiled
    exact ⟨⟨other, hother⟩, Document.compile_inBounds hother⟩

/-- A struct `M` of one field. -/
def oneType (type : FieldType) : Document :=
  ⟨Table.ofList [("M", ⟨"M", [⟨"v", type, none⟩], .empty⟩)], .empty⟩

/-- A document is held and replaced. A text with bounds that do not fit changes nothing, and the
document held first is published again as it was. -/
theorem run_follows_log_replaced :
    ((ofDocument (oneType .bool)).run
        [.hold "old" none, .recompile "struct M { uint8 v; }"]).published =
          oneType (.int .uint8 none) ∧
      (ofDocument (oneType .bool)).run [.recompile "struct M { uint8[0,999] v; }"] =
        ofDocument (oneType .bool) ∧
      ((ofDocument (oneType .bool)).run
        [.hold "old" none, .recompile "struct M { uint8 v; }", .store (some "old")]).published =
          oneType .bool ∧
      ((ofDocument (oneType .bool)).run [.hold "old" none, .recompile "struct M { uint8 v; }"]).get?
        (some "old") = some (oneType .bool) := by
  have hfirst : Document.compile "struct M { bool v; }" = .ok (oneType .bool) := by decide +kernel
  have hother : Document.compile "struct M { uint8 v; }" = .ok (oneType (.int .uint8 none)) := by
    decide +kernel
  have hbad : Document.compile "struct M { uint8[0,999] v; }" =
      .error (.badBounds "M.v" (.exceeding ⟨0, 999⟩ .uint8)) := by
    decide +kernel
  have htext : ofText "struct M { bool v; }" = .ok (ofDocument (oneType .bool)) := by
    rw [ofText, hfirst, ok_bind]
  have hlog : ∀ steps source,
      ((ofDocument (oneType .bool)).run steps).get? source =
        last? (log (oneType .bool) steps) source := by
    intro steps source
    obtain ⟨first, hcompile, hfollows, -⟩ := run_follows_log htext steps
    obtain rfl := Except.ok.inj (hcompile.symm.trans hfirst)
    exact hfollows source
  obtain ⟨-, -, -, hrefused, -⟩ := run_follows_log htext []
  obtain ⟨-, -, -, -, hheld, -⟩ := run_follows_log htext [.hold "old" none]
  refine ⟨?_, (hrefused _ _ hbad).2, ?_, ?_⟩
  · have h := hlog [.hold "old" none, .recompile "struct M { uint8 v; }"] none
    simpa [log, Step.record, Step.entry?, hother, last?, Entry.gives?, Except.toOption,
      get?] using h
  · have h := hlog [.hold "old" none, .recompile "struct M { uint8 v; }", .store (some "old")] none
    simpa [log, Step.record, Step.entry?, hother, last?, Entry.gives?, Except.toOption,
      get?] using h
  · exact (hheld "old" _ [.recompile "struct M { uint8 v; }"] rfl (by simp)).1

end Publication

end WireSchema
