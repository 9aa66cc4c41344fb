import WireSchema.Fault
import WireSchema.Text.Split

/-! Paths of files: steps that slashes separate, several slashes counting as one. The last
step is set apart, because it need not lead to a directory. -/

namespace WireSchema

inductive Step where
  | stay
  | up
  | into (name : String)
  deriving DecidableEq, Repr

/-- The step of a part between slashes. -/
def Step.ofChars? : List Char → Option Step
  | [] => none
  | ['.'] => some .stay
  | ['.', '.'] => some .up
  | name => some (.into (String.ofList name))

structure Path where
  /-- Whether the path starts at the root. -/
  absolute : Bool
  /-- The steps to the directory that the last name is in. -/
  steps : List Step
  /-- The last name, if the path ends in a name. -/
  last : Option String
  /-- Whether a slash follows the last step. -/
  closed : Bool
  deriving DecidableEq, Repr

namespace Path

/-- Bytes of a path, at most. -/
def maxLength : Nat := 4095

/-- Bytes of a name, at most. -/
def maxNameLength : Nat := 255

def ofSteps (absolute closed : Bool) (steps : List Step) : Path :=
  match steps.getLast? with
  | some (.into name) => ⟨absolute, steps.dropLast, some name, closed⟩
  | _ => ⟨absolute, steps, none, closed⟩

/-- A path from its text. The empty text leads nowhere. -/
def parse (text : String) : Except DiskFault Path :=
  let chars := text.toList
  if chars = [] then .error .notFound
  else if maxLength < Utf8.size chars then .error .nameTooLong
  else
    .ok (ofSteps (chars.head? == some '/') (chars.getLast? == some '/')
      ((Text.split '/' chars).filterMap Step.ofChars?))

end Path

end WireSchema
