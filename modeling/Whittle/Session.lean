import Whittle.Catalogue

/-!
# Sessions

A session holds a catalogue of transformations and perhaps a program, and takes requests one after
the other.
-/

namespace Whittle

/-- A catalogue and the current program. -/
structure Session where
  catalogue : Catalogue
  program : Option Program

/-- Why a session cannot carry out a request. -/
inductive SessionError where
  | invocation (e : InvocationError)
  | noProgram

namespace Session

/-- A session with the builtin catalogue and without a program. -/
def start : Session := ⟨.builtin, none⟩

/-- Make a text the current program, unless it has syntax errors. -/
def load (s : Session) (t : Text) : Except (List SyntaxError) Session := do
  return { s with program := some (← Program.parse t) }

/-- Add a transformation to the catalogue. -/
def add (s : Session) (t : Transformation) : Except InvocationError Session := do
  return { s with catalogue := ← s.catalogue.add t }

/-- Carry out a request. A bad request is refused before a missing program. -/
def invoke (s : Session) (transformation : String) (counter : Option Nat) (queryOnly : Bool) :
    Except SessionError Outcome :=
  match Invocation.make transformation counter queryOnly with
  | .error e => .error (.invocation e)
  | .ok i =>
    match s.program with
    | none => .error .noProgram
    | some p =>
      match s.catalogue.invoke i p with
      | .error e => .error (.invocation e)
      | .ok o => .ok o

/-- Make the output of a request the current program, if there is one. -/
def keep (s : Session) (o : Outcome) : Session :=
  match o.output? with
  | none => s
  | some t =>
    match s.load t with
    | .ok s => s
    | .error _ => s

end Session

end Whittle
