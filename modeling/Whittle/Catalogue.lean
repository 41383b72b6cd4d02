import Whittle.Removal.Outcome

/-!
# The catalogue of transformations

* `Transformation`: a way to change a program that can be selected by name.
* `Catalogue`: transformations by name, in the order in which they were added.
* `Invocation`: a request for one of them.
-/

namespace Whittle

/-- A transformation of programs. -/
structure Transformation where
  name : String
  description : String
  /-- Count the places of a program where it applies, or apply it at one of them. -/
  transform : Program → Mode → Outcome

/-- The removal of unused variables. -/
def Transformation.removeUnusedVar : Transformation :=
  { name := "remove-unused-var"
    description := "Remove unused local/global variable declarations."
    transform := removeUnused }

/-- Why a request is refused. -/
inductive InvocationError where
  /-- Counters start at one. -/
  | zeroCounter
  /-- Nothing says which place is meant. -/
  | missingCounter
  | unknownTransformation (name : String)
  | duplicateTransformation (name : String)

/-- The wording of a refusal. -/
def InvocationError.message : InvocationError → String
  | .zeroCounter => "counter must be a positive integer, got 0"
  | .missingCounter => "a counter is required unless only querying instances"
  | .unknownTransformation name => "unknown transformation `" ++ name ++ "`"
  | .duplicateTransformation name => "transformation `" ++ name ++ "` is already registered"

/-- A request for a transformation. -/
structure Invocation where
  transformation : String
  mode : Mode

/-- Make a request. A counter is needed unless only the number of places is asked for, and it must
not be zero even then. -/
def Invocation.make (transformation : String) (counter : Option Nat) (queryOnly : Bool) :
    Except InvocationError Invocation :=
  match counter, queryOnly with
  | some n, _ =>
    if h : 0 < n then .ok ⟨transformation, if queryOnly then .query else .apply ⟨n, h⟩⟩
    else .error .zeroCounter
  | none, true => .ok ⟨transformation, .query⟩
  | none, false => .error .missingCounter

/-- Transformations by name. -/
abbrev Catalogue := List Transformation

namespace Catalogue

/-- The transformations that are always there. -/
def builtin : Catalogue := [.removeUnusedVar]

/-- The transformation with a name. -/
def find? (c : Catalogue) (name : String) : Option Transformation :=
  List.find? (·.name == name) c

/-- Add a transformation under its name, which must be new. -/
def add (c : Catalogue) (t : Transformation) : Except InvocationError Catalogue :=
  if (c.find? t.name).isSome then .error (.duplicateTransformation t.name) else .ok (c ++ [t])

/-- Carry out a request. -/
def invoke (c : Catalogue) (i : Invocation) (p : Program) : Except InvocationError Outcome :=
  match c.find? i.transformation with
  | none => .error (.unknownTransformation i.transformation)
  | some t => .ok (t.transform p i.mode)

end Catalogue

end Whittle
