import Whittle.Removal.Outcome
import Whittle.Report.Json

/-!
# Reports

* `Finding`: an unused variable with the line and the columns of its name.
* `findings`: all of a program.
* `Listing`: the findings of one file, as JSON or as lines for readers.
* `Outcome.toJson`: what came of a removal, as JSON.
-/

namespace Whittle

/-- An unused variable as it is reported. Lines and columns count from one, and the name ends before
column `endColumn`. -/
structure Finding where
  index : Nat
  name : Text
  message : String
  line : Nat
  column : Nat
  endColumn : Nat

namespace Finding

/-- Where the name of an unused variable stands in its text. -/
def ofUnused (t : Text) (u : Unused) : Finding :=
  let name := u.declaration.name
  let start := t.lineColumn name.span.start
  { index := u.index
    name := name.text
    message := u.declaration.message
    line := start.1
    column := start.2
    endColumn := (t.lineColumn name.span.stop).2 }

/-- A finding as JSON. -/
def toJson (f : Finding) : Json :=
  .object
    [("index", .number f.index), ("name", .text f.name), ("message", .text f.message.toList),
      ("line", .number f.line), ("column", .number f.column), ("endColumn", .number f.endColumn)]

/-- The label of a finding. -/
def label (f : Finding) : String := "#" ++ toString f.index ++ ": " ++ f.message

end Finding

/-- The findings of a program. -/
def findings (t : Text) (root : Placed) : List Finding :=
  (unusedVariables root).map (Finding.ofUnused t)

/-- The findings of one file. -/
structure Listing where
  file : String
  findings : List Finding

namespace Listing

/-- A listing as JSON. -/
def toJson (l : Listing) : Json :=
  .object [("file", .text l.file.toList), ("results", .array (l.findings.map (·.toJson)))]

/-- A listing for readers: a headline and a line for each finding, or nothing at all. -/
def render (l : Listing) : String :=
  if l.findings.isEmpty then ""
  else
    "Warning: Unused variable declarations were found.\n" ++
      String.join (l.findings.map fun f =>
        l.file ++ ":" ++ toString f.line ++ ":" ++ toString f.column ++ ": " ++ f.label ++ "\n")

end Listing

/-- What came of a removal, as JSON. -/
def Outcome.toJson : Outcome → Json
  | .counted count => .object [("status", .text "count-reported".toList), ("count", .number count)]
  | .applied output => .object [("status", .text "applied".toList), ("output", .text output)]
  | .outOfRange index count =>
    .object
      [("status", .text "index-out-of-range".toList), ("index", .number index),
        ("count", .number count)]
  | .violated violation =>
    .object
      [("status", .text "invariant-violation".toList), ("error", .text violation.message.toList)]
  | .failed error =>
    .object [("status", .text "edit-failed".toList), ("error", .text error.message.toList)]

end Whittle
