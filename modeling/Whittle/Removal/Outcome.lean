import Whittle.Declaration.Inventory
import Whittle.Program
import Whittle.Removal.Range

/-!
# Removing an unused variable

* `Mode`: only count the unused variables of a program, or remove one of them.
* `Outcome`: what comes of it.
* `removeUnused`: the removal. The edited program is read again, and it is refused if it has syntax
  errors or if a label has lost its statement.
-/

namespace Whittle

/-- A number that selects an unused variable, counted from one. -/
abbrev Counter := { n : Nat // 0 < n }

/-- What to do with the unused variables of a program. -/
inductive Mode where
  | query
  | apply (counter : Counter)

/-- A state that the removal cannot be in. -/
inductive Violation where
  /-- The counter is in range and selects nothing. -/
  | noSelection (index count : Nat)
  /-- The selected variable belongs to no group. -/
  | missingGroup (name : Text)

/-- The wording of a violation. -/
def Violation.message : Violation → String
  | .noSelection index count =>
    "counter " ++ toString index ++ " is within " ++ toString count ++
      " instance(s) but no declaration was selected"
  | .missingGroup name =>
    "selected declaration `" ++ String.ofList name ++ "` has no declaration group"

/-- What comes of a removal. -/
inductive Outcome where
  | counted (count : Nat)
  /-- The program without the variable. -/
  | applied (output : Text)
  /-- There are fewer unused variables than the counter says. -/
  | outOfRange (index count : Nat)
  | violated (violation : Violation)
  | failed (error : EditError)

namespace Outcome

/-- Whether a removal did what was asked for. -/
def isSuccess : Outcome → Bool
  | .counted _ | .applied _ => true
  | _ => false

/-- The edited program, if there is one. -/
def output? : Outcome → Option Text
  | .applied output => some output
  | _ => none

end Outcome

namespace Placed

/-- Whether a node is a label with nothing after it but its attributes. -/
def isDanglingLabel (t : Placed) : Bool :=
  (t.isNode .labeledStmt || t.isNode .caseStmt) &&
    (t.lastToken?.any (·.token.kind = .colon) || t.nodes.getLast?.any (·.isNode .attr))

/-- The spans of the labels that stand directly before the end of their block. -/
def danglingLabels (root : Placed) : List Span :=
  (root.sites.filter (·.node.isDanglingLabel)).map (·.node.span)

end Placed

/-- Whether an edit left a program sound: it has no syntax errors, and no more labels than before
stand directly before the end of their block. -/
def checkEdit (before : Placed) (edited : Text) : Except EditError Unit :=
  let p := parse edited
  let dangling := p.root.danglingLabels
  if !p.errors.isEmpty then .error (.diagnostics p.errors)
  else if before.danglingLabels.length < dangling.length then
    .error (.diagnostics (dangling.map fun s => ⟨.labelStatement, s⟩))
  else .ok ()

/-- Remove a declaration from a program and check what is left. -/
def Program.without (p : Program) (target : Declaration) (group : DeclGroup) :
    Except EditError Text := do
  let patch ← (Patch.ofText p.text).removeDeclaration target group
  checkEdit p.root patch.apply
  return patch.apply

/-- Count the unused variables of a program, or remove one. -/
def removeUnused (p : Program) (mode : Mode) : Outcome :=
  let inventory := Inventory.ofTree p.root
  match mode with
  | .query => .counted inventory.count
  | .apply ⟨index, _⟩ =>
    let found := inventory.tally index
    if found.count < index then .outOfRange index found.count
    else
      match found.selected with
      | none => .violated (.noSelection index found.count)
      | some target =>
        match inventory.groupOf? target.id with
        | none => .violated (.missingGroup target.name.text)
        | some group =>
          match p.without target group with
          | .ok output => .applied output
          | .error error => .failed error

end Whittle
