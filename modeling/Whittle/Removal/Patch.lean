import Whittle.Fault

/-!
# Patches

A patch is a text with edits that are not carried out yet. Edits never overlap; an empty edit may
touch another one at its border.

* `Patch.replace`, `Patch.remove`: add an edit, or refuse it.
* `Patch.apply`: the text with all edits carried out.
-/

namespace Whittle

/-- Why an edit of a program is refused. -/
inductive EditError where
  /-- The span does not lie within the text, between characters. -/
  | outOfBounds (span : Span) (size : Nat)
  | overlap (span : Span)
  /-- The declaration does not belong to its group. -/
  | notInGroup (name : Text)
  /-- No comma stands beside a member of a group with several. -/
  | missingSeparator (name : Text)
  /-- The edited program is broken. -/
  | diagnostics (errors : List SyntaxError)

/-- The wording of a refusal. -/
def EditError.message : EditError → String
  | .outOfBounds span size =>
    "edit range " ++ span.render ++ " is outside of the " ++ toString size ++ " byte buffer"
  | .overlap span => "edit range " ++ span.render ++ " overlaps an earlier edit"
  | .notInGroup name =>
    "declaration `" ++ String.ofList name ++ "` is not part of its declaration group"
  | .missingSeparator name => "no separator next to declaration `" ++ String.ofList name ++ "`"
  | .diagnostics errors =>
    "edited program has " ++ toString errors.length ++ " syntax error(s)"

/-- A span of a text and what is to stand in its place. -/
structure Edit where
  span : Span
  replacement : Text

namespace Edit

/-- The order in which edits are carried out: by start, then by stop. -/
def isBefore (e f : Edit) : Bool :=
  e.span.start < f.span.start || (e.span.start = f.span.start && e.span.stop ≤ f.span.stop)

/-- Whether an edit and a span share a byte, or one of them is empty and inside the other. -/
def overlaps (e : Edit) (s : Span) : Bool := s.start < e.span.stop && e.span.start < s.stop

/-- Put an edit among ordered ones, after those with the same span. -/
def insert (e : Edit) : List Edit → List Edit
  | [] => [e]
  | f :: es => if f.isBefore e then f :: insert e es else e :: f :: es

/-- Carry out edits on the part of a text that starts at byte `pos`. -/
def applyFrom (pos : Nat) (rest : Text) : List Edit → Text
  | [] => rest
  | e :: es =>
    if pos ≤ e.span.start then
      rest.upTo (e.span.start - pos) ++ e.replacement ++
        applyFrom e.span.stop (rest.after (e.span.stop - pos)) es
    else applyFrom pos rest es

end Edit

/-- A text and the edits to be made. -/
structure Patch where
  text : Text
  /-- In the order in which they are carried out. -/
  edits : List Edit

namespace Patch

/-- A text without edits. -/
def ofText (t : Text) : Patch := ⟨t, []⟩

/-- Whether a span lies within the text, between characters. -/
def fits (p : Patch) (s : Span) : Bool :=
  decide (s.stop ≤ p.text.size) && p.text.isBoundary s.start && p.text.isBoundary s.stop

/-- Replace a span. A span that does not fit is refused before one that overlaps an earlier edit. -/
def replace (p : Patch) (s : Span) (replacement : Text) : Except EditError Patch :=
  if !p.fits s then .error (.outOfBounds s p.text.size)
  else if p.edits.any (·.overlaps s) then .error (.overlap s)
  else .ok { p with edits := Edit.insert ⟨s, replacement⟩ p.edits }

/-- Remove a span. -/
def remove (p : Patch) (s : Span) : Except EditError Patch := p.replace s []

/-- The text with all edits carried out. -/
def apply (p : Patch) : Text := Edit.applyFrom 0 p.text p.edits

end Patch

end Whittle
