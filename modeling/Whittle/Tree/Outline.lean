import Whittle.Tree.Placed

/-!
# Outlines

The outline of a tree lists its nodes and tokens from the root down and from left to right, one per
line, each with its depth, kind and span.
-/

namespace Whittle.Placed

/-- A line of an outline. -/
structure OutlineEntry where
  depth : Nat
  kind : Kind
  span : Span

/-- A line as it is printed. -/
def OutlineEntry.render (e : OutlineEntry) : String :=
  toString e.depth ++ " " ++ e.kind.label ++ " " ++ e.span.render

mutual

/-- The outline of a part that stands at a depth. -/
def outlineAt (depth : Nat) : Placed → List OutlineEntry
  | .token start t => [⟨depth, .token t.kind, ⟨start, start + t.size⟩⟩]
  | .node start kind children =>
    ⟨depth, .node kind, (Placed.node start kind children).span⟩ :: outlineAll (depth + 1) children

/-- The outlines of some parts that stand at a depth. -/
def outlineAll (depth : Nat) : List Placed → List OutlineEntry
  | [] => []
  | t :: ts => t.outlineAt depth ++ outlineAll depth ts

end

/-- The outline of a whole tree. -/
def outline (t : Placed) : List OutlineEntry := t.outlineAt 0

end Whittle.Placed
