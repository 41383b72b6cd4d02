import Whittle.Tree.Placed

/-!
# Sites

A site is a node together with its surroundings in a tree: the nodes above it, each with the
siblings left and right of the way down.

* `Placed.sites`: the sites of all nodes, a node before those below it, from left to right.
* `Site.parent?`: one step up.
* `Site.address`: the way from the root, which tells the sites of one tree apart.
-/

namespace Whittle

/-- A step from a node down to one of its children, seen from the child. -/
structure Crumb where
  kind : NodeKind
  start : Nat
  /-- The siblings before, the nearest first. -/
  before : List Placed
  /-- The siblings after, the nearest first. -/
  after : List Placed

/-- A node and its surroundings. -/
structure Site where
  node : Placed
  /-- The steps from the node up to the root. -/
  above : List Crumb

namespace Site

/-- The siblings before the node, the nearest first. -/
def before (s : Site) : List Placed := (s.above.head?.map (·.before)).getD []

/-- The siblings after the node, the nearest first. -/
def after (s : Site) : List Placed := (s.above.head?.map (·.after)).getD []

/-- The kind of the node one step up. -/
def parentKind? (s : Site) : Option NodeKind := s.above.head?.map (·.kind)

/-- The site one step up. -/
def parent? (s : Site) : Option Site :=
  match s.above with
  | [] => none
  | c :: rest => some ⟨.node c.start c.kind (c.before.reverse ++ s.node :: c.after), rest⟩

/-- The places among siblings on the way from the node up to the root. -/
def address (s : Site) : List Nat := s.above.map (·.before.length)

/-- Whether the node or one above it is of a kind. -/
def isWithin (s : Site) (kind : NodeKind) : Bool :=
  s.node.isNode kind || s.above.any (·.kind = kind)

/-- Whether `g` is the site one step up, in the same tree. -/
def isChildOf (s g : Site) : Bool := s.above ≠ [] && s.address.tail = g.address

end Site

namespace Placed

mutual

/-- The sites of the nodes of a part with known surroundings. -/
def sitesUnder (above : List Crumb) : Placed → List Site
  | .token _ _ => []
  | .node start kind children =>
    ⟨.node start kind children, above⟩ :: sitesAmong start kind above [] children

/-- The sites of the nodes below a node, from some of its children on. -/
def sitesAmong (start : Nat) (kind : NodeKind) (above : List Crumb) (before : List Placed) :
    List Placed → List Site
  | [] => []
  | t :: ts =>
    t.sitesUnder (⟨kind, start, before, ts⟩ :: above) ++
      sitesAmong start kind above (t :: before) ts

end

/-- The sites of all nodes of a tree, a node before those below it. -/
def sites (root : Placed) : List Site := root.sitesUnder []

end Placed

end Whittle
