import Whittle.Tree.Basic

/-!
# Trees with positions

A placed tree knows for each token and node where in the text it starts.

* `Tree.place`: gives every part of a tree its position.
* `Placed.span`: the stretch of the text a part covers.
* `Placed.child?`, `Placed.firstToken?`, `Placed.lastToken?`: parts of a node.
-/

namespace Whittle

/-- A tree whose parts know where they start. -/
inductive Placed where
  | token (start : Nat) (t : Token)
  | node (start : Nat) (kind : NodeKind) (children : List Placed)

mutual

/-- Place a tree that starts at a byte of the text. -/
def Tree.place (start : Nat) : Tree → Placed
  | .token t => .token start t
  | .node kind children => .node start kind (Tree.placeAll start children)

/-- Place trees that follow each other. -/
def Tree.placeAll (start : Nat) : List Tree → List Placed
  | [] => []
  | t :: ts => t.place start :: Tree.placeAll (start + t.size) ts

end

/-- A token with its position. -/
structure Leaf where
  start : Nat
  token : Token
deriving DecidableEq

namespace Leaf

/-- The spelling of the token. -/
def text (l : Leaf) : Text := l.token.text

/-- The stretch of the text the token covers. -/
def span (l : Leaf) : Span := ⟨l.start, l.start + l.token.size⟩

end Leaf

namespace Placed

/-- The byte at which a part starts. -/
def start : Placed → Nat
  | .token start _ => start
  | .node start _ _ => start

/-- The kind of a part. -/
def kind : Placed → Kind
  | .token _ t => .token t.kind
  | .node _ kind _ => .node kind

/-- The parts directly below a node. -/
def children : Placed → List Placed
  | .token _ _ => []
  | .node _ _ children => children

mutual

/-- The byte after the end of a part. -/
def stop : Placed → Nat
  | .token start t => start + t.size
  | .node start _ children => stopAll start children

/-- The byte after the end of some parts that follow each other from a byte on. -/
def stopAll (start : Nat) : List Placed → Nat
  | [] => start
  | t :: ts => stopAll t.stop ts

end

/-- The stretch of the text a part covers. -/
def span (t : Placed) : Span := ⟨t.start, t.stop⟩

/-- Whether a part is a node of a kind. -/
def isNode (k : NodeKind) (t : Placed) : Bool := t.kind = .node k

/-- Whether a part is a token of a kind. -/
def isToken (k : TokenKind) (t : Placed) : Bool := t.kind = .token k

/-- The first child node of a kind. -/
def child? (k : NodeKind) (t : Placed) : Option Placed := t.children.find? (·.isNode k)

/-- Whether a node directly holds a token of a kind. -/
def hasToken (k : TokenKind) (t : Placed) : Bool := t.children.any (·.isToken k)

/-- The nodes directly below a node. -/
def nodes (t : Placed) : List Placed :=
  t.children.filter fun
    | .token _ _ => false
    | .node _ _ _ => true

mutual

/-- The token a part begins with. -/
def firstToken? : Placed → Option Leaf
  | .token start t => some ⟨start, t⟩
  | .node _ _ children => firstTokenOf? children

/-- The token the first of some parts begins with. -/
def firstTokenOf? : List Placed → Option Leaf
  | [] => none
  | t :: _ => t.firstToken?

end

mutual

/-- The token a part ends with. -/
def lastToken? : Placed → Option Leaf
  | .token start t => some ⟨start, t⟩
  | .node _ _ children => lastTokenOf? children

/-- The token the last of some parts ends with. -/
def lastTokenOf? : List Placed → Option Leaf
  | [] => none
  | [t] => t.lastToken?
  | _ :: ts => lastTokenOf? ts

end

end Placed

end Whittle
