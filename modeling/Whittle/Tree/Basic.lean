import Whittle.Token.Basic

/-!
# Trees

A tree of a program holds all its tokens, trivia included, in the order of the text.

* `Tree.leaves`: the tokens from left to right.
* `Tree.size`: the number of bytes they take.
-/

namespace Whittle

/-- A tree of a program or of a part of it. -/
inductive Tree where
  | token (t : Token)
  | node (kind : NodeKind) (children : List Tree)

namespace Tree

mutual

/-- The tokens of a tree from left to right. -/
def leaves : Tree → List Token
  | .token t => [t]
  | .node _ children => leavesAll children

/-- The tokens of some trees from left to right. -/
def leavesAll : List Tree → List Token
  | [] => []
  | t :: ts => t.leaves ++ leavesAll ts

end

mutual

/-- The number of bytes of a tree. -/
def size : Tree → Nat
  | .token t => t.size
  | .node _ children => sizeAll children

/-- The number of bytes of some trees. -/
def sizeAll : List Tree → Nat
  | [] => 0
  | t :: ts => t.size + sizeAll ts

end

/-- The text of a tree. -/
def text (t : Tree) : Text := Token.concat t.leaves

end Tree

end Whittle
