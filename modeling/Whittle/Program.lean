import Whittle.Grammar.Reading
import Whittle.Token.Split
import Whittle.Tree.Placed
import Whittle.Tree.Weave

/-!
# Programs

* `parse`: the tree and the syntax errors of any text.
* `Program`: a text without syntax errors, with its tree.
-/

namespace Whittle

open Grammar

/-- What a text is read as. -/
structure Parsed where
  tree : Tree
  /-- The errors in the order in which they were noticed. -/
  errors : List SyntaxError

/-- The spans of the significant ones of some tokens, the first of which starts at a byte. -/
def Token.significantSpans (start : Nat) : List Token → List Span
  | [] => []
  | t :: ts =>
    if t.isTrivia then significantSpans (start + t.size) ts
    else ⟨start, start + t.size⟩ :: significantSpans (start + t.size) ts

/-- Where a fault lies that was noticed at the significant token with a number: at that token, or at
the end of the text if there is none. -/
def locate (t : Text) (spans : List Span) (n : Nat) : Span :=
  spans[n]?.getD ⟨t.size, t.size⟩

/-- Read a text. Every text has a tree; it is sound if there are no errors. -/
def parse (t : Text) : Parsed :=
  let ts := tokens t
  let symbols := Symbol.ofTokens (Token.significant ts)
  let spans := Token.significantSpans 0 ts
  { tree := .node .root (Skeleton.weaveAll (skeletons symbols) ts).1
    errors := (faults symbols).map fun f => ⟨f.1, locate t spans f.2⟩ }

/-- The tree of a text with positions. -/
def Parsed.root (p : Parsed) : Placed := p.tree.place 0

/-- A text without syntax errors, and its tree. -/
structure Program where
  text : Text
  root : Placed
  root_eq : root = (parse text).root
  errors_eq_nil : (parse text).errors = []

/-- The wording of the refusal of a text with syntax errors. -/
def Program.refusal (errors : List SyntaxError) : String :=
  "program has " ++ toString errors.length ++ " syntax error(s)"

/-- Read a text, refusing it if it has syntax errors. -/
def Program.parse (t : Text) : Except (List SyntaxError) Program :=
  let p := Whittle.parse t
  if h : p.errors = [] then .ok ⟨t, p.root, rfl, h⟩ else .error p.errors

end Whittle
