import Whittle.Tree.Basic
import Whittle.Tree.Skeleton

/-!
# Weaving tokens into a skeleton

`Skeleton.weave` puts the tokens of a text into a skeleton, one by one from left to right. A slot
takes the trivia up to the next significant token; a leaf takes what trivia are left before that
token, and the token.
-/

namespace Whittle.Skeleton

mutual

/-- The trees a skeleton becomes, and the tokens that are left. -/
def weave : Skeleton → List Token → List Tree × List Token
  | .leaf _, ts =>
    let rest := ts.dropWhile (·.isTrivia)
    ((ts.takeWhile (·.isTrivia) ++ rest.take 1).map .token, rest.drop 1)
  | .slot, ts => ((ts.takeWhile (·.isTrivia)).map .token, ts.dropWhile (·.isTrivia))
  | .node kind children, ts =>
    let r := weaveAll children ts
    ([.node kind r.1], r.2)

/-- The trees some skeletons become one after the other, and the tokens that are left. -/
def weaveAll : List Skeleton → List Token → List Tree × List Token
  | [], ts => ([], ts)
  | s :: ss, ts =>
    let r := s.weave ts
    let q := weaveAll ss r.2
    (r.1 ++ q.1, q.2)

end

end Whittle.Skeleton
