import Whittle.Grammar.Symbol

/-!
# Skeletons

A skeleton is a tree without spellings and trivia. Its leaves are the symbols that were consumed and
its slots say where the trivia ahead of the next one settle, so that it fits every text with the
same significant tokens.
-/

namespace Whittle

/-- A tree that still lacks its tokens. -/
inductive Skeleton where
  /-- The next significant token, seen as a symbol, and before it the trivia that have settled
  nowhere yet. -/
  | leaf (symbol : Grammar.Symbol)
  /-- The trivia ahead of the next significant token settle here. -/
  | slot
  | node (kind : NodeKind) (children : List Skeleton)

end Whittle
