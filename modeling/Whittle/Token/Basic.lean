import Whittle.Kind
import Whittle.Text

/-!
# Tokens

A token is a kind with the characters it was read from. Trivia tokens are kept like all others, so
that a list of tokens still holds its whole text.
-/

namespace Whittle

/-- A token and its spelling. -/
structure Token where
  kind : TokenKind
  text : Text
deriving DecidableEq

namespace Token

/-- Whitespace, a comment or a `#` line. -/
def isTrivia (t : Token) : Bool := t.kind.isTrivia

/-- The number of bytes of the spelling. -/
def size (t : Token) : Nat := t.text.size

/-- The spellings of some tokens, one after the other. -/
def concat (ts : List Token) : Text := ts.flatMap (·.text)

/-- The tokens that carry grammar. -/
def significant (ts : List Token) : List Token := ts.filter (!·.isTrivia)

end Token

end Whittle
