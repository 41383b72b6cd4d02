import Whittle.Token.Basic

/-!
# Punctuation and operators

* `marks`: the marks of C, longer ones before the shorter ones they start with.
* `markAt`: the longest mark a text starts with.
-/

namespace Whittle.Token

/-- The punctuation and operators of C. A mark stands before those that it starts with. -/
def marks : List (String × TokenKind) :=
  [("...", .ellipsis), ("<<=", .assignOp), (">>=", .assignOp), ("->", .arrow),
    ("++", .increment), ("--", .decrement), ("+=", .assignOp), ("-=", .assignOp),
    ("*=", .assignOp), ("/=", .assignOp), ("%=", .assignOp), ("&=", .assignOp),
    ("^=", .assignOp), ("|=", .assignOp), ("<<", .operator), (">>", .operator),
    ("<=", .operator), (">=", .operator), ("==", .operator), ("!=", .operator),
    ("&&", .operator), ("||", .operator), ("(", .openParen), (")", .closeParen),
    ("\x7b", .openBrace), ("\x7d", .closeBrace), ("[", .openBracket), ("]", .closeBracket),
    (";", .semicolon), (",", .comma), (".", .dot), ("?", .question), (":", .colon),
    ("=", .assign), ("*", .star), ("&", .amp), ("+", .plus), ("-", .minus), ("!", .bang),
    ("~", .tilde), ("/", .operator), ("%", .operator), ("<", .operator), (">", .operator),
    ("^", .operator), ("|", .operator)]

/-- The kind and the number of characters of the mark a text starts with. -/
def markAt (t : Text) : Option (TokenKind × Nat) :=
  (marks.find? (·.1.toList.isPrefixOf t)).map fun m => (m.2, m.1.toList.length)

end Whittle.Token
