import Whittle.Token.Mark
import Whittle.Token.Word

/-!
# How far a token reaches

Each `…Run` counts how many of the characters ahead still belong to the token that is being read.
`extent` chooses among them by the first character.

* `blankRun`, `lineRun`, `commentRun`, `directiveRun`: trivia.
* `quotedRun`, `numberRun`, `wordRun`: literals and words.
* `extent`: the kind of the token at the start of a text, and how many characters after the first
  it takes. `#` opens a directive only where nothing but blanks stands before it on its line.
-/

namespace Whittle.Token

/-- The characters that separate tokens. -/
def isBlank (c : Char) : Bool :=
  c == ' ' || c == '\t' || c == '\n' || c == '\r' || c == '\x0b' || c == '\x0c'

/-- The characters of words. -/
def isWordChar (c : Char) : Bool := c.isAlphanum || c == '_' || c == '$'

/-- The characters a word may start with. -/
def isWordStart (c : Char) : Bool := c.isAlpha || c == '_' || c == '$'

/-- Blanks; a backslash directly before a newline counts as one. -/
def blankRun : Text → Nat
  | '\\' :: '\n' :: cs => 2 + blankRun cs
  | c :: cs => if isBlank c then 1 + blankRun cs else 0
  | [] => 0

/-- Whether blanks hold a newline that no backslash hides. -/
def breaksLine : Text → Bool
  | '\\' :: '\n' :: cs => breaksLine cs
  | c :: cs => c == '\n' || breaksLine cs
  | [] => false

/-- All that stands before the next newline. -/
def lineRun : Text → Nat
  | [] => 0
  | c :: cs => if c = '\n' then 0 else 1 + lineRun cs

/-- A comment up to and including its `*/`, or to the end of the text. -/
def commentRun : Text → Nat
  | '*' :: '/' :: _ => 2
  | _ :: cs => 1 + commentRun cs
  | [] => 0

/-- A `#` line up to its newline; a backslash before a newline continues it. -/
def directiveRun : Text → Nat
  | '\\' :: '\n' :: cs => 2 + directiveRun cs
  | c :: cs => if c = '\n' then 0 else 1 + directiveRun cs
  | [] => 0

/-- A quoted literal up to and including its closing `quote`, or to the end of the line. A backslash
takes the next character with it. -/
def quotedRun (quote : Char) : Text → Nat
  | [] => 0
  | ['\\'] => 1
  | '\\' :: _ :: cs => 2 + quotedRun quote cs
  | c :: cs => if c = '\n' then 0 else if c = quote then 1 else 1 + quotedRun quote cs

/-- The characters of numbers. -/
def isNumberChar (c : Char) : Bool := c.isAlphanum || c == '_' || c == '.'

/-- The letters after which a number may hold a sign. -/
def isExponent (c : Char) : Bool := c == 'e' || c == 'E' || c == 'p' || c == 'P'

/-- A number: letters, digits, dots, and a sign directly after an exponent letter. -/
def numberRun (afterExponent : Bool) : Text → Nat
  | [] => 0
  | c :: cs =>
    if isNumberChar c then 1 + numberRun (isExponent c) cs
    else if afterExponent && (c == '+' || c == '-') then 1 + numberRun false cs
    else 0

/-- The rest of a word. -/
def wordRun : Text → Nat
  | [] => 0
  | c :: cs => if isWordChar c then 1 + wordRun cs else 0

/-- The words that may stand directly before a string literal and belong to it. -/
def stringMarkers : List String := ["L", "u", "U", "u8"]

/-- The words that may stand directly before a character literal and belong to it. -/
def characterMarkers : List String := ["L", "u", "U"]

/-- A word that starts with `c`, with the literal it marks if there is one. -/
def wordExtent (c : Char) (cs : Text) : TokenKind × Nat :=
  let n := wordRun cs
  let word := c :: cs.take n
  match cs.drop n with
  | '\x22' :: rest =>
    if isOneOf stringMarkers word then (.string, n + 1 + quotedRun '\x22' rest)
    else (wordKind word, n)
  | '\x27' :: rest =>
    if isOneOf characterMarkers word then (.character, n + 1 + quotedRun '\x27' rest)
    else (wordKind word, n)
  | _ => (wordKind word, n)

/-- The kind of the token that `c :: cs` starts with, and how many characters of `cs` it takes. -/
def extent (lineStart : Bool) (c : Char) (cs : Text) : TokenKind × Nat :=
  if isBlank c || (c == '\\' && cs.head? == some '\n') then (.whitespace, blankRun cs)
  else if c == '/' && cs.head? == some '/' then (.comment, lineRun cs)
  else if c == '/' && cs.head? == some '*' then (.comment, 1 + commentRun cs.tail)
  else if c == '#' && lineStart then (.directive, directiveRun cs)
  else if c == '\x22' then (.string, quotedRun c cs)
  else if c == '\x27' then (.character, quotedRun c cs)
  else if c.isDigit || (c == '.' && cs.head?.any Char.isDigit) then (.number, numberRun false cs)
  else if isWordStart c then wordExtent c cs
  else match markAt (c :: cs) with
    | some (kind, n) => (kind, n - 1)
    | none => (.stray, 0)

end Whittle.Token
