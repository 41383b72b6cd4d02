import Whittle.Token.Word

/-!
# What the grammar sees of a token

The grammar never looks at spellings. It sees a `Symbol` for each significant token: its kind, what
its spelling adds to the kind (`Sense`), and for an identifier a number that tells which identifiers
are spelled alike.

* `Symbol.ofTokens`: the symbols of some tokens. Identifiers get the same number exactly when they
  are spelled alike, so a consistent change of names changes no symbol.
* `Symbol.level`: how tightly a binary operator binds.
-/

namespace Whittle.Grammar

open Token

/-- What the spelling of a token adds to its kind. -/
inductive Sense where
  | plain
  /-- A builtin type. -/
  | typeWord
  /-- The mark of an extension. -/
  | extension
  /-- The operator `&&`, which also takes the address of a label. -/
  | andAnd
  /-- Any other operator, by the level it binds at. -/
  | binary (level : Nat)
deriving DecidableEq

/-- The levels of the operators that have no token kind of their own, a higher one binding
tighter. -/
def operatorLevels : List (String × Nat) :=
  [("/", 10), ("%", 10), ("<<", 8), (">>", 8), ("<", 7), (">", 7), ("<=", 7), (">=", 7),
    ("==", 6), ("!=", 6), ("^", 4), ("|", 3), ("||", 1)]

/-- What the spelling of a token adds to its kind. -/
def Sense.ofToken (t : Token) : Sense :=
  match t.kind with
  | .specifier =>
    if isOneOf [extensionWord] t.text then .extension
    else if isOneOf typeWords t.text then .typeWord
    else .plain
  | .operator =>
    if isOneOf ["&&"] t.text then .andAnd
    else .binary (((operatorLevels.find? (·.1.toList == t.text)).map (·.2)).getD 0)
  | _ => .plain

/-- A significant token as the grammar sees it. -/
structure Symbol where
  kind : TokenKind
  sense : Sense
  /-- For an identifier, the number of its spelling. -/
  name : Nat
deriving DecidableEq

namespace Symbol

/-- The level at which a symbol binds as a binary operator, zero if it is none. -/
def level (s : Symbol) : Nat :=
  match s.kind, s.sense with
  | .star, _ => 10
  | .plus, _ => 9
  | .minus, _ => 9
  | .amp, _ => 5
  | .operator, .andAnd => 2
  | .operator, .binary n => n
  | _, _ => 0

/-- The symbol of a token. `names` lists the spellings of identifiers, and a spelling's number is
its first place there. -/
def ofToken (names : List Text) (t : Token) : Symbol :=
  { kind := t.kind
    sense := .ofToken t
    name := if t.kind = .identifier then names.idxOf t.text else 0 }

/-- The spellings of all identifiers among some tokens. -/
def identifiers (ts : List Token) : List Text :=
  (ts.filter (·.kind = .identifier)).map (·.text)

/-- The symbols of some tokens. -/
def ofTokens (ts : List Token) : List Symbol :=
  ts.map (ofToken (identifiers ts))

end Symbol

end Whittle.Grammar
