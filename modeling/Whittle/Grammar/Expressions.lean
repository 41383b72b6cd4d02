import Whittle.Grammar.Rule

/-!
# Rules for expressions

The levels from loose to tight: comma, assignment, conditional, the binary operators by their
level, unary, postfix, primary. An operator node gathers the operand before it together with itself
and the operand after it, so operators of one level associate to the left, assignments and
conditionals to the right.
-/

namespace Whittle.Grammar.Rule

/-- An expression, with commas. -/
def expression : Rule Unit :=
  apart do
    read .assignment
    read .commaTail

/-- Further operands of commas. -/
def commaTail : Rule Unit := do
  ifAccepts .comma do
    read .assignment
    gather .binaryExpr
    read .commaTail

/-- An assignment, or an expression that binds tighter. -/
def assignment : Rule Unit :=
  apart do
    read .conditional
    match ← next with
    | some .assign | some .assignOp =>
      bump
      read .assignment
      gather .binaryExpr
    | _ => pure ()

/-- A conditional, its middle operand perhaps left out, or an expression that binds tighter. -/
def conditional : Rule Unit :=
  apart do
    read (.binary 1)
    ifAccepts .question do
      unlessSees .colon (read .expression)
      require .colon .conditionalColon
      read .conditional
      gather .conditionalExpr

/-- Operands joined by binary operators of at least a level. -/
def binary (level : Nat) : Rule Unit :=
  apart do
    read .unary
    read (.binaryTail level)

/-- Further operands of binary operators of at least a level. -/
def binaryTail (level : Nat) : Rule Unit := do
  let found := (← view).level
  unless found = 0 || found < level do
    bump
    read (.binary (found + 1))
    gather .binaryExpr
    read (.binaryTail level)

/-- A prefix operator with its operand. -/
def prefixed : Rule Unit :=
  node .prefixExpr do
    bump
    read .unary

/-- The address of a label. -/
def labelAddress : Rule Unit :=
  node .prefixExpr do
    bump
    require .identifier .addressLabel

/-- The size or alignment of a type or of an expression. -/
def sizeofExpression : Rule Unit :=
  node .sizeofExpr do
    bump
    let v ← view
    if v.kindAt 0 = some .openParen && v.startsType 1 then
      bump
      read .typeName
      require .closeParen .typeClose
      ifSees .openBrace (read .initList)
    else
      read .unary

/-- A type in parentheses, which makes a compound literal or a cast of what follows. -/
def typed : Rule Unit :=
  apart do
    bump
    read .typeName
    require .closeParen .typeClose
    if ← sees .openBrace then
      read .initList
      gather .compoundLiteral
      read .postfixTail
    else
      read .unary
      gather .castExpr

/-- A primary expression with its postfix operators. -/
def postfixed : Rule Unit :=
  apart do
    read .primary
    read .postfixTail

/-- A unary expression. -/
def unary : Rule Unit := do
  let v ← view
  match v.kindAt 0 with
  | some .increment | some .decrement | some .amp | some .star | some .plus | some .minus
  | some .bang | some .tilde => prefixed
  | some .operator => if v.senseAt 0 = .andAnd then labelAddress else postfixed
  | some .specifier => if v.senseAt 0 = .extension then prefixed else postfixed
  | some .kwSizeof => sizeofExpression
  | some .openParen => if v.startsType 1 then typed else postfixed
  | _ => postfixed

/-- Calls, indices, fields and steps after an operand. -/
def postfixTail : Rule Unit := do
  match ← next with
  | some .openParen =>
    read .argList
    gather .callExpr
    read .postfixTail
  | some .openBracket =>
    bump
    read .expression
    require .closeBracket .indexClose
    gather .indexExpr
    read .postfixTail
  | some .dot | some .arrow =>
    bump
    require .identifier .fieldName
    gather .fieldExpr
    read .postfixTail
  | some .increment | some .decrement =>
    bump
    gather .postfixExpr
    read .postfixTail
  | _ => pure ()

/-- The arguments of a call. -/
def argList : Rule Unit :=
  node .argList do
    bump
    read .args
    require .closeParen .argumentsClose

/-- An argument. Builtin functions also take types. -/
def argument : Rule Unit := do
  if (← view).startsType 0 then read .typeName else read .assignment

/-- Arguments up to the closing parenthesis. -/
def args : Rule Unit := do
  unless ← endsAt .closeParen do
    let before ← remaining
    argument
    if (← remaining) ≠ before then ifAccepts .comma (read .args)

/-- A name, a literal, a statement in parentheses or an expression in parentheses. -/
def primary : Rule Unit := do
  let v ← view
  match v.kindAt 0 with
  | some .identifier => leafNode .nameRef
  | some .number | some .character => leafNode .literal
  | some .string => node .literal (read (.series .strings))
  | some .openParen =>
    if v.kindAt 1 = some .openBrace then
      node .stmtExpr do
        bump
        read .compound
        require .closeParen .statementExprClose
    else
      node .parenExpr do
        bump
        read .expression
        require .closeParen .parenClose
  | none | some .closeParen | some .closeBracket | some .closeBrace | some .semicolon
  | some .comma => fault .noExpression
  | _ => reject .noExpression

/-- Whether a series goes on with a symbol. -/
def isInSeries : Series → View → Bool
  | .pointerQualifiers, v => v.kindAt 0 = some .specifier && v.senseAt 0 ≠ .typeWord
  | .arrayQualifiers, v => v.kindAt 0 = some .kwStatic || v.kindAt 0 = some .specifier
  | .asmQualifiers, v => v.kindAt 0 = some .specifier || v.kindAt 0 = some .kwGoto
  | .strings, v => v.kindAt 0 = some .string

/-- Symbols as long as the series goes on. -/
def series (which : Series) : Rule Unit := do
  if isInSeries which (← view) then
    bump
    read (.series which)

end Whittle.Grammar.Rule
