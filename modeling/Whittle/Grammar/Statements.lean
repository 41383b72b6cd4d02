import Whittle.Grammar.Rule

/-!
# Rules for statements
-/

namespace Whittle.Grammar.Rule

/-- A block, which is a scope. -/
def compound : Rule Unit :=
  node .compoundStmt do
    bump
    let _ ← inScope [] (read .blockItems)
    require .closeBrace .blockEnd

/-- Declarations and statements up to the closing brace. -/
def blockItems : Rule Unit := do
  unless ← endsAt .closeBrace do
    orReject (read .blockItem) .noStatement
    read .blockItems

/-- A declaration or a statement. -/
def blockItem : Rule Unit := do
  if (← view).startsDeclaration then read (.declaration .block) else read .statement

/-- What a label stands before; nothing if it closes its block. -/
def labelBody : Rule Unit := do
  unless ← endsAt .closeBrace do read .blockItem

/-- The condition of a statement. -/
def condition : Rule Unit := do
  require .openParen .conditionOpen
  read .expression
  require .closeParen .conditionClose

/-- A statement with a condition and a body, and for `if` perhaps an `else`. -/
def conditionStatement (kind : NodeKind) : Rule Unit :=
  node kind do
    bump
    read .condition
    read .statement
    if kind = .ifStmt then
      ifAccepts .kwElse (read .statement)

/-- A `do` statement. -/
def doStatement : Rule Unit :=
  node .doStmt do
    bump
    read .statement
    require .kwWhile .doWhile
    read .condition
    require .semicolon .doEnd

/-- A `case` label, perhaps of a range, with its statement. -/
def caseStatement : Rule Unit :=
  node .caseStmt do
    bump
    read .conditional
    ifAccepts .ellipsis (read .conditional)
    require .colon .caseColon
    read .labelBody

/-- A `default` label with its statement. -/
def defaultStatement : Rule Unit :=
  node .caseStmt do
    bump
    require .colon .defaultColon
    read .labelBody

/-- A `return` statement. -/
def returnStatement : Rule Unit :=
  node .returnStmt do
    bump
    unlessSees .semicolon (read .expression)
    require .semicolon .returnEnd

/-- A `break` or `continue` statement. -/
def jumpStatement : Rule Unit :=
  node .jumpStmt do
    bump
    require .semicolon .jumpEnd

/-- Where a `goto` goes: a label or a computed address. -/
def gotoTarget : Rule Unit := do
  if ← accept .star then read .expression else require .identifier .gotoLabel

/-- A `goto` statement. -/
def gotoStatement : Rule Unit :=
  node .jumpStmt do
    bump
    gotoTarget
    require .semicolon .gotoEnd

/-- A label with its attributes and its statement. -/
def labeledStatement : Rule Unit :=
  node .labeledStmt do
    bump
    bump
    read (.attributes false)
    read .labelBody

/-- An expression as a statement. -/
def expressionStatement : Rule Unit :=
  node .exprStmt do
    read .expression
    require .semicolon .expressionEnd

/-- A statement. -/
def statement : Rule Unit := do
  let v ← view
  match v.kindAt 0 with
  | some .openBrace => read .compound
  | some .kwIf => conditionStatement .ifStmt
  | some .kwWhile => conditionStatement .whileStmt
  | some .kwSwitch => conditionStatement .switchStmt
  | some .kwDo => doStatement
  | some .kwFor => read .forStatement
  | some .kwCase => caseStatement
  | some .kwDefault => defaultStatement
  | some .kwReturn => returnStatement
  | some .kwBreak | some .kwContinue => jumpStatement
  | some .kwGoto => gotoStatement
  | some .semicolon => leafNode .emptyStmt
  | some .kwAsm => read .asmStatement
  | some .identifier =>
    if v.kindAt 1 = some .colon then labeledStatement else expressionStatement
  | _ => expressionStatement

/-- The first clause of a `for` statement: a declaration, an expression or nothing. -/
def forInit : Rule Unit := do
  if (← view).startsDeclaration then read (.declaration .forHead)
  else unlessSees .semicolon (read .expression)

/-- The clauses of a `for` statement after its parenthesis. -/
def forClauses : Rule Unit := do
  forInit
  require .semicolon .forInitEnd
  unlessSees .semicolon (read .expression)
  require .semicolon .forConditionEnd
  unlessSees .closeParen (read .expression)
  require .closeParen .forClose

/-- A `for` statement, which is a scope. -/
def forStatement : Rule Unit :=
  node .forStmt do
    bump
    let _ ← inScope [] do
      requireThen .openParen .forOpen forClauses
      read .statement

/-- An `asm` statement. -/
def asmStatement : Rule Unit :=
  node .asmStmt do
    bump
    read (.series .asmQualifiers)
    requireThen .openParen .asmOpen do
      read .asmOperands
      require .closeParen .asmClose
    require .semicolon .asmEnd

/-- One part of an `asm` statement: of its template, sections, operands, clobbers or labels. -/
def asmOperand : Rule Unit := do
  match ← next with
  | some .string | some .colon | some .comma | some .identifier => bump
  | some .openBracket =>
    bump
    optional .identifier
    require .closeBracket .asmOperandName
  | some .openParen => read .primary
  | _ => reject .asmOperand

/-- The parts of an `asm` statement up to its closing parenthesis. -/
def asmOperands : Rule Unit := do
  unless ← endsAt .closeParen do
    asmOperand
    read .asmOperands

end Whittle.Grammar.Rule
