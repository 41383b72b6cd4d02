import Whittle.Text

/-!
# Syntax errors

A `Fault` says what a place of the program lacks or has too much; a `SyntaxError` is a fault with
the span it was noticed at. The wording of every fault stands in `Fault.message`.
-/

namespace Whittle

/-- What is wrong at a place of the program. -/
inductive Fault where
  /-- No declaration can start here. -/
  | noDeclaration
  | declarationEnd
  | noFunctionBody
  | noField
  | fieldEnd
  | fieldsEnd
  | enumeratorsEnd
  /-- An attribute's parentheses run to the end of the text. -/
  | unbalanced
  | typeofOpen
  | typeofClose
  | declaratorClose
  | arrayClose
  | noParameter
  | parametersClose
  | noInitializer
  | initializersEnd
  | designatorField
  | designatorClose
  | noStatement
  | blockEnd
  | doWhile
  | doEnd
  | caseColon
  | defaultColon
  | returnEnd
  | jumpEnd
  | gotoLabel
  | gotoEnd
  | expressionEnd
  | conditionOpen
  | conditionClose
  | forOpen
  | forInitEnd
  | forConditionEnd
  | forClose
  | asmOpen
  | asmOperandName
  | asmOperand
  | asmClose
  | asmEnd
  | conditionalColon
  | addressLabel
  | typeClose
  | indexClose
  | fieldName
  | argumentsClose
  | statementExprClose
  | parenClose
  | noExpression
  /-- A label with nothing between it and the end of its block. -/
  | labelStatement
deriving DecidableEq

/-- The wording of a fault. -/
def Fault.message : Fault → String
  | .noDeclaration => "expected a declaration"
  | .declarationEnd => "expected `;` after declaration"
  | .noFunctionBody => "expected a function body"
  | .noField => "expected a field declaration"
  | .fieldEnd => "expected `;` after field"
  | .fieldsEnd => "expected `\x7d` after fields"
  | .enumeratorsEnd => "expected `\x7d` after enumerators"
  | .unbalanced => "unbalanced parentheses"
  | .typeofOpen => "expected `(` after typeof"
  | .typeofClose => "expected `)` after typeof operand"
  | .declaratorClose => "expected `)` after declarator"
  | .arrayClose => "expected `]` after array size"
  | .noParameter => "expected a parameter"
  | .parametersClose => "expected `)` after parameters"
  | .noInitializer => "expected an initializer"
  | .initializersEnd => "expected `\x7d` after initializer list"
  | .designatorField => "expected field name after `.`"
  | .designatorClose => "expected `]` after designator"
  | .noStatement => "expected a statement"
  | .blockEnd => "expected `\x7d` after block"
  | .doWhile => "expected `while` after do body"
  | .doEnd => "expected `;` after do statement"
  | .caseColon => "expected `:` after case"
  | .defaultColon => "expected `:` after default"
  | .returnEnd => "expected `;` after return"
  | .jumpEnd => "expected `;` after jump"
  | .gotoLabel => "expected label after goto"
  | .gotoEnd => "expected `;` after goto"
  | .expressionEnd => "expected `;` after expression"
  | .conditionOpen => "expected `(` before condition"
  | .conditionClose => "expected `)` after condition"
  | .forOpen => "expected `(` after for"
  | .forInitEnd => "expected `;` after for initializer"
  | .forConditionEnd => "expected `;` after for condition"
  | .forClose => "expected `)` after for clauses"
  | .asmOpen => "expected `(` after asm"
  | .asmOperandName => "expected `]` after operand name"
  | .asmOperand => "unexpected token in asm operands"
  | .asmClose => "expected `)` after asm operands"
  | .asmEnd => "expected `;` after asm"
  | .conditionalColon => "expected `:` in conditional expression"
  | .addressLabel => "expected label after `&&`"
  | .typeClose => "expected `)` after type"
  | .indexClose => "expected `]` after index"
  | .fieldName => "expected field name"
  | .argumentsClose => "expected `)` after arguments"
  | .statementExprClose => "expected `)` after statement expression"
  | .parenClose => "expected `)`"
  | .noExpression => "expected an expression"
  | .labelStatement => "expected a statement after label"

/-- A fault and where it was noticed. -/
structure SyntaxError where
  fault : Fault
  span : Span
deriving DecidableEq

namespace SyntaxError

/-- The wording of the fault. -/
def message (e : SyntaxError) : String := e.fault.message

/-- The wording of the fault with its span. -/
def render (e : SyntaxError) : String := e.message ++ " at " ++ e.span.render

end SyntaxError

end Whittle
