import Whittle.Grammar.Declarations
import Whittle.Grammar.Expressions
import Whittle.Grammar.Statements

/-!
# Reading a program

* `Construct.rule`: the rule of each construct.
* `Construct.read`: reading a construct. It ends because each construct that is read within another
  either has fewer symbols ahead or a lower rank; one that has neither is not read, and the state is
  marked as stalled.
* `skeletons`, `faults`: what the symbols of a whole file are read as.
-/

namespace Whittle.Grammar

namespace Construct

/-- The rule of a construct. -/
def rule : (c : Construct) → Rule c.Result
  | .declarations => Rule.declarations
  | .externalDeclaration => Rule.externalDeclaration
  | .declaration place => Rule.declaration place
  | .moreDeclarators isTypedef => Rule.moreDeclarators isTypedef
  | .functionBody names => Rule.functionBody names
  | .parameterDeclarations => Rule.parameterDeclarations
  | .specifiers => Rule.specifiers
  | .specifierList isTypedef hasType => Rule.specifierList isTypedef hasType
  | .tagSpecifier => Rule.tagSpecifier
  | .structBody => Rule.structBody
  | .fields => Rule.fields
  | .fieldGroup => Rule.fieldGroup
  | .fieldDeclarators => Rule.fieldDeclarators
  | .enumBody => Rule.enumBody
  | .enumerators => Rule.enumerators
  | .attributes labels => Rule.attributes labels
  | .balanced depth => Rule.balanced depth
  | .typeofSpecifier => Rule.typeofSpecifier
  | .declarator => Rule.declarator
  | .pointers => Rule.pointers
  | .suffixes isFirst known => Rule.suffixes isFirst known
  | .arraySuffix => Rule.arraySuffix
  | .paramList => Rule.paramList
  | .params => Rule.params
  | .param => Rule.param
  | .initializer => Rule.initializer
  | .initList => Rule.initList
  | .initializers => Rule.initializers
  | .designator => Rule.designator
  | .designatorParts => Rule.designatorParts
  | .typeName => Rule.typeName
  | .compound => Rule.compound
  | .blockItems => Rule.blockItems
  | .blockItem => Rule.blockItem
  | .statement => Rule.statement
  | .labelBody => Rule.labelBody
  | .condition => Rule.condition
  | .forStatement => Rule.forStatement
  | .asmStatement => Rule.asmStatement
  | .asmOperands => Rule.asmOperands
  | .expression => Rule.expression
  | .commaTail => Rule.commaTail
  | .assignment => Rule.assignment
  | .conditional => Rule.conditional
  | .binary level => Rule.binary level
  | .binaryTail level => Rule.binaryTail level
  | .unary => Rule.unary
  | .postfixTail => Rule.postfixTail
  | .argList => Rule.argList
  | .args => Rule.args
  | .primary => Rule.primary
  | .series which => Rule.series which

/-- What grows smaller with every construct that is read within another: the symbols ahead and,
among equally many, the rank. -/
def measure (c : Construct) (s : State) : Nat := s.ahead.length * ranks + c.rank

/-- Read a construct. -/
def read (c : Construct) (s : State) : c.Result × State :=
  c.rule.run (fun c' s' =>
    if _h : c'.measure s' < c.measure s then c'.read s'
    else (c'.noResult, { s' with stalled := true })) s
termination_by c.measure s

end Construct

/-- The state before the first symbol: the file's scope is open and nothing is built. -/
def State.initial (symbols : List Symbol) : State :=
  { ahead := symbols, scopes := [[]], built := [], faults := [], stalled := false }

/-- The state after all declarations of a file are read. -/
def State.final (symbols : List Symbol) : State :=
  (Construct.declarations.read (.initial symbols)).2

/-- The skeletons of the declarations of a file. Its trailing trivia settle after the last one. -/
def skeletons (symbols : List Symbol) : List Skeleton :=
  (.slot :: (State.final symbols).built).reverse

/-- The faults of a file in the order in which they are noticed. Each comes with the place of the
symbol it was noticed at; that of a fault at the end is the number of all symbols. -/
def faults (symbols : List Symbol) : List (Fault × Nat) :=
  (State.final symbols).faults.reverse.map fun f => (f.1, symbols.length - f.2)

end Whittle.Grammar
