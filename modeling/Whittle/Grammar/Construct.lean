/-!
# The constructs of the language

`Construct` lists what the grammar reads as one unit. A repetition is a construct of its own that
reads one item and then itself. `Construct.Result` is what reading one gives besides trees, and
`Construct.rank` orders the constructs: one that is read first thing within another has a lower
rank, so that reading goes on in one place only finitely often.
-/

namespace Whittle.Grammar

/-- The names declared in a scope, the latest first, each marked whether it is a typedef. -/
abbrev Names := List (Nat × Bool)

namespace Names

/-- Declare a name. Its earlier declarations no longer count. -/
def declare (ns : Names) (name : Nat) (isTypedef : Bool) : Names := (name, isTypedef) :: ns

/-- Whether a name is a typedef, if it is declared at all. -/
def find? (ns : Names) (name : Nat) : Option Bool := ns.lookup name

end Names

/-- Where a declaration stands. -/
inductive Place where
  | file
  | block
  /-- In the head of a `for` statement, which has its semicolon to itself. -/
  | forHead
deriving DecidableEq

/-- Symbols that are consumed as long as they come. -/
inductive Series where
  /-- Qualifiers after the star of a pointer. -/
  | pointerQualifiers
  /-- Qualifiers before the size of an array. -/
  | arrayQualifiers
  /-- Qualifiers after `asm`. -/
  | asmQualifiers
  /-- String literals, which join to one. -/
  | strings

/-- What a declarator declares. -/
structure Declared where
  /-- The name, unless the declarator is abstract. -/
  name : Option Nat
  /-- The names of the parameters, if it declares a function. -/
  params : Option Names

/-- The units of the grammar. -/
inductive Construct where
  | declarations
  | externalDeclaration
  | declaration (place : Place)
  | moreDeclarators (isTypedef : Bool)
  | functionBody (params : Names)
  | parameterDeclarations
  | specifiers
  | specifierList (isTypedef hasType : Bool)
  | tagSpecifier
  | structBody
  | fields
  | fieldGroup
  | fieldDeclarators
  | enumBody
  | enumerators
  /-- Attributes, and where `labels` is set also the `asm` labels of a declarator. -/
  | attributes (labels : Bool)
  /-- The rest of some parentheses, with `depth` of them open. -/
  | balanced (depth : Nat)
  | typeofSpecifier
  | declarator
  | pointers
  /-- Array sizes and parameter lists. The parameters of the declared function are in `params` once
  they are known, and can only come from the first suffix of a level. -/
  | suffixes (isFirst : Bool) (params : Option Names)
  | arraySuffix
  | paramList
  | params
  | param
  | initializer
  | initList
  | initializers
  | designator
  | designatorParts
  | typeName
  | compound
  | blockItems
  | blockItem
  | statement
  | labelBody
  | condition
  | forStatement
  | asmStatement
  | asmOperands
  | expression
  | commaTail
  | assignment
  | conditional
  /-- Operators of at least a level. -/
  | binary (level : Nat)
  | binaryTail (level : Nat)
  | unary
  | postfixTail
  | argList
  | args
  | primary
  | series (which : Series)

namespace Construct

/-- What reading a construct gives besides trees. -/
abbrev Result : Construct → Type
  | .specifiers => Bool
  | .specifierList _ _ => Bool
  | .declarator => Declared
  | .suffixes _ _ => Option Names
  | .paramList => Names
  | _ => Unit

/-- The result for a construct that is not read. -/
def noResult : (c : Construct) → c.Result
  | .specifiers => false
  | .specifierList isTypedef _ => isTypedef
  | .declarator => ⟨none, none⟩
  | .suffixes _ known => known
  | .paramList => []
  | .declarations | .externalDeclaration | .declaration _ | .moreDeclarators _ | .functionBody _
  | .parameterDeclarations | .tagSpecifier | .structBody | .fields | .fieldGroup
  | .fieldDeclarators | .enumBody | .enumerators | .attributes _ | .balanced _ | .typeofSpecifier
  | .pointers | .arraySuffix | .params | .param | .initializer | .initList | .initializers
  | .designator | .designatorParts | .typeName | .compound | .blockItems | .blockItem | .statement
  | .labelBody | .condition | .forStatement | .asmStatement | .asmOperands | .expression
  | .commaTail | .assignment | .conditional | .binary _ | .binaryTail _ | .unary | .postfixTail
  | .argList | .args | .primary | .series _ => ()

/-- The place of a construct in the order of reading. -/
def rank : Construct → Nat
  | .declarations => 20
  | .externalDeclaration => 19
  | .declaration .file => 18
  | .functionBody _ => 17
  | .parameterDeclarations => 16
  | .blockItems => 16
  | .labelBody => 16
  | .blockItem => 15
  | .declaration .block => 14
  | .declaration .forHead => 14
  | .statement => 14
  | .forStatement => 13
  | .asmStatement => 13
  | .compound => 13
  | .condition => 13
  | .args => 13
  | .initializers => 13
  | .designator => 12
  | .initializer => 12
  | .expression => 12
  | .assignment => 11
  | .conditional => 10
  | .binary _ => 9
  | .unary => 8
  | .primary => 7
  | .postfixTail => 7
  | .argList => 6
  | .binaryTail _ => 6
  | .commaTail => 6
  | .initList => 6
  | .designatorParts => 6
  | .asmOperands => 12
  | .fields => 9
  | .fieldGroup => 8
  | .fieldDeclarators => 7
  | .params => 8
  | .param => 7
  | .typeName => 7
  | .specifiers => 6
  | .specifierList _ _ => 5
  | .tagSpecifier => 4
  | .typeofSpecifier => 4
  | .declarator => 6
  | .suffixes _ _ => 5
  | .arraySuffix => 4
  | .paramList => 4
  | .moreDeclarators _ => 4
  | .structBody => 3
  | .enumBody => 3
  | .enumerators => 3
  | .pointers => 3
  | .attributes _ => 2
  | .balanced _ => 1
  | .series _ => 1

/-- One more than the greatest rank. -/
def ranks : Nat := 21

end Construct

end Whittle.Grammar
