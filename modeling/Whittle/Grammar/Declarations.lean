import Whittle.Grammar.Rule

/-!
# Rules for declarations

Declarations, their specifiers, declarators, parameters and initializers. A name counts as declared
from the end of its declarator on, so it is in scope in its own initializer. An enumerator counts
from the end of its value on.
-/

namespace Whittle.Grammar.Rule

/-! ### Declarations -/

/-- The declarations of a file. -/
def declarations : Rule Unit := do
  unless (← view).ahead.isEmpty do
    orReject (read .externalDeclaration) .noDeclaration
    read .declarations

/-- A declaration or definition outside functions. -/
def externalDeclaration : Rule Unit := do
  let v ← view
  match v.kindAt 0 with
  | some .semicolon => leafNode .emptyStmt
  | some .kwAsm => read .asmStatement
  | some .identifier | some .star | some .openParen => read (.declaration .file)
  | _ => if v.startsDeclaration then read (.declaration .file) else reject .noDeclaration

/-- What follows the declarator of a group's member: its initializer, if it has one. -/
def initPart (name : Option Nat) (isTypedef : Bool) : Rule Unit := do
  declare name isTypedef
  ifAccepts .assign (read .initializer)
  gather .initDeclarator

/-- The first declarator of a declaration, with its initializer. If it turns out to open a function
definition, only the declarator is read, and what it declares is the result. -/
def firstDeclarator (place : Place) (isTypedef : Bool) : Rule (Option Declared) :=
  apart do
    let d ← read .declarator
    let v ← view
    -- old-style definitions declare their parameters before the body
    let isOldStyle := d.params.isSome && v.startsDeclaration
    if place = .file && (v.kindAt 0 = some .openBrace || isOldStyle) then
      return some d
    else
      initPart d.name isTypedef
      return none

/-- Carry out a rule, except in the head of a `for` statement. -/
def unlessInHead (place : Place) (inner : Rule Unit) : Rule Unit :=
  if place = .forHead then pure () else inner

/-- A declaration group or, at file level, a function definition. -/
def declaration (place : Place) : Rule Unit :=
  apart do
    let isTypedef ← read .specifiers
    if ← sees .semicolon then
      unlessInHead place bump
      gather .declGroup
    else
      match ← firstDeclarator place isTypedef with
      | some d =>
        declare d.name false
        read (.functionBody (d.params.getD []))
        gather .functionDef
      | none =>
        read (.moreDeclarators isTypedef)
        unlessInHead place (require .semicolon .declarationEnd)
        gather .declGroup

/-- The further members of a declaration group. -/
def moreDeclarators (isTypedef : Bool) : Rule Unit := do
  ifAccepts .comma do
    apart do
      let d ← read .declarator
      initPart d.name isTypedef
    read (.moreDeclarators isTypedef)

/-- The parameter declarations of an old-style definition and the body, all with the parameters in
scope. -/
def functionBody (params : Names) : Rule Unit := do
  let _ ← inScope params do
    read .parameterDeclarations
    if ← sees .openBrace then read .compound else fault .noFunctionBody

/-- The parameter declarations of an old-style definition. -/
def parameterDeclarations : Rule Unit := do
  if (← view).startsDeclaration then
    let before ← remaining
    read (.declaration .block)
    if (← remaining) ≠ before then read .parameterDeclarations

/-! ### Specifiers -/

/-- The specifiers of a declaration; gives whether `typedef` is among them. -/
def specifiers : Rule Bool := node .specifiers (read (.specifierList false false))

/-- An attribute, an alignment or the `asm` label of a declarator, kept as it is. -/
def oneAttribute : Rule Unit :=
  node .attr do
    bump
    ifSees .openParen (read (.balanced 0))

/-- Specifiers one by one. The name of a type counts only while no type was given. -/
def specifierList (isTypedef hasType : Bool) : Rule Bool := do
  let v ← view
  match v.kindAt 0 with
  | some .kwTypedef =>
    bump
    read (.specifierList true hasType)
  | some .kwExtern | some .kwStatic =>
    bump
    read (.specifierList isTypedef hasType)
  | some .specifier =>
    bump
    read (.specifierList isTypedef (hasType || v.senseAt 0 = .typeWord))
  | some .kwStruct | some .kwUnion | some .kwEnum =>
    read .tagSpecifier
    read (.specifierList isTypedef true)
  | some .kwTypeof =>
    read .typeofSpecifier
    read (.specifierList isTypedef true)
  | some .kwAttribute =>
    oneAttribute
    read (.specifierList isTypedef hasType)
  | some .identifier =>
    if !hasType && v.isTypedef (v.nameAt 0) then
      bump
      read (.specifierList isTypedef true)
    else
      return isTypedef
  | _ => return isTypedef

/-- A structure, union or enumeration, with or without its body. -/
def tagSpecifier : Rule Unit :=
  node .tagSpecifier do
    let isEnum ← sees .kwEnum
    bump
    read (.attributes false)
    optional .identifier
    ifSees .openBrace (if isEnum then read .enumBody else read .structBody)
    read (.attributes false)

/-- The fields of a structure or union. -/
def structBody : Rule Unit :=
  node .structBody do
    bump
    read .fields
    require .closeBrace .fieldsEnd

/-- Field declarations up to the closing brace. -/
def fields : Rule Unit := do
  unless ← endsAt .closeBrace do
    orReject (do unless ← accept .semicolon do read .fieldGroup) .noField
    read .fields

/-- A field declaration. -/
def fieldGroup : Rule Unit :=
  node .fieldGroup do
    let _ ← read .specifiers
    unlessSees .semicolon (read .fieldDeclarators)
    require .semicolon .fieldEnd

/-- The declarators of a field declaration, with the widths of bit-fields. -/
def fieldDeclarators : Rule Unit := do
  unlessSees .colon do
    let _ ← read .declarator
  ifAccepts .colon (read .conditional)
  read (.attributes false)
  ifAccepts .comma (read .fieldDeclarators)

/-- The enumerators of an enumeration. -/
def enumBody : Rule Unit :=
  node .enumBody do
    bump
    read .enumerators
    require .closeBrace .enumeratorsEnd

/-- Enumerators as long as names come. -/
def enumerators : Rule Unit := do
  if ← sees .identifier then
    let name := (← view).nameAt 0
    node .enumerator do
      leafNode .name
      read (.attributes false)
      ifAccepts .assign (read .conditional)
    declare (some name) false
    ifAccepts .comma (read .enumerators)

/-- Attributes as long as they come. -/
def attributes (labels : Bool) : Rule Unit := do
  let k ← next
  if k = some .kwAttribute || (labels && k = some .kwAsm) then
    oneAttribute
    read (.attributes labels)

/-- Everything up to the parenthesis that closes the outermost open one. -/
def balanced (depth : Nat) : Rule Unit := do
  match ← next with
  | none => fault .unbalanced
  | some kind =>
    let depth := match kind with
      | .openParen => depth + 1
      | .closeParen => depth - 1
      | _ => depth
    bump
    if depth ≠ 0 then read (.balanced depth)

/-- What a type is taken of: another type or an expression. -/
def typeofOperand : Rule Unit := do
  if (← view).startsType 0 then read .typeName else read .expression

/-- The type of an expression or of another type. -/
def typeofSpecifier : Rule Unit :=
  node .typeofSpecifier do
    bump
    requireThen .openParen .typeofOpen do
      typeofOperand
      require .closeParen .typeofClose

/-! ### Declarators -/

/-- The core of a declarator: a name, a declarator in parentheses, or nothing. -/
def declaratorCore : Rule Declared := do
  let v ← view
  match v.kindAt 0 with
  | some .identifier =>
    leafNode .name
    return ⟨some (v.nameAt 0), none⟩
  | some .openParen =>
    if v.opensDeclarator then
      node .nestedDeclarator do
        bump
        read (.attributes false)
        let d ← read .declarator
        require .closeParen .declaratorClose
        return d
    else
      return ⟨none, none⟩
  | _ => return ⟨none, none⟩

/-- A declarator, named or abstract. -/
def declarator : Rule Declared :=
  node .declarator do
    read .pointers
    let core ← declaratorCore
    let params ← read (.suffixes true core.params)
    read (.attributes true)
    return ⟨core.name, params⟩

/-- Stars, each with its qualifiers and attributes. -/
def pointers : Rule Unit := do
  ifAccepts .star do
    read (.series .pointerQualifiers)
    read (.attributes false)
    read .pointers

/-- Array sizes and parameter lists. The innermost function suffix belongs to the declared name. -/
def suffixes (isFirst : Bool) (params : Option Names) : Rule (Option Names) := do
  match ← next with
  | some .openBracket =>
    read .arraySuffix
    read (.suffixes false params)
  | some .openParen =>
    let names ← read .paramList
    read (.suffixes false (if isFirst && params.isNone then some names else params))
  | _ => return params

/-- The size of an array: a star, an expression or nothing. -/
def arraySize : Rule Unit := do
  let v ← view
  if v.kindAt 0 = some .star && v.kindAt 1 = some .closeBracket then bump
  else unlessSees .closeBracket (read .assignment)

/-- The brackets of an array with its size. -/
def arraySuffix : Rule Unit :=
  node .arraySuffix do
    bump
    read (.series .arrayQualifiers)
    arraySize
    require .closeBracket .arrayClose

/-- A parameter list; gives the names it declares. -/
def paramList : Rule Names :=
  node .paramList do
    bump
    let names ← inScope [] (read .params)
    require .closeParen .parametersClose
    return names

/-- Parameters up to the closing parenthesis. -/
def params : Rule Unit := do
  unless ← endsAt .closeParen do
    orReject (do unless ← accept .ellipsis do read .param) .noParameter
    ifAccepts .comma (read .params)

/-- A parameter. -/
def param : Rule Unit :=
  node .param do
    let _ ← read .specifiers
    match ← next with
    | none | some .comma | some .closeParen => pure ()
    | _ =>
      let d ← read .declarator
      declare d.name false

/-- A type, as in casts. -/
def typeName : Rule Unit :=
  node .typeName do
    let _ ← read .specifiers
    match ← next with
    | none | some .closeParen | some .comma => pure ()
    | _ => let _ ← read .declarator

/-! ### Initializers -/

/-- The value of a declared name. -/
def initializer : Rule Unit := do
  if ← sees .openBrace then read .initList else read .assignment

/-- A list of initializers in braces. -/
def initList : Rule Unit :=
  node .initList do
    bump
    read .initializers
    require .closeBrace .initializersEnd

/-- The designator of an initializer, if it has one. -/
def optionalDesignator : Rule Unit := do
  let k ← next
  if k = some .dot || k = some .openBracket then read .designator

/-- An initializer in a list, perhaps with the place it is for. -/
def listedInitializer : Rule Unit := do
  optionalDesignator
  read .initializer

/-- Initializers up to the closing brace. -/
def initializers : Rule Unit := do
  unless ← endsAt .closeBrace do
    orReject listedInitializer .noInitializer
    ifAccepts .comma (read .initializers)

/-- The place in an aggregate that an initializer is for. -/
def designator : Rule Unit :=
  node .designator do
    read .designatorParts
    optional .assign

/-- Fields and indices of a designator. -/
def designatorParts : Rule Unit := do
  if ← accept .dot then
    require .identifier .designatorField
    read .designatorParts
  else if ← accept .openBracket then
    read .conditional
    ifAccepts .ellipsis (read .conditional)
    require .closeBracket .designatorClose
    read .designatorParts

end Whittle.Grammar.Rule
