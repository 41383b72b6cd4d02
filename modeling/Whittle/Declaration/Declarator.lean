import Whittle.Tree.Placed

/-!
# Declarators

A declarator consists of levels, one inside the parentheses of the next. Suffixes bind tighter than
stars, and a level binds tighter than those around it, so `int *f(void)` declares a function and
`int (*f)(void)` a pointer.

* `Placed.declaratorLevels`: the levels, the innermost first.
* `Placed.declaredName?`: the name that is declared.
* `Placed.derivation?`: what the name is derived into first: a pointer, an array or a function.
-/

namespace Whittle

/-- What a declarator makes of the declared name first. -/
inductive Derivation where
  | pointer
  | array
  | function (params : Placed)

namespace Placed

mutual

/-- The levels of a declarator, the innermost first. -/
def declaratorLevels : Placed → List Placed
  | .token _ _ => []
  | .node start kind children => nestedLevels children ++ [.node start kind children]

/-- The levels within the first parentheses among some parts. -/
def nestedLevels : List Placed → List Placed
  | [] => []
  | .node _ .nestedDeclarator inner :: _ => innerLevels inner
  | _ :: ts => nestedLevels ts

/-- The levels of the first declarator among some parts. -/
def innerLevels : List Placed → List Placed
  | [] => []
  | t :: ts => if t.isNode .declarator then t.declaratorLevels else innerLevels ts

end

/-- The identifier that a declarator declares, unless it is abstract. -/
def declaredName? (declarator : Placed) : Option Leaf := do
  let innermost ← declarator.declaratorLevels.head?
  let name ← innermost.child? .name
  name.firstToken?

/-- The derivation that a part of a level stands for, stars aside. -/
def suffix? : Placed → Option Derivation
  | .node start .paramList children => some (.function (.node start .paramList children))
  | .node _ .arraySuffix _ => some .array
  | _ => none

/-- What one level derives its core into first. -/
def levelDerivation? (level : Placed) : Option Derivation :=
  (level.children.findSome? suffix?).or (if level.hasToken .star then some .pointer else none)

/-- What a declarator derives the declared name into first, if anything. -/
def derivation? (declarator : Placed) : Option Derivation :=
  declarator.declaratorLevels.findSome? levelDerivation?

/-- The parameter list of the function that a declarator declares, if it declares one. -/
def functionParams? (declarator : Placed) : Option Placed :=
  match declarator.derivation? with
  | some (.function params) => some params
  | _ => none

/-- Whether a declarator declares a function. -/
def declaresFunction (declarator : Placed) : Bool := declarator.functionParams?.isSome

end Placed

end Whittle
