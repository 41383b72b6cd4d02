import Whittle.Kind
import Whittle.Text

/-!
# Scopes

* `Entity`: what a name stands for, as far as the search for unused variables is concerned.
* `Scope`: the names declared in one scope. A later declaration of a name replaces an earlier one.
-/

namespace Whittle

/-- The kinds of scopes of C. -/
inductive ScopeKind where
  | file
  | function
  | block
  | forLoop
  | prototype
deriving DecidableEq

namespace ScopeKind

/-- The scope that a node opens. A function definition is left out: its parameters and its body
share a scope that starts after its specifiers. -/
def ofNode? : NodeKind → Option ScopeKind
  | .root => some .file
  | .compoundStmt => some .block
  | .forStmt => some .forLoop
  | .paramList => some .prototype
  | _ => none

end ScopeKind

/-- What a name stands for. -/
inductive Entity where
  /-- A variable, known by the span of its name where it is declared. -/
  | var (decl : Span) (linkage : Bool)
  /-- A function, parameter, type name or enumerator. These hide variables and are never unused. -/
  | other
deriving DecidableEq

/-- The names declared in one scope, the latest first. -/
structure Scope where
  kind : ScopeKind
  names : List (Text × Entity)

namespace Scope

/-- A scope without names. -/
def empty (kind : ScopeKind) : Scope := ⟨kind, []⟩

/-- Declare a name. -/
def declare (s : Scope) (name : Text) (entity : Entity) : Scope :=
  { s with names := (name, entity) :: s.names }

/-- What a name stands for. -/
def find? (s : Scope) (name : Text) : Option Entity := s.names.lookup name

end Scope

end Whittle
