import Whittle.Name.Event

/-!
# Which variables are used

`Resolution` follows the scoping events of a program and notes for every use of a name which
declaration it means: the latest one in the innermost scope that has one. Declarations with linkage
that share a name are one variable, and a name used without any declaration may mean a variable
declared with linkage later on.

* `Resolution.ofEvents`: the outcome of all events.
* `references`: the declared names of the variables that are used somewhere.
-/

namespace Whittle

/-- What is known after some of a program's events. -/
structure Resolution where
  /-- The open scopes, the innermost first. -/
  scopes : List Scope
  /-- The variables declared with linkage. -/
  linked : List (Text × Span)
  /-- The names used for variables with linkage. -/
  linkedUses : List Text
  /-- The variables without linkage that are used. -/
  uses : List Span

namespace Resolution

/-- Before the first event. -/
def initial : Resolution := ⟨[], [], [], []⟩

/-- What a name stands for. -/
def find? (r : Resolution) (name : Text) : Option Entity := r.scopes.findSome? (·.find? name)

/-- Declare a name in the innermost scope. -/
def declare (r : Resolution) (name : Leaf) (entity : Entity) : Resolution :=
  { r with
    scopes := match r.scopes with
      | [] => []
      | top :: below => top.declare name.text entity :: below
    linked := match entity with
      | .var decl true => (name.text, decl) :: r.linked
      | _ => r.linked }

/-- Use a name. -/
def use (r : Resolution) (name : Text) : Resolution :=
  match r.find? name with
  | some (.var decl false) => { r with uses := decl :: r.uses }
  | some (.var _ true) => { r with linkedUses := name :: r.linkedUses }
  | some .other => r
  | none => { r with linkedUses := name :: r.linkedUses }

/-- Follow an event. -/
def step (r : Resolution) : Event → Resolution
  | .opens kind => { r with scopes := .empty kind :: r.scopes }
  | .closes => { r with scopes := r.scopes.tail }
  | .declares name entity => r.declare name entity
  | .uses name => r.use name.text

/-- Follow all events of a program. -/
def ofEvents (es : List Event) : Resolution := es.foldl step initial

/-- The declared names of the variables that are used. -/
def references (r : Resolution) : List Span :=
  r.uses ++ (r.linked.filter (r.linkedUses.contains ·.1)).map (·.2)

end Resolution

/-- The declared names of the variables of a program that are used somewhere. Reading, writing and
taking the size are all uses. -/
def references (root : Placed) : List Span := (Resolution.ofEvents root.events).references

end Whittle
