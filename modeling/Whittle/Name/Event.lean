import Whittle.Declaration.Declarator
import Whittle.Name.Scope

/-!
# The scoping events of a program

`Placed.events` lists what a program does with names, in the order in which it counts: scopes open
and close, names are declared and names are used. A name is declared right after its declarator and
before its initializer, a parameter right after itself, an enumerator after its value. The
parameters of a function definition belong to the scope of the function.
-/

namespace Whittle

/-- What a program does with names. -/
inductive Event where
  | opens (kind : ScopeKind)
  | closes
  | declares (name : Leaf) (entity : Entity)
  | uses (name : Leaf)

/-- How a declaration group declares its members. -/
structure GroupTraits where
  /-- The members are type names or old-style parameters. -/
  isOther : Bool
  /-- The members have linkage, unless they are `isOther`. -/
  linkage : Bool

/-- What the events of a part depend on besides the part. -/
structure Surroundings where
  parent : Option NodeKind
  /-- The start of the parameter list of the function that is being defined. -/
  definitionParams : Option Nat
  /-- The traits of the group that the part is a member of. -/
  group : Option GroupTraits

namespace Placed

/-- The traits of a declaration group below a node of a kind. -/
def groupTraits (parent : Option NodeKind) (group : Placed) : GroupTraits :=
  let specified k := (group.child? .specifiers).any (·.hasToken k)
  { isOther := specified .kwTypedef || parent = some .functionDef
    linkage := parent = some .root || specified .kwExtern }

/-- The name of the first declarator directly below a node. -/
def childDeclaredName? (t : Placed) : Option Leaf := (t.child? .declarator).bind declaredName?

/-- What a member of a group declares. -/
def memberEvents (group : GroupTraits) (member : Placed) : List Event :=
  match member.child? .declarator with
  | none => []
  | some declarator =>
    match declarator.declaredName? with
    | none => []
    | some name =>
      [.declares name (if group.isOther || declarator.declaresFunction then .other
        else .var name.span group.linkage)]

/-- The declaration of a name that is no variable. -/
def otherEvents (name : Option Leaf) : List Event :=
  name.toList.map (.declares · .other)

/-- The events of the children of a node, each with the kind of the child. -/
abbrev ChildEvents := List (Kind × List Event)

namespace ChildEvents

/-- The events of all children. -/
def joined (parts : ChildEvents) : List Event := parts.flatMap (·.2)

/-- The events of the first child node of a kind. -/
def first (kind : NodeKind) (parts : ChildEvents) : List Event :=
  ((parts.find? (·.1 = .node kind)).map (·.2)).getD []

/-- The events of all children but the nodes of a kind. -/
def without (kind : NodeKind) (parts : ChildEvents) : List Event :=
  joined (parts.filter (·.1 ≠ .node kind))

end ChildEvents

/-- Events within a scope. -/
def within (kind : ScopeKind) (events : List Event) : List Event :=
  .opens kind :: events ++ [.closes]

/-- The surroundings of the children of a node. -/
def childSurroundings (around : Surroundings) (kind : NodeKind) (t : Placed) : Surroundings :=
  { parent := some kind
    definitionParams :=
      if kind = .functionDef then ((t.child? .declarator).bind functionParams?).map (·.start)
      else around.definitionParams
    group := if kind = .declGroup then some (t.groupTraits around.parent) else none }

/-- The events of a node, from those of its children. -/
def nodeEvents (around : Surroundings) (kind : NodeKind) (t : Placed) (parts : ChildEvents) :
    List Event :=
  match kind with
  | .functionDef =>
    parts.first .specifiers ++ otherEvents t.childDeclaredName? ++
      within .function (parts.without .specifiers)
  | .initDeclarator =>
    match around.group with
    | some group => parts.first .declarator ++ t.memberEvents group ++ parts.without .declarator
    | none => parts.joined
  | .param => parts.joined ++ otherEvents t.childDeclaredName?
  | .enumerator => parts.joined ++ otherEvents ((t.child? .name).bind firstToken?)
  | .nameRef => t.firstToken?.toList.map .uses
  | .paramList =>
    if around.definitionParams = some t.start then parts.joined else within .prototype parts.joined
  | _ =>
    match ScopeKind.ofNode? kind with
    | some scope => within scope parts.joined
    | none => parts.joined

mutual

/-- The events of a part in known surroundings. -/
def eventsIn (around : Surroundings) : Placed → List Event
  | .token _ _ => []
  | .node start kind children =>
    let t := Placed.node start kind children
    nodeEvents around kind t (childEvents (childSurroundings around kind t) children)

/-- The events of some children, each with the kind of the child. -/
def childEvents (around : Surroundings) : List Placed → ChildEvents
  | [] => []
  | t :: ts => (t.kind, t.eventsIn around) :: childEvents around ts

end

/-- The events of a program. -/
def events (root : Placed) : List Event := root.eventsIn ⟨none, none, none⟩

end Placed

end Whittle
