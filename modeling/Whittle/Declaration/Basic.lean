import Whittle.Declaration.Declarator
import Whittle.Tree.Site

/-!
# Declarations

* `Declaration`: a declared name with the site that declares it.
* `DeclGroup`: a statement that declares names under one set of specifiers, such as
  `int a, b = 2, *c;`.
* `Site.declares?`: what a site declares.
-/

namespace Whittle

/-- What a declaration declares. -/
inductive DeclKind where
  | var
  | param
  | function
  | typedefName
  | enumerator
deriving DecidableEq

/-- Where a name belongs. -/
inductive Storage where
  /-- To the whole file. -/
  | file
  /-- To a function or to its parameters. -/
  | function
deriving DecidableEq

/-- The word that reports use. -/
def Storage.label : Storage → String
  | .file => "global"
  | .function => "local"

/-- A declared name. -/
structure Declaration where
  /-- The number of declarations before it. -/
  id : Nat
  name : Leaf
  kind : DeclKind
  storage : Storage
  /-- The node that declares the name: a member of a group, a parameter, a function definition or
  an enumerator. -/
  site : Site
  /-- The number of its group, for a member of one. -/
  group : Option Nat
  isReferenced : Bool

namespace Declaration

/-- Whether a parameter is declared. -/
def isParameter (d : Declaration) : Bool := d.kind = .param

/-- Whether a variable is declared and nowhere used. -/
def isCandidate (d : Declaration) : Bool := d.kind = .var && !d.isReferenced

/-- The declared name as reports write it. -/
def nameText (d : Declaration) : String := String.ofList d.name.text

/-- The wording of a report on an unused variable. -/
def message (d : Declaration) : String :=
  "unused " ++ d.storage.label ++ " variable `" ++ d.nameText ++ "`"

end Declaration

/-- A declaration group. -/
structure DeclGroup where
  site : Site
  /-- The numbers of the declarations it makes, in the order of the text. -/
  members : List Nat

namespace DeclGroup

/-- Whether a declaration belongs to a group. -/
def contains (g : DeclGroup) (id : Nat) : Bool := g.members.contains id

/-- The place of a declaration in its group. -/
def position? (g : DeclGroup) (id : Nat) : Option Nat := g.members.idxOf? id

/-- Whether a group declares one name only. -/
def isSingle (g : DeclGroup) : Bool := g.members.length = 1

/-- Whether a group also defines a structure, union or enumeration. -/
def definesTag (g : DeclGroup) : Bool :=
  (g.site.node.child? .specifiers).any fun specifiers =>
    specifiers.children.any fun tag =>
      tag.isNode .tagSpecifier &&
        tag.children.any fun body => body.isNode .structBody || body.isNode .enumBody

end DeclGroup

namespace Site

/-- Where the names declared at a site belong. -/
def storage (s : Site) : Storage :=
  if s.isWithin .functionDef || s.isWithin .paramList then .function else .file

/-- What a member of a declaration group declares. -/
def memberKind (s : Site) (declarator : Placed) : DeclKind :=
  let group := s.parent?
  let isTypedef := (group.bind (·.node.child? .specifiers)).any (·.hasToken .kwTypedef)
  if isTypedef then .typedefName
  else if group.bind (·.parentKind?) = some .functionDef then .param
  else if declarator.declaresFunction then .function
  else .var

/-- What a site declares, if anything: the name, its kind and where it belongs. -/
def declares? (s : Site) : Option (Leaf × DeclKind × Storage) :=
  match s.node.kind with
  | .node .initDeclarator => do
    let declarator ← s.node.child? .declarator
    let name ← declarator.declaredName?
    return (name, s.memberKind declarator, s.storage)
  | .node .param => do
    let name ← (← s.node.child? .declarator).declaredName?
    return (name, .param, .function)
  | .node .functionDef => do
    let name ← (← s.node.child? .declarator).declaredName?
    return (name, .function, .file)
  | .node .enumerator => do
    let name ← (← s.node.child? .name).firstToken?
    return (name, .enumerator, s.storage)
  | _ => none

end Site

end Whittle
