import Whittle.Declaration.Basic
import Whittle.Name.Resolution

/-!
# The inventory of a program

* `Inventory.ofTree`: all declarations of a program in the order of the text, and all declaration
  groups, also those without members.
* `Inventory.candidates`: the variables that are nowhere used.
* `unusedVariables`: the same, numbered from one as users select them.
-/

namespace Whittle

/-- All declarations of a program and the groups they belong to. -/
structure Inventory where
  /-- In the order of the text; a declaration's number is its place here. -/
  declarations : List Declaration
  /-- In the order of the text; a group's number is its place here. -/
  groups : List DeclGroup

namespace Inventory

/-- The declarations that some sites make, given the addresses of all groups and the variables that
are used. -/
def declarationsAt (groups : List (List Nat)) (used : List Span) (sites : List Site) :
    List Declaration :=
  let found := sites.filterMap fun s => s.declares?.map (s, ·)
  found.zipIdx.map fun ((site, name, kind, storage), id) =>
    { id, name, kind, storage, site
      group := if site.node.isNode .initDeclarator then groups.idxOf? site.address.tail else none
      isReferenced := used.contains name.span }

/-- The inventory of a program. -/
def ofTree (root : Placed) : Inventory :=
  let sites := root.sites
  let groups := sites.filter (·.node.isNode .declGroup)
  let declarations := declarationsAt (groups.map (·.address)) (references root) sites
  { declarations
    groups := groups.zipIdx.map fun (site, number) =>
      ⟨site, (declarations.filter (·.group = some number)).map (·.id)⟩ }

/-- The declaration with a number. -/
def declaration? (i : Inventory) (id : Nat) : Option Declaration := i.declarations[id]?

/-- The group of the declaration with a number. -/
def groupOf? (i : Inventory) (id : Nat) : Option DeclGroup := do
  let d ← i.declaration? id
  let number ← d.group
  i.groups[number]?

/-- The variables that are nowhere used, in the order of the text. -/
def candidates (i : Inventory) : List Declaration := i.declarations.filter (·.isCandidate)

/-- What one walk over some declarations comes to: how many candidates it met, and the one whose
number was asked for. -/
structure Tally where
  count : Nat
  selected : Option Declaration

/-- Go past one declaration, looking for the candidate with a number counted from one. -/
def Tally.step (index : Nat) (t : Tally) (d : Declaration) : Tally :=
  if d.isCandidate then
    { count := t.count + 1
      selected := if t.count + 1 = index then some d else t.selected }
  else t

/-- Walk over all declarations once, looking for the candidate with a number counted from one. -/
def tally (i : Inventory) (index : Nat) : Tally :=
  i.declarations.foldl (Tally.step index) ⟨0, none⟩

/-- The number of candidates. -/
def count (i : Inventory) : Nat := (i.tally 0).count

/-- The candidate with a number counted from one. -/
def select? (i : Inventory) (index : Nat) : Option Declaration := (i.tally index).selected

end Inventory

/-- An unused variable and the number that selects it. -/
structure Unused where
  index : Nat
  declaration : Declaration

/-- The unused variables of a program, numbered from one. -/
def unusedVariables (root : Placed) : List Unused :=
  ((Inventory.ofTree root).candidates.zipIdx 1).map fun (d, index) => ⟨index, d⟩

end Whittle
