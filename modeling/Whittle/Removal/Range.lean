import Whittle.Declaration.Basic
import Whittle.Removal.Patch

/-!
# What goes with a declaration

* `Declaration.removal`: the span that has to be deleted with a declaration so that the rest stays
  well formed: the whole group if nothing else is declared in it, else the member with one of the
  commas beside it. An initializer goes along, whatever its effects.
* `Patch.removeDeclaration`: deletes it.
-/

namespace Whittle

namespace Placed

/-- Whether a part is a token that carries no grammar. -/
def isTrivia (t : Placed) : Bool := t.kind.isTrivia

/-- Whether a part runs to the end of its line, whatever follows it there. -/
def runsToLineEnd : Placed → Bool
  | .token _ t => t.kind = .directive || (t.kind = .comment && "//".toList.isPrefixOf t.text)
  | .node _ _ _ => false

end Placed

namespace Site

/-- The start of a node or of the blanks before it. The blanks stay if they end a `#` line or a `//`
comment, which would otherwise take in what follows. -/
def startWithBlanks (s : Site) : Nat :=
  match s.before with
  | blank :: rest =>
    if blank.isToken .whitespace && !(rest.head?.any (·.runsToLineEnd)) then blank.start
    else s.node.start
  | [] => s.node.start

/-- The comma before a member, if it is the nearest significant part there. -/
def commaBefore? (s : Site) : Option Placed :=
  (s.before.find? (!·.isTrivia)).filter (·.isToken .comma)

/-- The comma after a member, if it is the nearest significant part there, and what follows it. -/
def commaAfter? (s : Site) : Option (Placed × List Placed) :=
  match s.after.dropWhile (·.isTrivia) with
  | comma :: rest => if comma.isToken .comma then some (comma, rest) else none
  | [] => none

end Site

namespace Declaration

/-- The span to delete with a declaration that belongs to a group. -/
def removal (target : Declaration) (group : DeclGroup) : Except EditError Span :=
  match group.position? target.id with
  | none => .error (.notInGroup target.name.text)
  | some position =>
    if !target.site.isChildOf group.site then .error (.notInGroup target.name.text)
    else if group.isSingle then
      -- a structure, union or enumeration that the group defines has to stay
      let whole := if group.definesTag then target.site else group.site
      .ok ⟨whole.startWithBlanks, whole.node.stop⟩
    else if position = 0 then
      match target.site.commaAfter? with
      | none => .error (.missingSeparator target.name.text)
      | some (comma, rest) =>
        let blank := rest.head?.filter (·.isToken .whitespace)
        .ok ⟨target.site.node.start, (blank.getD comma).stop⟩
    else
      match target.site.commaBefore? with
      | none => .error (.missingSeparator target.name.text)
      | some comma => .ok ⟨comma.start, target.site.node.stop⟩

end Declaration

/-- Delete a declaration, with as much of its group as has to go. -/
def Patch.removeDeclaration (p : Patch) (target : Declaration) (group : DeclGroup) :
    Except EditError Patch := do
  let span ← target.removal group
  p.remove span

end Whittle
