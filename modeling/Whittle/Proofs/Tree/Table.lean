import Whittle.Proofs.Tree.Shape

/-!
# The table of what a node may hold

Which parts a node may have, and for groups, definitions and declarators in which order.

* `Category`: what a part is taken for.
* `NodeKind.holds`: the categories of the parts that a node may hold.
* `Shape.Members`: members of a group with commas between them.
* `NodeKind.Admits`: **the table.**
-/

namespace Whittle

/-- What a part of a tree is taken for. Many nodes are alike in where they may stand. -/
inductive Category where
  | token
  | expression
  | statement
  | part (kind : NodeKind)
deriving DecidableEq

/-- Whether all of some categories are among others. -/
def Category.among (cats cats' : List Category) : Bool := cats.all cats'.contains

theorem Category.among_iff {cats cats' : List Category} :
    among cats cats' = true ↔ cats ⊆ cats' := by
  simp [among, List.subset_def]

/-- The category of a node. -/
def NodeKind.category : NodeKind → Category
  | .nameRef | .literal | .parenExpr | .stmtExpr | .binaryExpr | .conditionalExpr | .prefixExpr
  | .postfixExpr | .castExpr | .compoundLiteral | .sizeofExpr | .callExpr | .indexExpr
  | .fieldExpr => .expression
  | .exprStmt | .ifStmt | .whileStmt | .doStmt | .forStmt | .switchStmt | .caseStmt | .labeledStmt
  | .returnStmt | .jumpStmt | .asmStmt | .emptyStmt => .statement
  | k => .part k

namespace Shape

/-- The category of a shape. -/
def category : Shape → Category
  | .leaf _ => .token
  | .node kind _ => kind.category

/-- Whether all of some shapes are of some categories. -/
def Within (cats : List Category) (xs : List Shape) : Prop := ∀ x ∈ xs, x.category ∈ cats

variable {cats : List Category}

@[simp] theorem within_nil : Within cats [] := by simp [Within]

@[simp] theorem within_cons {x : Shape} {xs : List Shape} :
    Within cats (x :: xs) ↔ x.category ∈ cats ∧ Within cats xs := by
  simp [Within]

@[simp] theorem within_append {xs ys : List Shape} :
    Within cats (xs ++ ys) ↔ Within cats xs ∧ Within cats ys := by
  simp [Within, or_imp, forall_and]

theorem Within.mono {cats' : List Category} {xs : List Shape} (h : Within cats xs)
    (hsub : cats ⊆ cats') : Within cats' xs :=
  fun x hx => hsub (h x hx)

end Shape

open Shape

/-- The categories of the parts that a node may hold. -/
def NodeKind.holds : NodeKind → List Category
  | .root => [.statement, .part .declGroup, .part .functionDef, .part .error]
  | .functionDef => [.part .specifiers, .part .declarator, .part .declGroup, .part .compoundStmt]
  | .declGroup => [.token, .part .specifiers, .part .initDeclarator]
  | .specifiers => [.token, .part .tagSpecifier, .part .typeofSpecifier, .part .attr]
  | .tagSpecifier => [.token, .part .attr, .part .structBody, .part .enumBody]
  | .structBody => [.token, .part .fieldGroup, .part .error]
  | .fieldGroup =>
    [.token, .expression, .part .specifiers, .part .declarator, .part .attr, .part .error]
  | .enumBody => [.token, .part .enumerator]
  | .enumerator => [.token, .expression, .part .name, .part .attr, .part .error]
  | .typeofSpecifier => [.token, .expression, .part .typeName, .part .error]
  | .initDeclarator => [.token, .expression, .part .declarator, .part .initList, .part .error]
  | .declarator =>
    [.token, .part .attr, .part .name, .part .nestedDeclarator, .part .arraySuffix,
      .part .paramList]
  | .nestedDeclarator => [.token, .part .attr, .part .declarator]
  | .paramList => [.token, .part .param, .part .error]
  | .param | .typeName => [.part .specifiers, .part .declarator]
  | .initList => [.token, .expression, .part .designator, .part .initList, .part .error]
  | .compoundStmt => [.token, .statement, .part .compoundStmt, .part .declGroup, .part .error]
  | .ifStmt | .whileStmt | .doStmt | .switchStmt =>
    [.token, .expression, .statement, .part .compoundStmt, .part .error]
  | .forStmt | .caseStmt =>
    [.token, .expression, .statement, .part .compoundStmt, .part .declGroup, .part .error]
  | .labeledStmt => [.token, .statement, .part .compoundStmt, .part .declGroup, .part .attr]
  | .stmtExpr => [.token, .part .compoundStmt]
  | .castExpr | .argList => [.token, .expression, .part .typeName, .part .error]
  | .compoundLiteral => [.token, .part .typeName, .part .initList]
  | .sizeofExpr => [.token, .expression, .part .typeName, .part .initList, .part .error]
  | .callExpr => [.expression, .part .argList, .part .error]
  | .attr | .name | .emptyStmt | .nameRef | .literal | .error => [.token]
  | .arraySuffix | .designator | .exprStmt | .returnStmt | .jumpStmt | .asmStmt | .parenExpr
  | .binaryExpr | .conditionalExpr | .prefixExpr | .postfixExpr | .indexExpr | .fieldExpr =>
    [.token, .expression, .part .error]

namespace Shape

/-- Whether some shapes are a single one of a category. -/
def Single (cat : Category) (xs : List Shape) : Prop := ∃ x, xs = [x] ∧ x.category = cat

/-- Further members of a group, each after a comma. -/
inductive Further : List Shape → Prop
  | nil : Further []
  | cons {x : Shape} {xs : List Shape} (hx : x.category = .part .initDeclarator)
      (hxs : Further xs) : Further (.leaf .comma :: x :: xs)

/-- The members of a group with commas between them, if there are any. -/
inductive Members : List Shape → Prop
  | nil : Members []
  | cons {x : Shape} {xs : List Shape} (hx : x.category = .part .initDeclarator)
      (hxs : Further xs) : Members (x :: xs)

/-- What follows the declarator of a function definition: declarations of parameters and then the
body, which is missing from malformed ones. -/
def Body (xs : List Shape) : Prop :=
  ∃ groups body, xs = groups ++ body ∧ Within [.part .declGroup] groups ∧
    (body = [] ∨ Single (.part .compoundStmt) body)

theorem Single.within {cat : Category} {xs : List Shape} (h : Single cat xs) :
    Within [cat] xs := by
  obtain ⟨x, rfl, hx⟩ := h
  exact within_cons.2 ⟨by simp [hx], within_nil⟩

theorem Further.within {xs : List Shape} (h : Further xs) :
    Within [.token, .part .initDeclarator] xs := by
  induction h with
  | nil => exact within_nil
  | cons hx hxs ih =>
    rw [within_cons, within_cons]
    exact ⟨by simp [category], by simp [hx], ih⟩

theorem Members.within {xs : List Shape} (h : Members xs) :
    Within [.token, .part .initDeclarator] xs := by
  cases h with
  | nil => exact within_nil
  | cons hx hxs => exact within_cons.2 ⟨by simp [hx], hxs.within⟩

theorem Body.within {xs : List Shape} (h : Body xs) :
    Within [.part .declGroup, .part .compoundStmt] xs := by
  obtain ⟨groups, body, rfl, hgroups, hbody⟩ := h
  refine within_append.2 ⟨hgroups.mono (by simp), ?_⟩
  obtain rfl | hbody := hbody
  · exact within_nil
  · exact hbody.within.mono (by simp)

end Shape

/-- **The table**: whether a node may have some children. A definition has its specifiers and its
declarator before all else and a group its specifiers, and a member of a group starts with its
declarator. In a declarator the name comes before all suffixes, and within parentheses the
declarator comes first. A parameter list starts with its parenthesis. -/
def NodeKind.Admits (k : NodeKind) (cs : List Shape) : Prop :=
  match k with
  | .functionDef =>
    ∃ x d body, cs = x :: d :: body ∧ x.category = .part .specifiers ∧
      d.category = .part .declarator ∧ Body body
  | .declGroup =>
    ∃ x members stop, cs = x :: (members ++ stop) ∧ x.category = .part .specifiers ∧
      Members members ∧ (stop = [] ∨ stop = [.leaf .semicolon])
  | .initDeclarator =>
    ∃ x rest, cs = x :: rest ∧ x.category = .part .declarator ∧
      Within [.token, .expression, .part .initList, .part .error] rest
  | .declarator =>
    ∃ before core after, cs = before ++ core ++ after ∧ Within [.token, .part .attr] before ∧
      core.length ≤ 1 ∧ Within [.part .name, .part .nestedDeclarator] core ∧
      Within [.part .arraySuffix, .part .paramList, .part .attr] after
  | .nestedDeclarator =>
    ∃ before x after, cs = before ++ x :: after ∧ Within [.token, .part .attr] before ∧
      x.category = .part .declarator ∧ Within [.token] after
  | .paramList =>
    ∃ rest, cs = .leaf .openParen :: rest ∧ Within [.token, .part .param, .part .error] rest
  | k => Within k.holds cs

theorem NodeKind.Admits.within {k : NodeKind} {cs : List Shape} (h : k.Admits cs) :
    Within k.holds cs := by
  cases k with
  | functionDef =>
    obtain ⟨x, d, body, rfl, hx, hd, hbody⟩ := h
    rw [within_cons, within_cons]
    exact ⟨by simp [hx, holds], by simp [hd, holds], hbody.within.mono (by simp [holds])⟩
  | declGroup =>
    obtain ⟨x, members, stop, rfl, hx, hmembers, hstop⟩ := h
    rw [within_cons, within_append]
    refine ⟨by simp [hx, holds], hmembers.within.mono (by simp [holds]), ?_⟩
    obtain rfl | rfl := hstop
    · exact within_nil
    · simp [Shape.category, holds]
  | initDeclarator =>
    obtain ⟨x, rest, rfl, hx, hrest⟩ := h
    exact within_cons.2 ⟨by simp [hx, holds], hrest.mono (by simp [holds])⟩
  | declarator =>
    obtain ⟨before, core, after, rfl, hbefore, -, hcore, hafter⟩ := h
    simp only [within_append]
    exact ⟨⟨hbefore.mono (by simp [holds]), hcore.mono (by simp [holds])⟩,
      hafter.mono (by simp [holds])⟩
  | nestedDeclarator =>
    obtain ⟨before, x, after, rfl, hbefore, hx, hafter⟩ := h
    simp only [within_append, within_cons]
    exact ⟨hbefore.mono (by simp [holds]), by simp [hx, holds], hafter.mono (by simp [holds])⟩
  | paramList =>
    obtain ⟨rest, rfl, hrest⟩ := h
    exact within_cons.2 ⟨by simp [Shape.category, holds], hrest⟩
  | _ => exact h

/-- Whether the table says of a node only what it may hold. -/
def NodeKind.isPlain : NodeKind → Bool
  | .functionDef | .declGroup | .initDeclarator | .declarator | .nestedDeclarator | .paramList => false
  | _ => true

theorem NodeKind.admits_of_within {k : NodeKind} (hk : k.isPlain = true) {cs : List Shape}
    (h : Within k.holds cs) : k.Admits cs := by
  cases k <;> first | exact h | exact absurd hk (by decide)

end Whittle
