import Whittle.Proofs.Grammar.Form
import Whittle.Proofs.Tree.Site
import Whittle.Removal.Range

/-!
# Regular trees

A tree is regular if it is snug and obeys the table of what a node may hold. The trees of all texts
are regular.

* `Placed.category`: what a part is taken for.
* `Placed.Regular.holds`: **a part that is no trivia is of a category that the node above it
  holds.**
* `Placed.Regular.split_functionDef` and the like: the order of the parts of some nodes.
* `regular_parse`: **the tree of every text is regular.**
-/

namespace Whittle

namespace Token

theorem size_pos_of_mem_split {lineStart : Bool} {t : Text} {u : Token}
    (h : u ∈ split lineStart t) : 0 < u.size := by
  fun_induction split lineStart t with
  | case1 => simp at h
  | case2 lineStart c cs e t ih =>
    obtain rfl | h := List.mem_cons.1 h
    · have := Char.utf8Size_pos c
      simp only [size, Text.size, t]
      omega
    · exact ih h

end Token

open Shape

/-- The kinds of nodes that stand for themselves are told apart by their category. -/
theorem NodeKind.eq_of_category {k k' : NodeKind} (h : k.category = .part k') : k = k' := by
  cases k <;> simp_all [NodeKind.category]

namespace Placed

variable {start : Nat} {kind : NodeKind} {children : List Placed} {c : Placed}
  {cats : List Category}

/-! ### Parts and their shapes -/

/-- What a part is taken for. -/
def category : Placed → Category
  | .token _ _ => .token
  | .node _ kind _ => kind.category

@[simp] theorem category_node : (node start kind children).category = kind.category := rfl

@[simp] theorem isTrivia_node : (node start kind children).isTrivia = false := rfl

@[simp] theorem isTrivia_token (start : Nat) (t : Token) :
    (token start t).isTrivia = t.isTrivia := rfl

@[simp] theorem isNode_node {k : NodeKind} :
    (node start kind children).isNode k = true ↔ kind = k := by
  simp [isNode, Placed.kind]

theorem isNode_eq_decide (k : NodeKind) :
    (node start kind children).isNode k = decide (kind = k) := by
  simp [isNode, Placed.kind]

theorem isNode_of_category {k : NodeKind} (h : c.category = .part k) : c.isNode k = true := by
  cases c with
  | token start t => cases h
  | node start kind children => exact isNode_node.2 (NodeKind.eq_of_category h)

theorem category_of_isNode {k : NodeKind} (h : c.isNode k = true) : c.category = k.category := by
  cases c with
  | token start t => simp [isNode, kind] at h
  | node start kind children => rw [category_node, isNode_node.1 h]

theorem not_isTrivia_of_isInner (h : c.isInner = true) : c.isTrivia = false := by
  cases c with
  | token start t => cases h
  | node start kind children => rfl

theorem not_isInner_of_isTrivia (h : c.isTrivia = true) : c.isInner = false := by
  cases c with
  | token start t => rfl
  | node start kind children => simp at h

theorem not_isInner_of_isToken {k : TokenKind} (h : c.isToken k = true) : c.isInner = false := by
  cases c with
  | token start t => rfl
  | node start kind children => cases h

theorem shapes_of_isTrivia (h : c.isTrivia = true) : c.shapes = [] := by
  cases c with
  | token start t => simpa [shapes, Token.shapes] using h
  | node start kind children => simp at h

theorem shapes_of_not_isTrivia (h : c.isTrivia = false) :
    ∃ x, c.shapes = [x] ∧ x.category = c.category := by
  cases c with
  | token start t => exact ⟨.leaf t.kind, by simpa [shapes, Token.shapes] using h, rfl⟩
  | node start kind children => exact ⟨_, by rw [shapes], rfl⟩

theorem category_of_shapes {x : Shape} (h : c.shapes = [x]) : c.category = x.category := by
  cases ht : c.isTrivia with
  | true => rw [shapes_of_isTrivia ht] at h; cases h
  | false =>
    obtain ⟨y, hy, hcat⟩ := shapes_of_not_isTrivia ht
    rw [h, List.cons.injEq] at hy
    rw [hy.1, hcat]

/-- Parts are of some categories, trivia aside, exactly if their shapes are. -/
theorem within_shapesAll {cs : List Placed} :
    Within cats (shapesAll cs) ↔ ∀ c ∈ cs, c.isTrivia = true ∨ c.category ∈ cats := by
  induction cs with
  | nil => simp [shapesAll]
  | cons c cs ih =>
    rw [shapesAll, within_append, ih, List.forall_mem_cons]
    refine and_congr_left fun _ => ?_
    cases ht : c.isTrivia with
    | true => simp [shapes_of_isTrivia ht]
    | false =>
      obtain ⟨x, hx, hcat⟩ := shapes_of_not_isTrivia ht
      simp [hx, hcat]

theorem isTrivia_of_shapesAll {cs : List Placed} (h : shapesAll cs = []) :
    ∀ c ∈ cs, c.isTrivia = true := by
  have hwithin : Within [] (shapesAll cs) := by simp [h]
  simpa using within_shapesAll.1 hwithin

/-- Parts whose shapes come in two runs come in two runs. -/
theorem exists_of_shapesAll_append {cs : List Placed} {xs ys : List Shape}
    (h : shapesAll cs = xs ++ ys) :
    ∃ l r, cs = l ++ r ∧ shapesAll l = xs ∧ shapesAll r = ys := by
  induction cs generalizing xs with
  | nil =>
    simp only [shapesAll, List.nil_eq, List.append_eq_nil_iff] at h
    exact ⟨[], [], rfl, by simp [shapesAll, h.1], by simp [shapesAll, h.2]⟩
  | cons c cs ih =>
    cases xs with
    | nil => exact ⟨[], c :: cs, rfl, by simp [shapesAll], h⟩
    | cons x xs =>
      rw [shapesAll] at h
      cases ht : c.isTrivia with
      | true =>
        rw [shapes_of_isTrivia ht, List.nil_append] at h
        obtain ⟨l, r, rfl, hl, hr⟩ := ih h
        exact ⟨c :: l, r, rfl, by simp [shapesAll, shapes_of_isTrivia ht, hl], hr⟩
      | false =>
        obtain ⟨y, hy, -⟩ := shapes_of_not_isTrivia ht
        rw [hy, List.cons_append, List.nil_append, List.cons_append, List.cons.injEq] at h
        obtain ⟨l, r, rfl, hl, hr⟩ := ih h.2
        exact ⟨c :: l, r, rfl, by simp [shapesAll, hy, hl, h.1], hr⟩

/-- A shape among others is that of a part, with nothing but trivia before it. -/
theorem exists_of_shapesAll_cons {cs : List Placed} {x : Shape} {xs : List Shape}
    (h : shapesAll cs = x :: xs) :
    ∃ l c r, cs = l ++ c :: r ∧ (∀ c ∈ l, c.isTrivia = true) ∧ c.category = x.category ∧
      shapesAll r = xs := by
  induction cs with
  | nil => simp [shapesAll] at h
  | cons c cs ih =>
    rw [shapesAll] at h
    cases ht : c.isTrivia with
    | true =>
      rw [shapes_of_isTrivia ht, List.nil_append] at h
      obtain ⟨l, d, r, rfl, hl, hd, hr⟩ := ih h
      exact ⟨c :: l, d, r, rfl, by simpa [ht] using hl, hd, hr⟩
    | false =>
      obtain ⟨y, hy, hcat⟩ := shapes_of_not_isTrivia ht
      rw [hy, List.cons_append, List.nil_append, List.cons.injEq] at h
      exact ⟨[], c, cs, rfl, by simp, by rw [← hcat, h.1], h.2⟩

/-! ### Regular trees -/

/-- Whether a tree is snug and obeys the table. -/
structure Regular (t : Placed) : Prop where
  snug : t.Snug
  formed : AllOf NodeKind.Admits t.shapes

theorem allOf_of_mem {A : NodeKind → List Shape → Prop} {cs : List Placed}
    (h : AllOf A (shapesAll cs)) (hc : c ∈ cs) : AllOf A c.shapes := by
  obtain ⟨l, r, rfl⟩ := List.append_of_mem hc
  rw [shapesAll_append, shapesAll, allOf_append, allOf_append] at h
  exact h.2.1

namespace Regular

theorem admits (h : (node start kind children).Regular) :
    kind.Admits (shapesAll children) := by
  have hformed := h.formed
  rw [shapes, allOf_cons, all_node] at hformed
  exact hformed.1.1

theorem child (h : (node start kind children).Regular) (hc : c ∈ children) : c.Regular := by
  refine ⟨(snugFrom_mem (snug_node.1 h.snug) hc).2.1, ?_⟩
  have hformed := h.formed
  rw [shapes, allOf_cons, all_node] at hformed
  exact allOf_of_mem hformed.1.2 hc

/-- **A part that is no trivia is of a category that the node above it holds.** -/
theorem holds (h : (node start kind children).Regular) (hc : c ∈ children) :
    c.isTrivia = true ∨ c.category ∈ kind.holds :=
  within_shapesAll.1 h.admits.within c hc

theorem holds_inner (h : (node start kind children).Regular) (hc : c ∈ children)
    (hinner : c.isInner = true) : c.category ∈ kind.holds := by
  refine (h.holds hc).resolve_left ?_
  simp [not_isTrivia_of_isInner hinner]

/-- A definition starts with its specifiers. -/
theorem split_functionDef (h : (node start .functionDef children).Regular) :
    ∃ l x r, children = l ++ x :: r ∧ (∀ c ∈ l, c.isTrivia = true) ∧
      x.isNode .specifiers = true ∧ ∀ c ∈ r, c.isTrivia = true ∨
        c.category ∈ [.part .declarator, .part .declGroup, .part .compoundStmt] := by
  obtain ⟨x, d, body, hcs, hx, hd, hbody⟩ := h.admits
  obtain ⟨l, c, r, rfl, hl, hc, hr⟩ := exists_of_shapesAll_cons hcs
  refine ⟨l, c, r, rfl, hl, isNode_of_category (hc.trans hx), within_shapesAll.1 ?_⟩
  rw [hr, within_cons]
  exact ⟨by simp [hd], hbody.within.mono (by simp)⟩

/-- A member of a group starts with its declarator. -/
theorem split_initDeclarator (h : (node start .initDeclarator children).Regular) :
    ∃ l x r, children = l ++ x :: r ∧ (∀ c ∈ l, c.isTrivia = true) ∧
      x.isNode .declarator = true ∧ ∀ c ∈ r, c.isTrivia = true ∨
        c.category ∈ [.token, .expression, .part .initList, .part .error] := by
  obtain ⟨x, rest, hcs, hx, hrest⟩ := h.admits
  obtain ⟨l, c, r, rfl, hl, hc, rfl⟩ := exists_of_shapesAll_cons hcs
  exact ⟨l, c, r, rfl, hl, isNode_of_category (hc.trans hx), within_shapesAll.1 hrest⟩

/-- Within parentheses a declarator comes after stars and attributes at most. -/
theorem split_nestedDeclarator (h : (node start .nestedDeclarator children).Regular) :
    ∃ l x r, children = l ++ x :: r ∧
      (∀ c ∈ l, c.isTrivia = true ∨ c.category ∈ [.token, .part .attr]) ∧
      x.isNode .declarator = true ∧ ∀ c ∈ r, c.isTrivia = true ∨ c.category ∈ [.token] := by
  obtain ⟨before, x, after, hcs, hbefore, hx, hafter⟩ := h.admits
  obtain ⟨l, r, rfl, rfl, hr⟩ := exists_of_shapesAll_append hcs
  obtain ⟨m, c, r, rfl, hm, hc, rfl⟩ := exists_of_shapesAll_cons hr
  refine ⟨l ++ m, c, r, by simp, fun d hd => ?_, isNode_of_category (hc.trans hx),
    within_shapesAll.1 hafter⟩
  obtain hd | hd := List.mem_append.1 hd
  · exact within_shapesAll.1 hbefore d hd
  · exact .inl (hm d hd)

/-- A declarator has stars and attributes first, then at most one name or parenthesis, then
suffixes. -/
theorem split_declarator (h : (node start .declarator children).Regular) :
    (∀ c ∈ children, c.isTrivia = true ∨
      c.category ∈ [.token, .part .attr, .part .arraySuffix, .part .paramList]) ∨
    ∃ l x r, children = l ++ x :: r ∧
      (∀ c ∈ l, c.isTrivia = true ∨ c.category ∈ [.token, .part .attr]) ∧
      (x.isNode .name = true ∨ x.isNode .nestedDeclarator = true) ∧
      ∀ c ∈ r, c.isTrivia = true ∨
        c.category ∈ [.part .arraySuffix, .part .paramList, .part .attr] := by
  obtain ⟨before, core, after, hcs, hbefore, hlen, hcore, hafter⟩ := h.admits
  match core, hlen, hcore with
  | [], _, _ =>
    left
    refine within_shapesAll.1 ?_
    rw [hcs, List.append_nil, within_append]
    exact ⟨hbefore.mono (by simp), hafter.mono (by simp)⟩
  | [x], _, hcore =>
    right
    rw [List.append_assoc] at hcs
    obtain ⟨l, r, rfl, rfl, hr⟩ := exists_of_shapesAll_append hcs
    obtain ⟨m, c, r, rfl, hm, hc, rfl⟩ := exists_of_shapesAll_cons hr
    refine ⟨l ++ m, c, r, by simp, fun d hd => ?_, ?_, within_shapesAll.1 hafter⟩
    · obtain hd | hd := List.mem_append.1 hd
      · exact within_shapesAll.1 hbefore d hd
      · exact .inl (hm d hd)
    · simp only [within_cons, List.mem_cons, List.not_mem_nil, or_false] at hcore
      exact hcore.1.imp (fun h => isNode_of_category (hc.trans h))
        fun h => isNode_of_category (hc.trans h)

/-- A parameter list starts with a token. -/
theorem paramList_first (h : (node start .paramList children).Regular) :
    ∃ x rest, children = x :: rest ∧ x.isInner = false := by
  obtain ⟨shapes, hcs, -⟩ := h.admits
  obtain ⟨m, c, r, rfl, hm, hc, -⟩ := exists_of_shapesAll_cons hcs
  cases m with
  | nil =>
    refine ⟨c, r, rfl, ?_⟩
    cases c with
    | token start t => rfl
    | node start k children => cases k <;> cases hc
  | cons x m => exact ⟨x, m ++ c :: r, rfl, not_isInner_of_isTrivia (hm x List.mem_cons_self)⟩

end Regular

/-- All sites below a regular one are regular. -/
theorem regular_of_mem_subsites {s t : Site} (hs : s.node.Regular) (ht : t ∈ s.subsites) :
    t.node.Regular := by
  refine Site.subsites_induction (motive := fun t => t.node.Regular) (fun u c hu hc _ => ?_)
    (fun _ => hs) t ht
  obtain ⟨start, kind, l, r, hnode, -⟩ := Site.parent?_eq_some.1 hc
  rw [hnode] at hu
  exact hu.child (by simp)

end Placed

/-- **The tree of every text is regular.** -/
theorem regular_parse (t : Text) : (parse t).root.Regular := by
  refine ⟨Tree.snug_place 0 _ fun l hl => ?_, admits_parse t⟩
  rw [leaves_parse] at hl
  exact Token.size_pos_of_mem_split hl

end Whittle
