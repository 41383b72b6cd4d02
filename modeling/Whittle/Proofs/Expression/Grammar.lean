import Mathlib.Data.List.Forall2
import Whittle.Proofs.Expression.Basic
import Whittle.Proofs.Grammar.Taking

/-!
# Where expressions may stand

The grammar of C has a place for each rank of expressions, and a tree may stand at a place if it
binds at least as tightly. The trees that printed expressions stand for obey this grammar.

* `Tree.StandsAt`: whether an expression tree, parentheses included, may stand at a place.
* `Tree.StandsAt.exists_head`: with which tokens an expression starts.
* `Expr.Writes`: a tree that some words are the tokens of, and that is an expression once the
  parentheses are erased.
* `Expr.exists_writes`: **every expression is written as a tree that may stand at its rank.**
-/

namespace Whittle

open Grammar

/-- The level at which a token binds as a binary operator, zero if it is none. -/
def Token.level (t : Token) : Nat := (Symbol.ofToken [] t).level

/-- Whether a token is one of the words that name builtin types. -/
def Token.NamesType (t : Token) : Prop := t.kind = .specifier ∧ Sense.ofToken t = .typeWord

namespace Tree

/-- Whether an expression may stand at a place of the grammar. The places are numbered as the ranks
of expressions are. -/
inductive StandsAt : Nat → Tree → Prop where
  -- primary expressions
  | name {t : Token} : t.kind = .identifier → StandsAt 17 (.node .nameRef [.token t])
  | number {t : Token} : t.kind = .number → StandsAt 17 (.node .literal [.token t])
  | paren {o c : Token} {x : Tree} : o.kind = .openParen → c.kind = .closeParen → StandsAt 1 x →
      StandsAt 17 (.node .parenExpr [.token o, x, .token c])
  -- postfix expressions
  | step {op : Token} {x : Tree} : op.kind = .increment ∨ op.kind = .decrement → StandsAt 16 x →
      StandsAt 16 (.node .postfixExpr [x, .token op])
  | index {o c : Token} {x i : Tree} : o.kind = .openBracket → c.kind = .closeBracket →
      StandsAt 16 x → StandsAt 1 i → StandsAt 16 (.node .indexExpr [x, .token o, i, .token c])
  | call {o c sep : Token} {f : Tree} {args : List Tree} : o.kind = .openParen →
      c.kind = .closeParen → sep.kind = .comma → StandsAt 16 f → (∀ a ∈ args, StandsAt 2 a) →
      StandsAt 16 (.node .callExpr
        [f, .node .argList (.token o :: args.intersperse (.token sep) ++ [.token c])])
  | member {op field : Token} {x : Tree} : op.kind = .dot ∨ op.kind = .arrow →
      field.kind = .identifier → StandsAt 16 x →
      StandsAt 16 (.node .fieldExpr [x, .token op, .token field])
  -- unary expressions and casts; the operand of a step may be a cast here
  | prefixed {op : Token} {x : Tree} : op.kind ∈ Construct.prefixKinds → StandsAt 14 x →
      StandsAt 15 (.node .prefixExpr [.token op, x])
  | cast {o c : Token} {ws : List Token} {x : Tree} : o.kind = .openParen → c.kind = .closeParen →
      ws ≠ [] → (∀ w ∈ ws, w.NamesType) → StandsAt 14 x →
      StandsAt 14 (.node .castExpr
        [.token o, .node .typeName [.node .specifiers (ws.map .token)], .token c, x])
  -- operators between operands
  | binary {op : Token} {p : Nat} {l r : Tree} : op.level = p → 0 < p → p ≤ 10 →
      StandsAt (p + 3) l → StandsAt (p + 4) r →
      StandsAt (p + 3) (.node .binaryExpr [l, .token op, r])
  | conditional {q d : Token} {c t e : Tree} : q.kind = .question → d.kind = .colon →
      StandsAt 4 c → StandsAt 1 t → StandsAt 3 e →
      StandsAt 3 (.node .conditionalExpr [c, .token q, t, .token d, e])
  -- anything that is no assignment may be assigned to
  | assign {op : Token} {l r : Tree} : op.kind = .assign ∨ op.kind = .assignOp → StandsAt 3 l →
      StandsAt 2 r → StandsAt 2 (.node .binaryExpr [l, .token op, r])
  | comma {op : Token} {l r : Tree} : op.kind = .comma → StandsAt 1 l → StandsAt 2 r →
      StandsAt 1 (.node .binaryExpr [l, .token op, r])
  | loosen {m n : Nat} {x : Tree} : StandsAt m x → n ≤ m → StandsAt n x

/-! ### How expressions start -/

/-- The kinds of the tokens that expressions start with. -/
def openers : List TokenKind := [.identifier, .number, .openParen] ++ Construct.prefixKinds

namespace StandsAt

variable {m : Nat} {x : Tree}

theorem exists_head (h : x.StandsAt m) : ∃ t ts, x.leaves = t :: ts ∧ t.kind ∈ openers := by
  induction h with
  | name ht => exact ⟨_, _, rfl, by rw [ht]; decide⟩
  | number ht => exact ⟨_, _, rfl, by rw [ht]; decide⟩
  | paren ho _ _ _ => exact ⟨_, _, rfl, by rw [ho]; decide⟩
  | prefixed hop _ _ => exact ⟨_, _, rfl, List.mem_append_right _ hop⟩
  | cast ho _ _ _ _ _ => exact ⟨_, _, rfl, by rw [ho]; decide⟩
  | step _ _ ih | index _ _ _ _ ih _ | call _ _ _ _ _ ih _ | member _ _ _ ih
  | binary _ _ _ _ _ ih _ | conditional _ _ _ _ _ ih _ _ | assign _ _ _ ih _
  | comma _ _ _ ih _ =>
    -- the first operand starts the whole
    obtain ⟨t, ts, hleaves, ht⟩ := ih
    exact ⟨t, _, by rw [leaves, leavesAll, hleaves, List.cons_append], ht⟩
  | loosen _ _ ih => exact ih

/-- An expression that starts with a star goes on with an expression. -/
theorem exists_head_star (h : x.StandsAt m) : ∃ t ts, x.leaves = t :: ts ∧
    (t.kind = .star → ∃ t' ts', ts = t' :: ts' ∧ t'.kind ∈ openers) := by
  have hne {t : Token} {k : TokenKind} {P : Prop} (ht : t.kind = k) (hk : k ≠ .star) :
      t.kind = .star → P := fun hstar => absurd (ht.symm.trans hstar) hk
  induction h with
  | name ht => exact ⟨_, _, rfl, hne ht (by decide)⟩
  | number ht => exact ⟨_, _, rfl, hne ht (by decide)⟩
  | paren ho _ _ _ => exact ⟨_, _, rfl, hne ho (by decide)⟩
  | cast ho _ _ _ _ _ => exact ⟨_, _, rfl, hne ho (by decide)⟩
  | @prefixed op y _ hy _ =>
    obtain ⟨t, ts, hleaves, ht⟩ := hy.exists_head
    exact ⟨op, y.leaves, by simp [leaves, leavesAll], fun _ => ⟨t, ts, hleaves, ht⟩⟩
  | step _ _ ih | index _ _ _ _ ih _ | call _ _ _ _ _ ih _ | member _ _ _ ih
  | binary _ _ _ _ _ ih _ | conditional _ _ _ _ _ ih _ _ | assign _ _ _ ih _
  | comma _ _ _ ih _ =>
    obtain ⟨t, ts, hleaves, ht⟩ := ih
    refine ⟨t, _, by rw [leaves, leavesAll, hleaves, List.cons_append], fun hstar => ?_⟩
    obtain ⟨t', ts', rfl, ht'⟩ := ht hstar
    exact ⟨t', _, List.cons_append, ht'⟩
  | loosen _ _ ih => exact ih

/-- What stands in the place of a postfix expression starts with a name, a number or a parenthesis,
which does not enclose a type. -/
theorem exists_head_postfix (h : x.StandsAt m) (hm : 16 ≤ m) : ∃ t ts, x.leaves = t :: ts ∧
    (t.kind = .identifier ∨ t.kind = .number ∨
      t.kind = .openParen ∧ ∃ t' ts', ts = t' :: ts' ∧ t'.kind ∈ openers) := by
  induction h with
  | name ht => exact ⟨_, _, rfl, .inl ht⟩
  | number ht => exact ⟨_, _, rfl, .inr (.inl ht)⟩
  | @paren o c y ho _ hy _ =>
    obtain ⟨t, ts, hleaves, ht⟩ := hy.exists_head
    refine ⟨o, y.leaves ++ [c], rfl, .inr (.inr ⟨ho, t, ts ++ [c], ?_, ht⟩)⟩
    rw [hleaves, List.cons_append]
  | step _ _ ih | index _ _ _ _ ih _ | call _ _ _ _ _ ih _ | member _ _ _ ih =>
    obtain ⟨t, ts, hleaves, ht⟩ := ih (Nat.le_refl _)
    refine ⟨t, _, by rw [leaves, leavesAll, hleaves, List.cons_append], ?_⟩
    obtain ht | ht | ⟨ht, t', ts', rfl, ht'⟩ := ht
    · exact .inl ht
    · exact .inr (.inl ht)
    · exact .inr (.inr ⟨ht, t', _, List.cons_append, ht'⟩)
  -- all others stand at looser places
  | binary _ _ hp _ _ _ _ => omega
  | loosen _ hle ih => exact ih (Nat.le_trans hm hle)
  | _ => omega

end StandsAt

end Tree

/-! ### The tokens of operators -/

namespace Expr

theorem solid_mark {w : String} (h : (Token.marks.lookup w).isSome = true) : (mark w).Solid := by
  obtain ⟨k, hk⟩ := Option.isSome_iff_exists.1 h
  have hmem : (w, k) ∈ Token.marks := by
    obtain ⟨before, after, hsplit, -⟩ := List.lookup_eq_some_iff.1 hk
    simp [hsplit]
  have hmark : mark w = ⟨k, w.toList⟩ := by rw [mark, hk, Option.getD_some]
  rw [hmark]
  exact Token.solid_mark hmem

theorem prefixOperator_token {w : String} (h : w ∈ prefixOperators) :
    (mark w).Solid ∧ (mark w).kind ∈ Construct.prefixKinds := by
  have hall : ∀ w ∈ prefixOperators, (Token.marks.lookup w).isSome = true ∧
      (mark w).kind ∈ Construct.prefixKinds := by decide
  exact ⟨solid_mark (hall w h).1, (hall w h).2⟩

theorem stepOperator_token {w : String} (h : w ∈ stepOperators) :
    (mark w).Solid ∧ ((mark w).kind = .increment ∨ (mark w).kind = .decrement) := by
  have hall : ∀ w ∈ stepOperators, (Token.marks.lookup w).isSome = true ∧
      ((mark w).kind = .increment ∨ (mark w).kind = .decrement) := by decide
  exact ⟨solid_mark (hall w h).1, (hall w h).2⟩

theorem accessOperator_token {w : String} (h : w ∈ accessOperators) :
    (mark w).Solid ∧ ((mark w).kind = .dot ∨ (mark w).kind = .arrow) := by
  have hall : ∀ w ∈ accessOperators, (Token.marks.lookup w).isSome = true ∧
      ((mark w).kind = .dot ∨ (mark w).kind = .arrow) := by decide
  exact ⟨solid_mark (hall w h).1, (hall w h).2⟩

theorem assignmentOperator_token {w : String} (h : w ∈ assignmentOperators) :
    (mark w).Solid ∧ ((mark w).kind = .assign ∨ (mark w).kind = .assignOp) := by
  have hall : ∀ w ∈ assignmentOperators, (Token.marks.lookup w).isSome = true ∧
      ((mark w).kind = .assign ∨ (mark w).kind = .assignOp) := by decide
  exact ⟨solid_mark (hall w h).1, (hall w h).2⟩

theorem binaryOperator_token {o : String × Nat} (h : o ∈ binaryOperators) :
    (mark o.1).Solid ∧ (mark o.1).level = o.2 ∧ 0 < o.2 ∧ o.2 ≤ 10 := by
  have hall : ∀ o ∈ binaryOperators, (Token.marks.lookup o.1).isSome = true ∧
      (mark o.1).level = o.2 ∧ 0 < o.2 ∧ o.2 ≤ 10 := by decide
  exact ⟨solid_mark (hall o h).1, (hall o h).2⟩

theorem typeWord_token {w : String} (h : w ∈ Token.typeWords) :
    (typeToken w).Solid ∧ (typeToken w).NamesType := by
  have hreserved : (w, TokenKind.specifier) ∈ Token.reserved :=
    List.mem_append_right _ (List.mem_map.2 ⟨w, List.mem_append_left _ h, rfl⟩)
  have hall : ∀ w ∈ Token.typeWords, Sense.ofToken (typeToken w) = .typeWord := by decide
  exact ⟨Token.solid_reserved hreserved, rfl, hall w h⟩

/-! ### Written expressions -/

/-- Whether some words are the tokens of a tree that may stand at a place, and that is the tree of
an expression once its parentheses are erased. -/
structure Writes (e : Expr) (place : Nat) (ws : List Text) (x : Tree) : Prop where
  stands : x.StandsAt place
  words : x.leaves.map (·.text) = ws
  solid : ∀ k ∈ x.leaves, k.Solid
  tree : x.unparen = e.tree

theorem one_le_rank (e : Expr) : 1 ≤ e.rank := by cases e <;> simp [rank]

/-- An operand may stand at every place, if need be in parentheses. -/
theorem Writes.operand {e : Expr} {x : Tree} (h : e.Writes e.rank e.words x) (place : Nat)
    (hplace : place ≤ 17) : ∃ y, e.Writes place (operandWords place e.rank e.words) y := by
  unfold operandWords
  by_cases hrank : e.rank < place
  · refine ⟨.node .parenExpr [.token (mark "("), x, .token (mark ")")], ?_⟩
    have hopen : (mark "(").Solid := solid_mark (by decide)
    have hclose : (mark ")").Solid := solid_mark (by decide)
    have hone : x.StandsAt 1 := .loosen h.stands (one_le_rank e)
    rw [if_pos hrank]
    exact
      { stands := .loosen (.paren rfl rfl hone) hplace
        words := by simp [Tree.leaves, Tree.leavesAll, h.words, mark]
        solid := by
          simpa [Tree.leaves, Tree.leavesAll, or_imp, forall_and, hopen, hclose] using h.solid
        tree := by rw [Tree.unparen_paren, h.tree] }
  · rw [if_neg hrank]
    exact ⟨x, .loosen h.stands (by omega), h.words, h.solid, h.tree⟩

/-- Whether some words are the tokens of the parts of a node, and the parts are some trees once
their parentheses are erased. -/
structure Parts (xs : List Tree) (ws : List Text) (us : List Tree) : Prop where
  words : (Tree.leavesAll xs).map (·.text) = ws
  solid : ∀ k ∈ Tree.leavesAll xs, k.Solid
  trees : Tree.unparenAll xs = us

namespace Parts

variable {xs ys us vs : List Tree} {ws ws' : List Text}

theorem nil : Parts [] [] [] := ⟨rfl, fun _ hk => (List.not_mem_nil hk).elim, rfl⟩

theorem append (h : Parts xs ws us) (h' : Parts ys ws' vs) :
    Parts (xs ++ ys) (ws ++ ws') (us ++ vs) where
  words := by rw [Tree.leavesAll_append, List.map_append, h.words, h'.words]
  solid := by
    rw [Tree.leavesAll_append]
    exact List.forall_mem_append.2 ⟨h.solid, h'.solid⟩
  trees := by
    have htrees := h.trees
    have htrees' := h'.trees
    rw [Tree.unparenAll_eq] at htrees htrees' ⊢
    rw [List.map_append, htrees, htrees']

theorem token {k : Token} (hk : k.Solid) (h : Parts xs ws us) :
    Parts (.token k :: xs) (k.text :: ws) (.token k :: us) where
  words := congrArg (k.text :: ·) h.words
  solid := List.forall_mem_cons.2 ⟨hk, h.solid⟩
  trees := congrArg (Tree.token k :: ·) h.trees

theorem operand {e : Expr} {place : Nat} {x : Tree} (hx : e.Writes place ws x)
    (h : Parts xs ws' us) : Parts (x :: xs) (ws ++ ws') (e.tree :: us) where
  words := by rw [Tree.leavesAll, List.map_append, hx.words, h.words]
  solid := List.forall_mem_append.2 ⟨hx.solid, h.solid⟩
  trees := by rw [Tree.unparenAll, hx.tree, h.trees]

/-- A node other than parentheses is made of its parts. -/
theorem node {kind : NodeKind} (hkind : kind ≠ .parenExpr) (h : Parts xs ws us) :
    Parts [.node kind xs] ws [.node kind us] where
  words := by simpa [Tree.leavesAll, Tree.leaves] using h.words
  solid := by simpa [Tree.leavesAll, Tree.leaves] using h.solid
  trees := by simp [Tree.unparenAll, Tree.unparen_node hkind, h.trees]

end Parts

/-- An expression is written as a node of its parts. -/
theorem Writes.ofParts {e : Expr} {place : Nat} {kind : NodeKind} {xs us : List Tree}
    {ws ws' : List Text} (h : Parts xs ws us) (hkind : kind ≠ .parenExpr)
    (hstands : (Tree.node kind xs).StandsAt place) (hwords : ws = ws')
    (htree : .node kind us = e.tree) : e.Writes place ws' (.node kind xs) where
  stands := hstands
  words := h.words.trans hwords
  solid := h.solid
  tree := by rw [Tree.unparen_node hkind, h.trees, htree]

/-- A builtin type is made of its words. -/
theorem Parts.types {ws : List String} (h : ∀ w ∈ ws, w ∈ Token.typeWords) :
    Parts ((ws.map typeToken).map .token) (ws.map (·.toList)) ((ws.map typeToken).map .token) := by
  induction ws with
  | nil => exact .nil
  | cons w ws ih =>
    have hw := typeWord_token (h w List.mem_cons_self)
    exact .token hw.1 (ih fun w hw => h w (List.mem_cons_of_mem _ hw))

/-- Whether some trees are written as arguments. -/
def WritesAll (es : List Expr) (xs : List Tree) : Prop :=
  List.Forall₂ (fun e x => e.Writes 2 (operandWords 2 e.rank e.words) x) es xs

theorem forall_stands {es : List Expr} {xs : List Tree} (h : WritesAll es xs) :
    ∀ x ∈ xs, x.StandsAt 2 := by
  induction h with
  | nil => simp
  | cons hx _ ih => exact List.forall_mem_cons.2 ⟨hx.stands, ih⟩

/-- Arguments are written with commas between them. -/
theorem Parts.arguments {es : List Expr} {xs : List Tree} (h : WritesAll es xs) :
    Parts (xs.intersperse (.token (mark ","))) ([",".toList].intercalate (argumentWords es))
      ((Expr.trees es).intersperse (.token (mark ","))) := by
  have hcomma : (mark ",").Solid := solid_mark (by decide)
  induction h with
  | nil => exact .nil
  | @cons e x es xs hx hxs ih =>
    cases hxs with
    | nil =>
      simpa [argumentWords, Expr.trees] using Parts.operand hx .nil
    | cons _ _ =>
      have hparts := Parts.operand hx (.token hcomma ih)
      simpa [argumentWords, Expr.trees, List.intercalate_cons_cons, mark] using hparts

mutual

/-- **Every expression is written as a tree that may stand at its rank.** -/
theorem exists_writes (e : Expr) : ∃ x, e.Writes e.rank e.words x := by
  have hopen : (mark "(").Solid := solid_mark (by decide)
  have hclose : (mark ")").Solid := solid_mark (by decide)
  have hcomma : (mark ",").Solid := solid_mark (by decide)
  cases e with
  | name w => exact ⟨_, .ofParts (.token (Token.solid_name w) .nil) (by decide) (.name rfl) rfl rfl⟩
  | number w =>
    exact ⟨_, .ofParts (.token (Token.solid_number w.2) .nil) (by decide) (.number rfl) rfl rfl⟩
  | prefixed op e =>
    -- the printer keeps casts from steps, the grammar does not ask for it
    have hplace : 14 ≤ prefixPlace op.1 ∧ prefixPlace op.1 ≤ 17 := by
      unfold prefixPlace
      split <;> omega
    obtain ⟨hop, hkind⟩ := prefixOperator_token op.2
    obtain ⟨x, hx⟩ := exists_writes e
    obtain ⟨y, hy⟩ := hx.operand (prefixPlace op.1) hplace.2
    refine ⟨_, .ofParts (.token hop (.operand hy .nil)) (by decide) ?_ (by simp [words, mark]) rfl⟩
    exact .prefixed hkind (.loosen hy.stands hplace.1)
  | cast type e =>
    obtain ⟨ws, hne, hws⟩ := type
    obtain ⟨x, hx⟩ := exists_writes e
    obtain ⟨y, hy⟩ := hx.operand 14 (by omega)
    have htype : Parts [.node .typeName [.node .specifiers ((ws.map typeToken).map .token)]] _ _ :=
      .node (by decide) (.node (by decide) (.types hws))
    refine ⟨_, .ofParts (.token hopen (htype.append (.token hclose (.operand hy .nil)))) (by decide)
      ?_ (by simp [words, mark]) rfl⟩
    refine .cast rfl rfl (by simpa using hne) (fun t ht => ?_) hy.stands
    obtain ⟨w, hw, rfl⟩ := List.mem_map.1 ht
    exact (typeWord_token (hws w hw)).2
  | step e op =>
    obtain ⟨hop, hkind⟩ := stepOperator_token op.2
    obtain ⟨x, hx⟩ := exists_writes e
    obtain ⟨y, hy⟩ := hx.operand 16 (by omega)
    exact ⟨_, .ofParts (.operand hy (.token hop .nil)) (by decide) (.step hkind hy.stands)
      (by simp [words, mark]) rfl⟩
  | index e i =>
    have hopen : (mark "[").Solid := solid_mark (by decide)
    have hclose : (mark "]").Solid := solid_mark (by decide)
    obtain ⟨x, hx⟩ := exists_writes e
    obtain ⟨y, hy⟩ := hx.operand 16 (by omega)
    obtain ⟨z, hz⟩ := exists_writes i
    refine ⟨_, .ofParts (.operand hy (.token hopen (.operand hz (.token hclose .nil)))) (by decide)
      ?_ (by simp [words, mark]) rfl⟩
    exact .index rfl rfl hy.stands (.loosen hz.stands (one_le_rank i))
  | call f args =>
    obtain ⟨x, hx⟩ := exists_writes f
    obtain ⟨y, hy⟩ := hx.operand 16 (by omega)
    obtain ⟨xs, hxs⟩ := exists_writesAll args
    have hlist : Parts [.node .argList
        (.token (mark "(") :: xs.intersperse (.token (mark ",")) ++ [.token (mark ")")])] _ _ :=
      .node (by decide) (.token hopen ((Parts.arguments hxs).append (.token hclose .nil)))
    refine ⟨_, .ofParts (.operand hy hlist) (by decide) ?_ (by simp [words, mark]) rfl⟩
    exact .call rfl rfl rfl hy.stands (forall_stands hxs)
  | member e op field =>
    obtain ⟨hop, hkind⟩ := accessOperator_token op.2
    obtain ⟨x, hx⟩ := exists_writes e
    obtain ⟨y, hy⟩ := hx.operand 16 (by omega)
    exact ⟨_, .ofParts (.operand hy (.token hop (.token (Token.solid_name field) .nil))) (by decide)
      (.member hkind rfl hy.stands) (by simp [words, mark]) rfl⟩
  | binary op l r =>
    obtain ⟨hop, hlevel, hpos, hle⟩ := binaryOperator_token op.2
    obtain ⟨x, hx⟩ := exists_writes l
    obtain ⟨y, hy⟩ := hx.operand (op.1.2 + 3) (by omega)
    obtain ⟨x', hx'⟩ := exists_writes r
    obtain ⟨z, hz⟩ := hx'.operand (op.1.2 + 4) (by omega)
    exact ⟨_, .ofParts (.operand hy (.token hop (.operand hz .nil))) (by decide)
      (.binary hlevel hpos hle hy.stands hz.stands) (by simp [words, mark]) rfl⟩
  | conditional c t e =>
    have hquestion : (mark "?").Solid := solid_mark (by decide)
    have hcolon : (mark ":").Solid := solid_mark (by decide)
    obtain ⟨x, hx⟩ := exists_writes c
    obtain ⟨y, hy⟩ := hx.operand 4 (by omega)
    obtain ⟨z, hz⟩ := exists_writes t
    obtain ⟨x', hx'⟩ := exists_writes e
    obtain ⟨u, hu⟩ := hx'.operand 3 (by omega)
    refine ⟨_, .ofParts (.operand hy (.token hquestion (.operand hz (.token hcolon
      (.operand hu .nil))))) (by decide) ?_ (by simp [words, mark]) rfl⟩
    exact .conditional rfl rfl hy.stands (.loosen hz.stands (one_le_rank t)) hu.stands
  | assign op l r =>
    obtain ⟨hop, hkind⟩ := assignmentOperator_token op.2
    obtain ⟨x, hx⟩ := exists_writes l
    obtain ⟨y, hy⟩ := hx.operand 15 (by omega)
    obtain ⟨x', hx'⟩ := exists_writes r
    obtain ⟨z, hz⟩ := hx'.operand 2 (by omega)
    exact ⟨_, .ofParts (.operand hy (.token hop (.operand hz .nil))) (by decide)
      (.assign hkind (.loosen hy.stands (by omega)) hz.stands) (by simp [words, mark]) rfl⟩
  | comma l r =>
    obtain ⟨x, hx⟩ := exists_writes l
    obtain ⟨x', hx'⟩ := exists_writes r
    obtain ⟨z, hz⟩ := hx'.operand 2 (by omega)
    exact ⟨_, .ofParts (.operand hx (.token hcomma (.operand hz .nil))) (by decide)
      (.comma rfl (.loosen hx.stands (one_le_rank l)) hz.stands) (by simp [words, mark]) rfl⟩

theorem exists_writesAll (es : List Expr) : ∃ xs, WritesAll es xs := by
  cases es with
  | nil => exact ⟨[], .nil⟩
  | cons e es =>
    obtain ⟨x, hx⟩ := exists_writes e
    obtain ⟨y, hy⟩ := hx.operand 2 (by omega)
    obtain ⟨ys, hys⟩ := exists_writesAll es
    exact ⟨y :: ys, .cons hy hys⟩

end

end Expr

end Whittle
