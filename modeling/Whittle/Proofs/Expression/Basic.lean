import Whittle.Proofs.Token.Spacing
import Whittle.Tree.Basic

/-!
# Expressions

The expressions of C as they are meant, without parentheses, with the way to write them down and
the trees that stand for them.

* `Expr`: names, numbers and the operators on them.
* `Expr.rank`: how tightly an expression binds.
* `Expr.print`: an expression as a text. An operand that binds looser than its place allows stands
  in parentheses.
* `Expr.tree`: the tree of an expression.
* `Expr.tree_injective`: **different expressions have different trees.**
* `Tree.unparen`: a tree without the parentheses of its expressions.
-/

namespace Whittle

/-! ### Syntax -/

/-- One of some spellings. -/
abbrev OneOf (ws : List String) := { w : String // w ∈ ws }

namespace Expr

def prefixOperators : List String := ["++", "--", "&", "*", "+", "-", "!", "~"]

def stepOperators : List String := ["++", "--"]

def accessOperators : List String := [".", "->"]

def assignmentOperators : List String :=
  ["=", "*=", "/=", "%=", "+=", "-=", "<<=", ">>=", "&=", "^=", "|="]

/-- The binary operators with the levels they bind at, a higher one binding tighter. -/
def binaryOperators : List (String × Nat) :=
  [("*", 10), ("/", 10), ("%", 10), ("+", 9), ("-", 9), ("<<", 8), (">>", 8), ("<", 7), (">", 7),
    ("<=", 7), (">=", 7), ("==", 6), ("!=", 6), ("&", 5), ("^", 4), ("|", 3), ("&&", 2), ("||", 1)]

/-- A builtin type: one or more of the words that name such types. -/
abbrev BuiltinType := { ws : List String // ws ≠ [] ∧ ∀ w ∈ ws, w ∈ Token.typeWords }

end Expr

open Expr in
/-- An expression. -/
inductive Expr where
  | name (w : Name)
  | number (w : Numeral)
  | prefixed (op : OneOf prefixOperators) (e : Expr)
  | cast (type : BuiltinType) (e : Expr)
  | step (e : Expr) (op : OneOf stepOperators)
  | index (e i : Expr)
  | call (f : Expr) (args : List Expr)
  | member (e : Expr) (op : OneOf accessOperators) (field : Name)
  | binary (op : { o : String × Nat // o ∈ binaryOperators }) (l r : Expr)
  | conditional (c t e : Expr)
  | assign (op : OneOf assignmentOperators) (l r : Expr)
  | comma (l r : Expr)

namespace Expr

/-! ### Printing -/

/-- How tightly an expression binds. The places of the grammar are numbered alike, from loose to
tight: an expression with commas is 1, an assignment 2, a conditional 3, the ten levels of binary
operators 4 to 13, a cast 14, a unary expression 15, a postfix expression 16 and a primary
expression 17. -/
def rank : Expr → Nat
  | .comma _ _ => 1
  | .assign _ _ _ => 2
  | .conditional _ _ _ => 3
  | .binary op _ _ => op.1.2 + 3
  | .cast _ _ => 14
  | .prefixed _ _ => 15
  | .step _ _ | .index _ _ | .call _ _ | .member _ _ _ => 16
  | .name _ | .number _ => 17

/-- The place after a prefix operator. The steps take no casts. -/
def prefixPlace (op : String) : Nat := if op ∈ stepOperators then 15 else 14

/-- The words of an operand at a place, in parentheses if its rank is too low. -/
def operandWords (place rank : Nat) (ws : List Text) : List Text :=
  if rank < place then "(".toList :: ws ++ [")".toList] else ws

mutual

/-- The words of an expression. -/
def words : Expr → List Text
  | .name w => [w.1]
  | .number w => [w.1]
  | .prefixed op e => op.1.toList :: operandWords (prefixPlace op.1) e.rank e.words
  | .cast type e =>
    "(".toList :: type.1.map (·.toList) ++ ")".toList :: operandWords 14 e.rank e.words
  | .step e op => operandWords 16 e.rank e.words ++ [op.1.toList]
  | .index e i => operandWords 16 e.rank e.words ++ "[".toList :: i.words ++ ["]".toList]
  | .call f args =>
    operandWords 16 f.rank f.words ++ "(".toList ::
      [",".toList].intercalate (argumentWords args) ++ [")".toList]
  | .member e op field => operandWords 16 e.rank e.words ++ [op.1.toList, field.1]
  -- the levels associate to the left, so only the left operand may be of the same level
  | .binary op l r =>
    operandWords (op.1.2 + 3) l.rank l.words ++ op.1.1.toList ::
      operandWords (op.1.2 + 4) r.rank r.words
  -- the middle operand is enclosed, so it may be any expression
  | .conditional c t e =>
    operandWords 4 c.rank c.words ++ "?".toList :: t.words ++ ":".toList ::
      operandWords 3 e.rank e.words
  | .assign op l r =>
    operandWords 15 l.rank l.words ++ op.1.toList :: operandWords 2 r.rank r.words
  | .comma l r => l.words ++ ",".toList :: operandWords 2 r.rank r.words

/-- The words of each of some arguments. -/
def argumentWords : List Expr → List (List Text)
  | [] => []
  | a :: as => operandWords 2 a.rank a.words :: argumentWords as

end

/-- An expression as a text: its words with blanks between them. -/
def print (e : Expr) : Text := [' '].intercalate e.words

/-! ### Trees -/

/-- The token of a mark. -/
def mark (w : String) : Token := ⟨((Token.marks.lookup w).getD .stray), w.toList⟩

/-- The token of a name. -/
def nameToken (w : Name) : Token := ⟨.identifier, w.1⟩

/-- The token of a word that names a builtin type. -/
def typeToken (w : String) : Token := ⟨.specifier, w.toList⟩

mutual

/-- The tree of an expression. -/
def tree : Expr → Tree
  | .name w => .node .nameRef [.token (nameToken w)]
  | .number w => .node .literal [.token ⟨.number, w.1⟩]
  | .prefixed op e => .node .prefixExpr [.token (mark op.1), e.tree]
  | .cast type e => .node .castExpr [.token (mark "("),
      .node .typeName [.node .specifiers ((type.1.map typeToken).map .token)],
      .token (mark ")"), e.tree]
  | .step e op => .node .postfixExpr [e.tree, .token (mark op.1)]
  | .index e i => .node .indexExpr [e.tree, .token (mark "["), i.tree, .token (mark "]")]
  | .call f args => .node .callExpr [f.tree, .node .argList
      (.token (mark "(") :: (trees args).intersperse (.token (mark ",")) ++ [.token (mark ")")])]
  | .member e op field =>
    .node .fieldExpr [e.tree, .token (mark op.1), .token (nameToken field)]
  | .binary op l r => .node .binaryExpr [l.tree, .token (mark op.1.1), r.tree]
  | .conditional c t e =>
    .node .conditionalExpr [c.tree, .token (mark "?"), t.tree, .token (mark ":"), e.tree]
  | .assign op l r => .node .binaryExpr [l.tree, .token (mark op.1), r.tree]
  | .comma l r => .node .binaryExpr [l.tree, .token (mark ","), r.tree]

/-- The trees of some expressions. -/
def trees : List Expr → List Tree
  | [] => []
  | e :: es => e.tree :: trees es

end

theorem mark_injective {v w : String} (h : mark v = mark w) : v = w :=
  String.toList_inj.1 (congrArg Token.text h)

theorem nameToken_injective {v w : Name} (h : nameToken v = nameToken w) : v = w :=
  Subtype.ext (congrArg Token.text h)

/-- Types are told apart by their words. -/
theorem typeTokens_injective {vs ws : List String}
    (h : (vs.map typeToken).map Tree.token = (ws.map typeToken).map .token) : vs = ws := by
  have htokens := (List.map_inj_right fun _ _ => Tree.token.inj).1 h
  exact (List.map_inj_right fun _ _ hw => String.toList_inj.1 (congrArg Token.text hw)).1 htokens

/-- Lists are told apart by what they become when something is put between their members. -/
theorem intersperse_injective {α : Type} (a : α) : ∀ {xs ys : List α},
    xs.intersperse a = ys.intersperse a → xs = ys
  | [], [], _ => rfl
  | [], [_], h => by cases h
  | [], _ :: _ :: _, h => by cases h
  | [_], [], h => by cases h
  | [_], [_], h => h
  | [_], _ :: _ :: _, h => by simp at h
  | _ :: _ :: _, [], h => by cases h
  | _ :: _ :: _, [_], h => by simp at h
  | x :: x' :: xs, y :: y' :: ys, h => by
    simp only [List.intersperse_cons_cons, List.cons.injEq, true_and] at h
    rw [h.1, intersperse_injective a h.2]

/-- No binary operator assigns. -/
theorem binaryOperators_disjoint {o : String × Nat} (ho : o ∈ binaryOperators) :
    o.1 ∉ assignmentOperators ∧ o.1 ≠ "," := by
  have h : ∀ o ∈ binaryOperators, o.1 ∉ assignmentOperators ∧ o.1 ≠ "," := by decide
  exact h o ho

/-- A binary operator has one level. -/
theorem binaryOperators_level {o o' : String × Nat} (ho : o ∈ binaryOperators)
    (ho' : o' ∈ binaryOperators) (h : o.1 = o'.1) : o = o' := by
  have hlevel : ∀ o ∈ binaryOperators, ∀ o' ∈ binaryOperators, o.1 = o'.1 → o = o' := by decide
  exact hlevel o ho o' ho' h

theorem comma_not_mem : "," ∉ assignmentOperators := by decide

mutual

/-- **Different expressions have different trees.** -/
theorem tree_injective (e e' : Expr) (h : e.tree = e'.tree) : e = e' := by
  -- the kind of the node tells most constructors apart
  cases e <;> cases e' <;>
    simp only [tree, Tree.node.injEq, List.cons.injEq, Tree.token.injEq, Token.mk.injEq,
      List.cons_append, List.append_cancel_right_eq, true_and, and_true, reduceCtorEq,
      false_and] at h
  case name.name w w' => rw [nameToken_injective h]
  case number.number w w' => rw [Subtype.ext h]
  case prefixed.prefixed op e op' e' =>
    rw [Subtype.ext (mark_injective h.1), tree_injective e e' h.2]
  case cast.cast type e type' e' =>
    rw [Subtype.ext (typeTokens_injective h.1), tree_injective e e' h.2]
  case step.step e op e' op' =>
    rw [tree_injective e e' h.1, Subtype.ext (mark_injective h.2)]
  case index.index e i e' i' => rw [tree_injective e e' h.1, tree_injective i i' h.2]
  case call.call f args f' args' =>
    rw [tree_injective f f' h.1, trees_injective args args' (intersperse_injective _ h.2)]
  case member.member e op field e' op' field' =>
    rw [tree_injective e e' h.1, Subtype.ext (mark_injective h.2.1), nameToken_injective h.2.2]
  case conditional.conditional c t e c' t' e' =>
    rw [tree_injective c c' h.1, tree_injective t t' h.2.1, tree_injective e e' h.2.2]
  -- for the others the operator does
  case binary.binary op l r op' l' r' =>
    have hop := binaryOperators_level op.2 op'.2 (mark_injective h.2.1)
    rw [tree_injective l l' h.1, Subtype.ext hop, tree_injective r r' h.2.2]
  case binary.assign op _ _ op' _ _ =>
    exact absurd (mark_injective h.2.1 ▸ op'.2) (binaryOperators_disjoint op.2).1
  case binary.comma op _ _ _ _ =>
    exact absurd (mark_injective h.2.1) (binaryOperators_disjoint op.2).2
  case assign.binary op _ _ op' _ _ =>
    exact absurd (mark_injective h.2.1 ▸ op.2) (binaryOperators_disjoint op'.2).1
  case assign.assign op l r op' l' r' =>
    rw [tree_injective l l' h.1, Subtype.ext (mark_injective h.2.1), tree_injective r r' h.2.2]
  case assign.comma op _ _ _ _ => exact absurd (mark_injective h.2.1 ▸ op.2) comma_not_mem
  case comma.binary _ _ op' _ _ =>
    exact absurd (mark_injective h.2.1).symm (binaryOperators_disjoint op'.2).2
  case comma.assign _ _ op' _ _ => exact absurd (mark_injective h.2.1 ▸ op'.2) comma_not_mem
  case comma.comma l r l' r' => rw [tree_injective l l' h.1, tree_injective r r' h.2]

theorem trees_injective (es es' : List Expr) (h : trees es = trees es') : es = es' := by
  cases es with
  | nil =>
    cases es' with
    | nil => rfl
    | cons e' es' => simp [trees] at h
  | cons e es =>
    cases es' with
    | nil => simp [trees] at h
    | cons e' es' =>
      rw [trees, trees, List.cons.injEq] at h
      rw [tree_injective e e' h.1, trees_injective es es' h.2]

end

end Expr

namespace Tree

/-- What stands between parentheses, or else a node. -/
def inParens (kind : NodeKind) : List Tree → Tree
  | [o, x, c] => if kind = .parenExpr then x else .node kind [o, x, c]
  | children => .node kind children

mutual

/-- A tree without the parentheses of its expressions. -/
def unparen : Tree → Tree
  | .token t => .token t
  | .node kind children => inParens kind (unparenAll children)

/-- Some trees without the parentheses of their expressions. -/
def unparenAll : List Tree → List Tree
  | [] => []
  | t :: ts => t.unparen :: unparenAll ts

end

theorem inParens_of_ne {kind : NodeKind} (h : kind ≠ .parenExpr) (ts : List Tree) :
    inParens kind ts = .node kind ts := by
  unfold inParens
  split
  · rw [if_neg h]
  · rfl

@[simp] theorem unparen_token (t : Token) : (token t).unparen = token t := rfl

theorem unparen_node {kind : NodeKind} (h : kind ≠ .parenExpr) (ts : List Tree) :
    (node kind ts).unparen = node kind (unparenAll ts) := by
  rw [unparen, inParens_of_ne h]

/-- Parentheses are erased. -/
@[simp] theorem unparen_paren (o c : Token) (x : Tree) :
    (node .parenExpr [token o, x, token c]).unparen = x.unparen := rfl

theorem unparenAll_eq (ts : List Tree) : unparenAll ts = ts.map unparen := by
  induction ts with
  | nil => rfl
  | cons t ts ih => rw [unparenAll, ih, List.map_cons]

end Tree

end Whittle
