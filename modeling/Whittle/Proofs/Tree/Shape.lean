import Whittle.Tree.Placed
import Whittle.Tree.Weave

/-!
# Shapes

The shape of a tree is what the grammar made of it: its nodes and the kinds of its significant
tokens. Skeletons, trees and placed trees all have shapes, and weaving and placing keep them.

* `Shape.All`: a condition on nodes and their children that holds all the way down.
* `Skeleton.symbols`: the symbols a skeleton was read from.
* `Skeleton.leaves_weaveAll`: weaving loses no token.
* `Skeleton.shapes_weaveAll`: **weaving keeps the shape**, if the tokens are of the kinds that the
  skeleton was read from.
* `Tree.shapes_place`: so does placing.
-/

namespace Whittle

/-- What the grammar makes of some tokens: a tree without spellings, trivia and positions. -/
inductive Shape where
  | leaf (kind : TokenKind)
  | node (kind : NodeKind) (children : List Shape)

namespace Shape

mutual

/-- Whether each node of a shape and its children satisfy a condition. -/
def All (A : NodeKind → List Shape → Prop) : Shape → Prop
  | .leaf _ => True
  | .node kind children => A kind children ∧ AllOf A children

/-- Whether each node of some shapes and its children satisfy a condition. -/
def AllOf (A : NodeKind → List Shape → Prop) : List Shape → Prop
  | [] => True
  | x :: xs => x.All A ∧ AllOf A xs

end

variable {A : NodeKind → List Shape → Prop}

@[simp] theorem all_leaf {k : TokenKind} : (leaf k).All A := by simp [All]

@[simp] theorem all_node {k : NodeKind} {cs : List Shape} :
    (node k cs).All A ↔ A k cs ∧ AllOf A cs := by
  rw [All]

@[simp] theorem allOf_nil : AllOf A [] := by simp [AllOf]

@[simp] theorem allOf_cons {x : Shape} {xs : List Shape} :
    AllOf A (x :: xs) ↔ x.All A ∧ AllOf A xs := by
  rw [AllOf]

@[simp] theorem allOf_append {xs ys : List Shape} :
    AllOf A (xs ++ ys) ↔ AllOf A xs ∧ AllOf A ys := by
  induction xs with
  | nil => simp
  | cons x xs ih => simp [ih, and_assoc]

end Shape

/-! ### Shapes of skeletons -/

namespace Skeleton

mutual

/-- The shape of a skeleton; none for a slot. -/
def shapes : Skeleton → List Shape
  | .leaf symbol => [.leaf symbol.kind]
  | .slot => []
  | .node kind children => [.node kind (shapesAll children)]

/-- The shapes of some skeletons. -/
def shapesAll : List Skeleton → List Shape
  | [] => []
  | s :: ss => s.shapes ++ shapesAll ss

end

mutual

/-- The symbols a skeleton was read from. -/
def symbols : Skeleton → List Grammar.Symbol
  | .leaf symbol => [symbol]
  | .slot => []
  | .node _ children => symbolsAll children

/-- The symbols that some skeletons were read from. -/
def symbolsAll : List Skeleton → List Grammar.Symbol
  | [] => []
  | s :: ss => s.symbols ++ symbolsAll ss

end

@[simp] theorem shapesAll_append (ss rs : List Skeleton) :
    shapesAll (ss ++ rs) = shapesAll ss ++ shapesAll rs := by
  induction ss with
  | nil => simp [shapesAll]
  | cons s ss ih => simp [shapesAll, ih]

@[simp] theorem symbolsAll_append (ss rs : List Skeleton) :
    symbolsAll (ss ++ rs) = symbolsAll ss ++ symbolsAll rs := by
  induction ss with
  | nil => simp [symbolsAll]
  | cons s ss ih => simp [symbolsAll, ih]

end Skeleton

/-! ### Shapes of trees -/

namespace Token

/-- The shape of a token; none for trivia. -/
def shapes (t : Token) : List Shape := if t.isTrivia then [] else [.leaf t.kind]

@[simp] theorem significant_nil : significant [] = [] := rfl

@[simp] theorem significant_cons (t : Token) (ts : List Token) :
    significant (t :: ts) = if t.isTrivia then significant ts else t :: significant ts := by
  cases h : t.isTrivia <;> simp [significant, h]

@[simp] theorem significant_append (ts us : List Token) :
    significant (ts ++ us) = significant ts ++ significant us := List.filter_append ..

theorem significant_takeWhile (ts : List Token) : significant (ts.takeWhile (·.isTrivia)) = [] := by
  refine List.filter_eq_nil_iff.2 fun t ht => ?_
  simp [List.all_eq_true.1 List.all_takeWhile t ht]

theorem significant_dropWhile (ts : List Token) :
    significant (ts.dropWhile (·.isTrivia)) = significant ts := by
  induction ts with
  | nil => rfl
  | cons t ts ih =>
    by_cases h : t.isTrivia = true
    · rw [List.dropWhile_cons_of_pos h, ih, significant_cons, if_pos h]
    · rw [List.dropWhile_cons_of_neg h]

theorem dropWhile_eq_nil {ts : List Token} (h : significant ts = []) :
    ts.dropWhile (·.isTrivia) = [] := by
  induction ts with
  | nil => rfl
  | cons t ts ih =>
    by_cases ht : t.isTrivia = true
    · rw [List.dropWhile_cons_of_pos ht]
      exact ih (by simpa [ht] using h)
    · simp [ht] at h

end Token

mutual

/-- The shape of a tree; none for trivia. -/
def Tree.shapes : Tree → List Shape
  | .token t => t.shapes
  | .node kind children => [.node kind (Tree.shapesAll children)]

/-- The shapes of some trees. -/
def Tree.shapesAll : List Tree → List Shape
  | [] => []
  | t :: ts => t.shapes ++ Tree.shapesAll ts

end

mutual

/-- The shape of a placed tree; none for trivia. -/
def Placed.shapes : Placed → List Shape
  | .token _ t => t.shapes
  | .node _ kind children => [.node kind (Placed.shapesAll children)]

/-- The shapes of some placed trees. -/
def Placed.shapesAll : List Placed → List Shape
  | [] => []
  | t :: ts => t.shapes ++ Placed.shapesAll ts

end

namespace Tree

@[simp] theorem shapesAll_append (ts us : List Tree) :
    shapesAll (ts ++ us) = shapesAll ts ++ shapesAll us := by
  induction ts with
  | nil => simp [shapesAll]
  | cons t ts ih => simp [shapesAll, ih]

@[simp] theorem leavesAll_append (ts us : List Tree) :
    leavesAll (ts ++ us) = leavesAll ts ++ leavesAll us := by
  induction ts with
  | nil => simp [leavesAll]
  | cons t ts ih => simp [leavesAll, ih]

theorem leavesAll_map_token (ts : List Token) : leavesAll (ts.map .token) = ts := by
  induction ts with
  | nil => rfl
  | cons t ts ih => simp [leavesAll, leaves, ih]

theorem shapesAll_map_token (ts : List Token) :
    shapesAll (ts.map .token) = (Token.significant ts).map fun t => .leaf t.kind := by
  induction ts with
  | nil => rfl
  | cons t ts ih =>
    rw [List.map_cons, shapesAll, shapes, ih, Token.shapes, Token.significant_cons]
    by_cases h : t.isTrivia = true <;> simp [h]

mutual

theorem shapes_place (start : Nat) (t : Tree) : (t.place start).shapes = t.shapes := by
  cases t with
  | token t => rfl
  | node kind children => rw [place, Placed.shapes, shapes, shapesAll_place]

theorem shapesAll_place (start : Nat) (ts : List Tree) :
    Placed.shapesAll (placeAll start ts) = shapesAll ts := by
  cases ts with
  | nil => rfl
  | cons t ts => rw [placeAll, Placed.shapesAll, shapesAll, shapes_place, shapesAll_place]

end

end Tree

namespace Placed

@[simp] theorem shapesAll_append (ts us : List Placed) :
    shapesAll (ts ++ us) = shapesAll ts ++ shapesAll us := by
  induction ts with
  | nil => simp [shapesAll]
  | cons t ts ih => simp [shapesAll, ih]

end Placed

/-! ### Weaving -/

namespace Skeleton

mutual

theorem leaves_weave (s : Skeleton) (ts : List Token) :
    Tree.leavesAll (s.weave ts).1 ++ (s.weave ts).2 = ts := by
  cases s with
  | leaf symbol =>
    rw [weave, Tree.leavesAll_map_token, List.append_assoc, List.take_append_drop,
      List.takeWhile_append_dropWhile]
  | slot => rw [weave, Tree.leavesAll_map_token, List.takeWhile_append_dropWhile]
  | node kind children =>
    simp only [weave, Tree.leavesAll, Tree.leaves, List.append_nil]
    exact leaves_weaveAll children ts

/-- Weaving loses no token: those in the trees and those that are left are all there were. -/
theorem leaves_weaveAll (ss : List Skeleton) (ts : List Token) :
    Tree.leavesAll (weaveAll ss ts).1 ++ (weaveAll ss ts).2 = ts := by
  cases ss with
  | nil => rfl
  | cons s ss =>
    simp only [weaveAll, Tree.leavesAll_append, List.append_assoc]
    rw [leaves_weaveAll ss, leaves_weave s]

end

/-- The kinds of the significant ones of some tokens. -/
def kindsOf (ts : List Token) : List TokenKind := (Token.significant ts).map (·.kind)

mutual

theorem shapes_weave (s : Skeleton) (ts : List Token) (rest : List TokenKind)
    (h : kindsOf ts = s.symbols.map (·.kind) ++ rest) :
    Tree.shapesAll (s.weave ts).1 = s.shapes ∧ kindsOf (s.weave ts).2 = rest := by
  cases s with
  | leaf symbol =>
    rw [kindsOf, ← Token.significant_dropWhile] at h
    simp only [weave, List.map_append, Tree.shapesAll_append, Tree.shapesAll_map_token,
      Token.significant_takeWhile, List.map_nil, List.nil_append, shapes]
    -- what is left after the trivia starts with the token of the leaf
    cases hd : ts.dropWhile (·.isTrivia) with
    | nil => simp [hd, symbols] at h
    | cons t us =>
      have ht : t.isTrivia = false := by
        have := List.head?_dropWhile_not (·.isTrivia) ts
        simpa [hd] using this
      rw [hd] at h
      simp only [Token.significant_cons, ht, Bool.false_eq_true, if_false, List.map_cons, symbols,
        List.map_nil, List.cons_append, List.nil_append, List.cons.injEq] at h
      simp [ht, h.1, kindsOf, ← h.2]
  | slot =>
    simp only [symbols, List.map_nil, List.nil_append] at h
    rw [weave, kindsOf, Token.significant_dropWhile]
    exact ⟨by simp [Tree.shapesAll_map_token, Token.significant_takeWhile, shapes], h⟩
  | node kind children =>
    obtain ⟨hshapes, hrest⟩ := shapes_weaveAll children ts rest h
    simp only [weave, Tree.shapesAll, Tree.shapes, List.append_nil, shapes, hshapes]
    exact ⟨trivial, hrest⟩

/-- **Weaving keeps the shape**, if the significant tokens start with the kinds that the skeletons
were read from. -/
theorem shapes_weaveAll (ss : List Skeleton) (ts : List Token) (rest : List TokenKind)
    (h : kindsOf ts = (symbolsAll ss).map (·.kind) ++ rest) :
    Tree.shapesAll (weaveAll ss ts).1 = shapesAll ss ∧ kindsOf (weaveAll ss ts).2 = rest := by
  cases ss with
  | nil => exact ⟨rfl, by simpa [symbolsAll, weaveAll] using h⟩
  | cons s ss =>
    rw [symbolsAll, List.map_append, List.append_assoc] at h
    obtain ⟨hs, hs'⟩ := shapes_weave s ts _ h
    obtain ⟨hss, hss'⟩ := shapes_weaveAll ss (s.weave ts).2 rest hs'
    simp only [weaveAll, Tree.shapesAll_append, shapesAll, hs, hss]
    exact ⟨trivial, hss'⟩

end

end Skeleton

end Whittle
