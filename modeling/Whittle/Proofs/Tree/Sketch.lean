import Whittle.Proofs.Grammar.Form
import Whittle.Removal.Range

/-!
# Sketches

A sketch is a tree as the grammar sees it: nodes over symbols, without trivia and positions. It says
more than a shape, since symbols tell which names are spelled alike.

* `Sketch.symbolsAll`: the symbols of some sketches.
* `Skeleton.sketchAll_weaveAll`: **weaving keeps the sketch**, if the tokens have the symbols that
  the skeleton was read from.
* `State.sketches`: what a state has built, as sketches.
* `sketch_root`: the sketch of a parsed text is that of the skeletons that were read from it.
-/

namespace Whittle

open Grammar

/-- What the grammar makes of some symbols. -/
inductive Sketch where
  | leaf (symbol : Symbol)
  | node (kind : NodeKind) (parts : List Sketch)

namespace Sketch

mutual

/-- The symbols of a sketch. -/
def symbols : Sketch → List Symbol
  | .leaf symbol => [symbol]
  | .node _ parts => symbolsAll parts

/-- The symbols of some sketches. -/
def symbolsAll : List Sketch → List Symbol
  | [] => []
  | x :: xs => x.symbols ++ symbolsAll xs

end

@[simp] theorem symbols_leaf (x : Symbol) : (leaf x).symbols = [x] := by rw [symbols]

@[simp] theorem symbols_node (k : NodeKind) (xs : List Sketch) :
    (node k xs).symbols = symbolsAll xs := by
  rw [symbols]

@[simp] theorem symbolsAll_nil : symbolsAll [] = [] := by rw [symbolsAll]

@[simp] theorem symbolsAll_cons (x : Sketch) (xs : List Sketch) :
    symbolsAll (x :: xs) = x.symbols ++ symbolsAll xs := by
  rw [symbolsAll]

@[simp] theorem symbolsAll_append (xs ys : List Sketch) :
    symbolsAll (xs ++ ys) = symbolsAll xs ++ symbolsAll ys := by
  induction xs with
  | nil => simp
  | cons x xs ih => simp [ih]

/-- Whether a sketch is a node of a kind. -/
def isNode (k : NodeKind) : Sketch → Bool
  | .leaf _ => false
  | .node kind _ => kind = k

/-- Whether a sketch is a symbol of a kind. -/
def isSymbol (k : TokenKind) : Sketch → Bool
  | .leaf symbol => symbol.kind = k
  | .node _ _ => false

/-- What stands directly below a node. -/
def parts : Sketch → List Sketch
  | .leaf _ => []
  | .node _ parts => parts

end Sketch

/-! ### Sketches of skeletons and trees -/

namespace Skeleton

mutual

/-- The sketch of a skeleton; none for a slot. -/
def sketch : Skeleton → List Sketch
  | .leaf symbol => [.leaf symbol]
  | .slot => []
  | .node kind children => [.node kind (sketchAll children)]

/-- The sketches of some skeletons. -/
def sketchAll : List Skeleton → List Sketch
  | [] => []
  | s :: ss => s.sketch ++ sketchAll ss

end

@[simp] theorem sketch_leaf (x : Symbol) : (leaf x).sketch = [.leaf x] := by rw [sketch]

@[simp] theorem sketch_slot : slot.sketch = [] := by rw [sketch]

@[simp] theorem sketch_node (k : NodeKind) (ss : List Skeleton) :
    (node k ss).sketch = [.node k (sketchAll ss)] := by
  rw [sketch]

@[simp] theorem sketchAll_nil : sketchAll [] = [] := by rw [sketchAll]

@[simp] theorem sketchAll_cons (s : Skeleton) (ss : List Skeleton) :
    sketchAll (s :: ss) = s.sketch ++ sketchAll ss := by
  rw [sketchAll]

@[simp] theorem sketchAll_append (ss rs : List Skeleton) :
    sketchAll (ss ++ rs) = sketchAll ss ++ sketchAll rs := by
  induction ss with
  | nil => simp
  | cons s ss ih => simp [ih]

end Skeleton

/-- The sketch of a token; none for trivia. The numbers of names are their places in a list. -/
def Token.sketch (names : List Text) (t : Token) : List Sketch :=
  if t.isTrivia then [] else [.leaf (.ofToken names t)]

mutual

/-- The sketch of a tree; none for trivia. -/
def Tree.sketch (names : List Text) : Tree → List Sketch
  | .token t => t.sketch names
  | .node kind children => [.node kind (Tree.sketchAll names children)]

/-- The sketches of some trees. -/
def Tree.sketchAll (names : List Text) : List Tree → List Sketch
  | [] => []
  | t :: ts => t.sketch names ++ Tree.sketchAll names ts

end

mutual

/-- The sketch of a placed tree; none for trivia. -/
def Placed.sketch (names : List Text) : Placed → List Sketch
  | .token _ t => t.sketch names
  | .node _ kind children => [.node kind (Placed.sketchAll names children)]

/-- The sketches of some placed trees. -/
def Placed.sketchAll (names : List Text) : List Placed → List Sketch
  | [] => []
  | t :: ts => t.sketch names ++ Placed.sketchAll names ts

end

variable (names : List Text)

namespace Tree

@[simp] theorem sketchAll_append (ts us : List Tree) :
    sketchAll names (ts ++ us) = sketchAll names ts ++ sketchAll names us := by
  induction ts with
  | nil => simp [sketchAll]
  | cons t ts ih => simp [sketchAll, ih]

theorem sketchAll_map_token (ts : List Token) :
    sketchAll names (ts.map .token) =
      (Token.significant ts).map fun t => .leaf (.ofToken names t) := by
  induction ts with
  | nil => rw [List.map_nil, sketchAll]; rfl
  | cons t ts ih =>
    rw [List.map_cons, sketchAll, sketch, ih, Token.sketch, Token.significant_cons]
    by_cases h : t.isTrivia = true <;> simp [h]

mutual

theorem sketch_place (start : Nat) (t : Tree) : (t.place start).sketch names = t.sketch names := by
  cases t with
  | token t => rw [place, Placed.sketch, sketch]
  | node kind children => rw [place, Placed.sketch, sketch, sketchAll_place]

theorem sketchAll_place (start : Nat) (ts : List Tree) :
    Placed.sketchAll names (placeAll start ts) = sketchAll names ts := by
  cases ts with
  | nil => rw [placeAll, Placed.sketchAll, sketchAll]
  | cons t ts => rw [placeAll, Placed.sketchAll, sketchAll, sketch_place, sketchAll_place]

end

end Tree

namespace Placed

@[simp] theorem sketchAll_nil : sketchAll names [] = [] := by rw [sketchAll]

@[simp] theorem sketchAll_cons (t : Placed) (ts : List Placed) :
    sketchAll names (t :: ts) = t.sketch names ++ sketchAll names ts := by
  rw [sketchAll]

@[simp] theorem sketchAll_append (ts us : List Placed) :
    sketchAll names (ts ++ us) = sketchAll names ts ++ sketchAll names us := by
  induction ts with
  | nil => simp
  | cons t ts ih => simp [ih]

theorem sketch_of_isTrivia {c : Placed} (h : c.isTrivia = true) : c.sketch names = [] := by
  cases c with
  | token start t =>
    have ht : t.isTrivia = true := h
    rw [sketch, Token.sketch, if_pos ht]
  | node start k cs => cases h

end Placed

/-! ### Weaving -/

namespace Skeleton

mutual

theorem sketch_weave (s : Skeleton) (ts : List Token) (rest : List Symbol)
    (h : (Token.significant ts).map (.ofToken names) = s.symbols ++ rest) :
    Tree.sketchAll names (s.weave ts).1 = s.sketch ∧
      (Token.significant (s.weave ts).2).map (.ofToken names) = rest := by
  cases s with
  | leaf symbol =>
    rw [← Token.significant_dropWhile] at h
    simp only [weave, List.map_append, Tree.sketchAll_append, Tree.sketchAll_map_token,
      Token.significant_takeWhile, List.map_nil, List.nil_append, sketch]
    -- what is left after the trivia starts with the token of the leaf
    cases hd : ts.dropWhile (·.isTrivia) with
    | nil => simp [hd, symbols] at h
    | cons t us =>
      have ht : t.isTrivia = false := by
        have := List.head?_dropWhile_not (·.isTrivia) ts
        simpa [hd] using this
      rw [hd] at h
      simp only [Token.significant_cons, ht, Bool.false_eq_true, if_false, List.map_cons, symbols,
        List.cons_append, List.nil_append, List.cons.injEq] at h
      simp [ht, h.1, ← h.2]
  | slot =>
    simp only [symbols, List.nil_append] at h
    rw [weave, Token.significant_dropWhile]
    exact ⟨by simp [Tree.sketchAll_map_token, Token.significant_takeWhile], h⟩
  | node kind children =>
    rw [symbols] at h
    obtain ⟨hsketch, hrest⟩ := sketchAll_weaveAll children ts rest h
    simp only [weave, Tree.sketchAll, Tree.sketch, List.append_nil, sketch, hsketch]
    exact ⟨trivial, hrest⟩

/-- **Weaving keeps the sketch**, if the significant tokens start with the symbols that the
skeletons were read from. -/
theorem sketchAll_weaveAll (ss : List Skeleton) (ts : List Token) (rest : List Symbol)
    (h : (Token.significant ts).map (.ofToken names) = symbolsAll ss ++ rest) :
    Tree.sketchAll names (weaveAll ss ts).1 = sketchAll ss ∧
      (Token.significant (weaveAll ss ts).2).map (.ofToken names) = rest := by
  cases ss with
  | nil => exact ⟨by simp [weaveAll, Tree.sketchAll], by simpa [symbolsAll, weaveAll] using h⟩
  | cons s ss =>
    rw [symbolsAll, List.append_assoc] at h
    obtain ⟨hs, hs'⟩ := sketch_weave s ts _ h
    obtain ⟨hss, hss'⟩ := sketchAll_weaveAll ss (s.weave ts).2 rest hs'
    simp only [weaveAll, Tree.sketchAll_append, sketchAll, hs, hss]
    exact ⟨trivial, hss'⟩

end

end Skeleton

/-! ### Sketches of states -/

namespace Grammar.State

open Sketch

/-- The sketches of the trees of the innermost segment. -/
def sketches (s : State) : List Sketch := Skeleton.sketchAll s.trees

/-- What consuming the next symbol adds. -/
def taken (s : State) : List Sketch := (s.ahead.head?.map Sketch.leaf).toList

@[simp] theorem sketches_bump (s : State) : (s.act .bump).sketches = s.sketches ++ s.taken := by
  unfold sketches taken
  rw [trees_bump, Skeleton.sketchAll_append, bumped]
  cases s.ahead <;> simp

@[simp] theorem sketches_settle (s : State) : (s.act .settle).sketches = s.sketches := by
  simp [sketches]

@[simp] theorem sketches_gather (s : State) (k : NodeKind) :
    (s.act (.gather k)).sketches = [.node k s.sketches] := by
  simp [sketches]

@[simp] theorem sketches_fault (s : State) (f : Fault) :
    (s.act (.fault f)).sketches = s.sketches := rfl

@[simp] theorem sketches_declaring (s : State) (n : Option Nat) (b : Bool) :
    (s.declaring n b).sketches = s.sketches := by
  simp [sketches]

@[simp] theorem sketches_opened (s : State) : s.opened.sketches = [] := by simp [sketches]

@[simp] theorem sketches_joined (i o : State) :
    (i.joined o).sketches = o.sketches ++ i.sketches := by
  simp [sketches]

@[simp] theorem sketches_entered (s : State) (ns : Names) :
    (s.entered ns).sketches = s.sketches := rfl

@[simp] theorem sketches_closed (s : State) : s.closed.sketches = s.sketches := rfl

theorem ahead_eq_taken (s : State) : s.ahead = symbolsAll s.taken ++ s.ahead.tail := by
  unfold taken
  cases s.ahead <;> simp

end Grammar.State

/-- The spellings of the identifiers of a text. -/
def spellings (t : Text) : List Text := Symbol.identifiers (Token.significant (tokens t))

/-- **The sketch of a text is that of the skeletons** that were read from its symbols. -/
theorem sketch_root (t : Text) :
    (parse t).root.sketch (spellings t) =
      [.node .root (Skeleton.sketchAll
        (skeletons (Symbol.ofTokens (Token.significant (tokens t)))))] := by
  have hsymbols : (Token.significant (tokens t)).map (.ofToken (spellings t)) =
      Skeleton.symbolsAll (skeletons (Symbol.ofTokens (Token.significant (tokens t)))) ++ [] := by
    rw [symbols_skeletons, List.append_nil]
    rfl
  have hweave := (Skeleton.sketchAll_weaveAll (spellings t) _ _ [] hsymbols).1
  change ((Tree.node .root _).place 0).sketch (spellings t) = _
  rw [Tree.sketch_place, Tree.sketch]
  exact congrArg (fun xs => [Sketch.node .root xs]) hweave

end Whittle
