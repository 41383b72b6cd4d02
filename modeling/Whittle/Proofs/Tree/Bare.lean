import Whittle.Proofs.Declaration.Layout

/-!
# Trees without their trivia

A bare tree is what is left of a tree when its trivia are dropped. Which one a text has depends on
its significant tokens alone, and every question that an analysis puts to a tree has the same
answer in the bare one, with other positions.

* `Tree.bare`, `Placed.bare`: a tree without trivia. In a placed tree the positions are moved along.
* `Tree.eq_of_shapesAll`: trees without trivia are told apart by their shapes and their tokens.
* `bare_parse`: **the bare tree of a text depends on its significant tokens only.**
* `bare_parse_eq`: it is any tree of the shape that the grammar finds, with these tokens.
* `Token.offset`: how many significant bytes stand before a byte of a text.
* `bare_root`: **the bare tree of a text, placed by itself, is its placed tree without trivia and
  with positions moved by `Token.offset`.**
* `Placed.child?_bare`, `Placed.firstToken?_bare` and the like: the answers in the bare tree.
-/

namespace Whittle

/-! ### Bare trees -/

namespace Tree

/-- Whether a tree is a token that carries no grammar. -/
def isTrivia : Tree → Bool
  | .token t => t.isTrivia
  | .node _ _ => false

mutual

/-- A tree without the trivia below it. -/
def bare : Tree → Tree
  | .token t => .token t
  | .node kind children => .node kind (bareAll children)

/-- Some trees without trivia. -/
def bareAll : List Tree → List Tree
  | [] => []
  | t :: ts => if t.isTrivia then bareAll ts else t.bare :: bareAll ts

end

theorem bareAll_eq (ts : List Tree) : bareAll ts = (ts.filter (!·.isTrivia)).map bare := by
  induction ts with
  | nil => rfl
  | cons t ts ih =>
    rw [bareAll, ih]
    cases h : t.isTrivia <;> simp [h]

@[simp] theorem bareAll_append (ts us : List Tree) :
    bareAll (ts ++ us) = bareAll ts ++ bareAll us := by
  simp [bareAll_eq]

theorem bareAll_map_token (ts : List Token) :
    bareAll (ts.map .token) = (Token.significant ts).map .token := by
  induction ts with
  | nil => rfl
  | cons t ts ih =>
    rw [List.map_cons, bareAll, ih, Token.significant_cons]
    cases h : t.isTrivia <;> simp [isTrivia, bare, h]

mutual

theorem leaves_bare (t : Tree) (h : t.isTrivia = false) :
    t.bare.leaves = Token.significant t.leaves := by
  cases t with
  | token t =>
    have ht : t.isTrivia = false := h
    simp [bare, leaves, ht]
  | node kind children => rw [bare, leaves, leaves, leavesAll_bareAll]

theorem leavesAll_bareAll (ts : List Tree) :
    leavesAll (bareAll ts) = Token.significant (leavesAll ts) := by
  cases ts with
  | nil => rfl
  | cons t ts =>
    rw [bareAll, leavesAll, Token.significant_append]
    cases h : t.isTrivia with
    | false =>
      simp only [Bool.false_eq_true, if_false, leavesAll, leaves_bare t h, leavesAll_bareAll ts]
    | true =>
      cases t with
      | token t =>
        have ht : t.isTrivia = true := h
        simp [leaves, ht, leavesAll_bareAll ts]
      | node kind children => cases h

end

mutual

theorem shapes_bare (t : Tree) : t.bare.shapes = t.shapes := by
  cases t with
  | token t => rfl
  | node kind children => rw [bare, shapes, shapes, shapesAll_bareAll]

/-- Dropping trivia keeps the shapes. -/
theorem shapesAll_bareAll (ts : List Tree) : shapesAll (bareAll ts) = shapesAll ts := by
  cases ts with
  | nil => rfl
  | cons t ts =>
    rw [bareAll]
    split
    · next htrivia =>
      -- trivia have no shape
      cases t with
      | token t =>
        have ht : t.isTrivia = true := htrivia
        rw [shapesAll_bareAll ts, shapesAll, shapes, Token.shapes, if_pos ht, List.nil_append]
      | node kind children => cases htrivia
    · rw [shapesAll, shapesAll, shapes_bare t, shapesAll_bareAll ts]

end

/-- The shape of a tree whose tokens are significant. -/
theorem exists_shapes_eq (t : Tree) (h : ∀ k ∈ t.leaves, k.isTrivia = false) :
    ∃ x, t.shapes = [x] := by
  cases t with
  | token t => exact ⟨.leaf t.kind, by simp [shapes, Token.shapes, h t (by simp [leaves])]⟩
  | node kind children => exact ⟨.node kind (shapesAll children), rfl⟩

mutual

theorem eq_of_shapes (t u : Tree) (ht : ∀ k ∈ t.leaves, k.isTrivia = false)
    (hu : ∀ k ∈ u.leaves, k.isTrivia = false) (hshapes : t.shapes = u.shapes) {r r' : List Token}
    (hleaves : t.leaves ++ r = u.leaves ++ r') : t = u ∧ r = r' := by
  cases t with
  | token t =>
    have ht : t.isTrivia = false := ht t (by simp [leaves])
    cases u with
    | token u =>
      obtain ⟨rfl, rfl⟩ := List.cons.inj hleaves
      exact ⟨rfl, rfl⟩
    | node kind children => simp [shapes, Token.shapes, ht] at hshapes
  | node kind ts =>
    cases u with
    | token u =>
      have hu : u.isTrivia = false := hu u (by simp [leaves])
      simp [shapes, Token.shapes, hu] at hshapes
    | node kind' us =>
      simp only [shapes, List.cons.injEq, Shape.node.injEq, and_true] at hshapes
      obtain ⟨rfl, rfl⟩ := eq_of_shapesAll ts us ht hu hshapes.2 hleaves
      exact ⟨by rw [hshapes.1], rfl⟩

/-- **Trees of significant tokens are told apart by their shapes and their tokens.** -/
theorem eq_of_shapesAll (ts us : List Tree) (ht : ∀ k ∈ leavesAll ts, k.isTrivia = false)
    (hu : ∀ k ∈ leavesAll us, k.isTrivia = false) (hshapes : shapesAll ts = shapesAll us)
    {r r' : List Token} (hleaves : leavesAll ts ++ r = leavesAll us ++ r') : ts = us ∧ r = r' := by
  cases ts with
  | nil =>
    cases us with
    | nil => exact ⟨rfl, hleaves⟩
    | cons u us =>
      rw [leavesAll, List.forall_mem_append] at hu
      obtain ⟨x, hx⟩ := exists_shapes_eq u hu.1
      simp [shapesAll, hx] at hshapes
  | cons t ts =>
    rw [leavesAll, List.forall_mem_append] at ht
    obtain ⟨x, hx⟩ := exists_shapes_eq t ht.1
    cases us with
    | nil => simp [shapesAll, hx] at hshapes
    | cons u us =>
      rw [leavesAll, List.forall_mem_append] at hu
      obtain ⟨y, hy⟩ := exists_shapes_eq u hu.1
      simp only [shapesAll, hx, hy, List.cons_append, List.nil_append, List.cons.injEq] at hshapes
      rw [leavesAll, leavesAll, List.append_assoc, List.append_assoc] at hleaves
      obtain ⟨rfl, hrest⟩ := eq_of_shapes t u ht.1 hu.1 (by rw [hx, hy, hshapes.1]) hleaves
      obtain ⟨rfl, rfl⟩ := eq_of_shapesAll ts us ht.2 hu.2 hshapes.2 hrest
      exact ⟨rfl, rfl⟩

end

end Tree

/-! ### Weaving -/

namespace Skeleton

open Token

theorem takeWhile_significant (ts : List Token) :
    (significant ts).takeWhile (·.isTrivia) = [] := by
  cases hs : significant ts with
  | nil => rfl
  | cons t us =>
    have ht : t ∈ significant ts := by simp [hs]
    have htrivia : t.isTrivia = false := by simpa using (List.mem_filter.1 ht).2
    simp [htrivia]

theorem dropWhile_significant (ts : List Token) :
    (significant ts).dropWhile (·.isTrivia) = significant ts := by
  have h := List.takeWhile_append_dropWhile (p := fun t : Token => t.isTrivia) (l := significant ts)
  rwa [takeWhile_significant, List.nil_append] at h

mutual

theorem bare_weave (s : Skeleton) (ts : List Token) :
    Tree.bareAll (s.weave ts).1 = Tree.bareAll (s.weave (significant ts)).1 ∧
      significant (s.weave ts).2 = (s.weave (significant ts)).2 := by
  cases s with
  | leaf symbol =>
    simp only [weave, Tree.bareAll_map_token, takeWhile_significant, dropWhile_significant,
      significant_append, significant_takeWhile, List.nil_append]
    -- after the trivia stands the first significant token, if there is one
    have hrest := significant_dropWhile ts
    cases hd : ts.dropWhile (·.isTrivia) with
    | nil =>
      rw [hd] at hrest
      simp [← hrest]
    | cons t us =>
      have ht : t.isTrivia = false := clearAhead_dropWhile ts t (by rw [hd]; rfl)
      rw [hd, significant_cons, ht] at hrest
      simp [← hrest, ht]
  | slot =>
    simp [weave, Tree.bareAll, Tree.bareAll_map_token, significant_takeWhile, significant_dropWhile,
      takeWhile_significant, dropWhile_significant]
  | node kind children =>
    obtain ⟨htrees, hrest⟩ := bare_weaveAll children ts
    refine ⟨?_, hrest⟩
    simp only [weave, Tree.bareAll, Tree.bare, htrees]
    rfl

/-- What becomes of skeletons, trivia aside, depends on the significant tokens. -/
theorem bare_weaveAll (ss : List Skeleton) (ts : List Token) :
    Tree.bareAll (weaveAll ss ts).1 = Tree.bareAll (weaveAll ss (significant ts)).1 ∧
      significant (weaveAll ss ts).2 = (weaveAll ss (significant ts)).2 := by
  cases ss with
  | nil => exact ⟨rfl, rfl⟩
  | cons s ss =>
    obtain ⟨htree, hrest⟩ := bare_weave s ts
    obtain ⟨htrees, hrest'⟩ := bare_weaveAll ss (s.weave ts).2
    rw [hrest] at htrees hrest'
    simp only [weaveAll, Tree.bareAll_append, htree, htrees]
    exact ⟨trivial, hrest'⟩

end

end Skeleton

/-- **The bare tree of a text depends on its significant tokens only.** -/
theorem bare_parse {t u : Text} (h : Token.significant (tokens t) = Token.significant (tokens u)) :
    (parse t).tree.bare = (parse u).tree.bare := by
  simp only [parse, Tree.bare]
  rw [(Skeleton.bare_weaveAll _ (tokens t)).1, (Skeleton.bare_weaveAll _ (tokens u)).1, h]

open Grammar in
/-- **The bare tree of a text is any tree of the shape that the grammar finds**, if its tokens are
the significant ones of the text. -/
theorem bare_parse_eq {t : Text} {ts : List Tree}
    (hleaves : Tree.leavesAll ts = Token.significant (tokens t))
    (hshapes : Skeleton.shapesAll (skeletons (Symbol.ofTokens (Token.significant (tokens t)))) =
      Tree.shapesAll ts) : (parse t).tree.bare = .node .root ts := by
  have hsig : ∀ k ∈ Token.significant (tokens t), k.isTrivia = false := fun k hk => by
    simpa using (List.mem_filter.1 hk).2
  let woven := (Skeleton.weaveAll
    (skeletons (Symbol.ofTokens (Token.significant (tokens t)))) (tokens t)).1
  have hbare : Tree.leavesAll (Tree.bareAll woven) = Token.significant (tokens t) := by
    rw [Tree.leavesAll_bareAll]
    exact congrArg Token.significant (leaves_parse t)
  have hbareShapes : Tree.shapesAll (Tree.bareAll woven) = Tree.shapesAll ts := by
    rw [Tree.shapesAll_bareAll, (weave_parse t).1, hshapes]
  have hall : Tree.leavesAll (Tree.bareAll woven) ++ [] = Tree.leavesAll ts ++ [] := by
    rw [hbare, hleaves]
  exact congrArg (Tree.node .root) (Tree.eq_of_shapesAll _ ts (by rwa [hbare]) (by rwa [hleaves])
    hbareShapes hall).1

/-! ### Moving positions -/

/-- A token with its position moved. -/
def Leaf.move (f : Nat → Nat) (l : Leaf) : Leaf := ⟨f l.start, l.token⟩

/-- A span of the same size with its start moved. -/
def Span.move (f : Nat → Nat) (s : Span) : Span := ⟨f s.start, f s.start + s.size⟩

@[simp] theorem Leaf.text_move (f : Nat → Nat) (l : Leaf) : (l.move f).text = l.text := rfl

@[simp] theorem Leaf.span_move (f : Nat → Nat) (l : Leaf) :
    (l.move f).span = l.span.move f := by
  simp [move, span, Span.move, Span.size]

namespace Placed

mutual

/-- A part without the trivia below it, with its positions moved. -/
def bare (f : Nat → Nat) : Placed → Placed
  | .token start t => .token (f start) t
  | .node start kind children => .node (f start) kind (bareAll f children)

/-- Some parts without trivia, with their positions moved. -/
def bareAll (f : Nat → Nat) : List Placed → List Placed
  | [] => []
  | t :: ts => if t.isTrivia then bareAll f ts else t.bare f :: bareAll f ts

end

end Placed

/-- Whether a way to move positions skips the trivia among some tokens, which start at a byte, and
goes along with the others. -/
def Token.Skips (f : Nat → Nat) (start : Nat) (ts : List Token) : Prop :=
  ∀ before after, ts = before ++ after →
    f (start + (concat before).size) = f start + (concat (significant before)).size

namespace Token.Skips

variable {f : Nat → Nat} {start : Nat} {ts us : List Token}

theorem left (h : Skips f start (ts ++ us)) : Skips f start ts := by
  rintro before after rfl
  exact h before (after ++ us) (by simp)

theorem right (h : Skips f start (ts ++ us)) :
    Skips f (start + (concat ts).size) us := by
  rintro before after rfl
  have hall := h (ts ++ before) after (by simp)
  have hfirst := h ts (before ++ after) rfl
  rw [concat_append, Text.size_append, significant_append, concat_append, Text.size_append] at hall
  rw [Nat.add_assoc, hall, hfirst, Nat.add_assoc]

end Token.Skips

namespace Tree

open Token

theorem size_bare (t : Tree) (h : t.isTrivia = false) :
    t.bare.size = (concat (significant t.leaves)).size := by
  rw [size_eq, text, leaves_bare t h]

mutual

theorem bare_place (f : Nat → Nat) (start : Nat) (t : Tree) (h : Skips f start t.leaves) :
    (t.place start).bare f = t.bare.place (f start) := by
  cases t with
  | token t => rfl
  | node kind children =>
    rw [place, Placed.bare, bare, place, bareAll_placeAll f start children h]

/-- Dropping trivia from placed trees comes to the same as placing bare trees. -/
theorem bareAll_placeAll (f : Nat → Nat) (start : Nat) (ts : List Tree)
    (h : Skips f start (leavesAll ts)) :
    Placed.bareAll f (placeAll start ts) = placeAll (f start) (bareAll ts) := by
  cases ts with
  | nil => rfl
  | cons t ts =>
    rw [leavesAll] at h
    have hrest := bareAll_placeAll f (start + t.size) ts (by rw [size_eq]; exact h.right)
    have hnext : f (start + t.size) = f start + (concat (significant t.leaves)).size := by
      rw [size_eq]
      exact h t.leaves (leavesAll ts) rfl
    rw [placeAll, Placed.bareAll, bareAll]
    cases htrivia : t.isTrivia with
    | true =>
      -- trivia take no room in the bare tree, so that what follows starts where they would
      cases t with
      | node kind children => cases htrivia
      | token t =>
        have ht : t.isTrivia = true := htrivia
        simp only [leaves, significant_cons, ht, if_true] at hnext
        simp only [place, Placed.isTrivia_token, ht, if_true, hrest, hnext]
        rfl
    | false =>
      have hplaced : (t.place start).isTrivia = false := by
        cases t with
        | token t => exact htrivia
        | node kind children => rfl
      rw [← size_bare t htrivia] at hnext
      simp only [hplaced, Bool.false_eq_true, if_false, placeAll, bare_place f start t h.left,
        hrest, hnext]

end

end Tree

namespace Token

/-- How many significant bytes stand before a byte, among some tokens. -/
def offset : List Token → Nat → Nat
  | [], _ => 0
  | t :: ts, n =>
    if n < t.size then 0 else (if t.isTrivia then 0 else t.size) + offset ts (n - t.size)

theorem offset_append (ts us : List Token) (h : ∀ u ∈ us, 0 < u.size) :
    offset (ts ++ us) (concat ts).size = (concat (significant ts)).size := by
  induction ts with
  | nil =>
    cases us with
    | nil => rfl
    | cons u us =>
      have hu := h u List.mem_cons_self
      simp [offset, concat, Text.size, hu]
  | cons t ts ih =>
    rw [List.cons_append, offset, size_concat_cons, if_neg (by omega), Nat.add_sub_cancel_left, ih,
      significant_cons]
    cases ht : t.isTrivia with
    | true => simp
    | false => simp [size_concat_cons]

/-- Of two tokens, the later one has more significant bytes before it if the earlier one is
significant. -/
theorem offset_lt_offset {before mid after : List Token} {x : Token}
    (h : ∀ u ∈ before ++ x :: mid ++ after, 0 < u.size) (hx : x.isTrivia = false) :
    offset (before ++ x :: mid ++ after) (concat before).size <
      offset (before ++ x :: mid ++ after) (concat (before ++ x :: mid)).size := by
  have hsecond := offset_append (before ++ x :: mid) after fun u hu => h u (by simp [hu])
  have hfirst := offset_append before (x :: mid ++ after) fun u hu => h u (by
    rw [List.append_assoc]
    exact List.mem_append_right before hu)
  rw [← List.append_assoc] at hfirst
  have hxpos := h x (by simp)
  rw [hfirst, hsecond, significant_append, significant_cons, hx, concat_append, Text.size_append]
  simp only [Bool.false_eq_true, if_false, size_concat_cons]
  omega

theorem skips_offset {ts : List Token} (h : ∀ t ∈ ts, 0 < t.size) : Skips (offset ts) 0 ts := by
  rintro before after rfl
  have hstart := offset_append [] (before ++ after) h
  rw [List.nil_append] at hstart
  have hoffset := offset_append before after fun u hu => h u (by simp [hu])
  rw [Nat.zero_add, hoffset]
  change _ = offset (before ++ after) (concat []).size + _
  rw [hstart, significant_nil]
  simp [concat, Text.size]

end Token

/-- **The bare tree of a text, placed by itself, is its placed tree without trivia.** -/
theorem bare_root (t : Text) :
    (parse t).root.bare (Token.offset (tokens t)) = (parse t).tree.bare.place 0 := by
  have hpos : ∀ u ∈ tokens t, 0 < u.size := fun u hu => Token.size_pos_of_mem_split hu
  have hskips : Token.Skips (Token.offset (tokens t)) 0 (parse t).tree.leaves := by
    rw [leaves_parse]
    exact Token.skips_offset hpos
  have hzero : Token.offset (tokens t) 0 = 0 := by
    simpa [Token.concat, Text.size] using Token.offset_append [] (tokens t) hpos
  rw [Parsed.root, Tree.bare_place _ 0 _ hskips, hzero]

theorem snug_bare_root (t : Text) : ((parse t).root.bare (Token.offset (tokens t))).Snug := by
  rw [bare_root]
  refine Tree.snug_place 0 _ fun u hu => ?_
  rw [Tree.leaves_bare _ rfl, leaves_parse] at hu
  exact Token.size_pos_of_mem_split (List.mem_filter.1 hu).1

/-! ### Positions that tell significant tokens apart -/

/-- Whether a way to move positions keeps the significant tokens of a tree apart. -/
def Placed.Separates (f : Nat → Nat) (root : Placed) : Prop :=
  ∀ l ∈ root.leaves, ∀ l' ∈ root.leaves, l.token.isTrivia = false → l'.token.isTrivia = false →
    f l.start = f l'.start → l.start = l'.start

theorem Leaf.exists_of_mem_layout {start : Nat} {ts : List Token} {l : Leaf}
    (h : l ∈ layout start ts) :
    ∃ before after, ts = before ++ l.token :: after ∧
      l.start = start + (Token.concat before).size := by
  obtain ⟨ls, ms, hsplit⟩ := List.append_of_mem h
  refine ⟨ls.map (·.token), ms.map (·.token), ?_, ?_⟩
  · have htokens := map_token_layout start ts
    rw [hsplit] at htokens
    simpa using htokens.symm
  · have hlast := (layout_split hsplit).2
    rw [List.map_cons, layout, List.cons.injEq] at hlast
    exact congrArg Leaf.start hlast.1

theorem separates_offset (t : Text) : (parse t).root.Separates (Token.offset (tokens t)) := by
  have hpos : ∀ u ∈ tokens t, 0 < u.size := fun u hu => Token.size_pos_of_mem_split hu
  intro l hl l' hl' hsig hsig' heq
  rw [Parsed.root, Tree.leaves_place, leaves_parse] at hl hl'
  obtain ⟨before, after, hsplit, hstart⟩ := Leaf.exists_of_mem_layout hl
  obtain ⟨before', after', hsplit', hstart'⟩ := Leaf.exists_of_mem_layout hl'
  rw [Nat.zero_add] at hstart hstart'
  rw [hstart, hstart'] at heq ⊢
  -- what stands before one of the tokens goes on to what stands before the other
  obtain ⟨mid, rfl, hmid⟩ | ⟨mid, rfl, hmid⟩ :=
    List.append_eq_append_iff.1 (hsplit.symm.trans hsplit')
  · cases mid with
    | nil => rw [List.append_nil]
    | cons x mid =>
      obtain ⟨rfl, -⟩ := List.cons.inj hmid
      rw [hsplit'] at heq hpos
      exact absurd heq (Nat.ne_of_lt (Token.offset_lt_offset hpos hsig))
  · cases mid with
    | nil => rw [List.append_nil]
    | cons x mid =>
      obtain ⟨rfl, -⟩ := List.cons.inj hmid
      rw [hsplit] at heq hpos
      exact absurd heq.symm (Nat.ne_of_lt (Token.offset_lt_offset hpos hsig'))

/-! ### Parts of bare trees -/

namespace Placed

variable {f : Nat → Nat}

theorem bareAll_eq (f : Nat → Nat) (ts : List Placed) :
    bareAll f ts = (ts.filter (!·.isTrivia)).map (bare f) := by
  induction ts with
  | nil => rfl
  | cons t ts ih =>
    rw [bareAll, ih]
    cases h : t.isTrivia <;> simp [h]

@[simp] theorem bareAll_nil (f : Nat → Nat) : bareAll f [] = [] := rfl

@[simp] theorem bareAll_append (f : Nat → Nat) (ts us : List Placed) :
    bareAll f (ts ++ us) = bareAll f ts ++ bareAll f us := by
  simp [bareAll_eq]

theorem bareAll_reverse (f : Nat → Nat) (ts : List Placed) :
    bareAll f ts.reverse = (bareAll f ts).reverse := by
  simp [bareAll_eq, List.filter_reverse]

theorem bareAll_cons_of_trivia {t : Placed} (ts : List Placed) (h : t.isTrivia = true) :
    bareAll f (t :: ts) = bareAll f ts := by
  rw [bareAll, if_pos h]

theorem bareAll_cons {t : Placed} (ts : List Placed) (h : t.isTrivia = false) :
    bareAll f (t :: ts) = t.bare f :: bareAll f ts := by
  rw [bareAll, h, if_neg Bool.false_ne_true]

@[simp] theorem bare_node (f : Nat → Nat) (start : Nat) (kind : NodeKind) (children : List Placed) :
    (node start kind children).bare f = node (f start) kind (bareAll f children) := rfl

@[simp] theorem bare_token (f : Nat → Nat) (start : Nat) (t : Token) :
    (token start t).bare f = token (f start) t := rfl

@[simp] theorem kind_bare (f : Nat → Nat) (t : Placed) : (t.bare f).kind = t.kind := by
  cases t <;> rfl

@[simp] theorem start_bare (f : Nat → Nat) (t : Placed) : (t.bare f).start = f t.start := by
  cases t <;> rfl

@[simp] theorem isNode_bare (f : Nat → Nat) (t : Placed) (k : NodeKind) :
    (t.bare f).isNode k = t.isNode k := by
  simp [isNode]

@[simp] theorem children_bare (f : Nat → Nat) (t : Placed) :
    (t.bare f).children = bareAll f t.children := by
  cases t <;> rfl

/-- Looking for a part that is no trivia finds the same part in the bare list. -/
theorem find?_bareAll {p : Placed → Bool} (ts : List Placed) (hp : ∀ t, p (t.bare f) = p t)
    (htrivia : ∀ t, t.isTrivia = true → p t = false) :
    (bareAll f ts).find? p = (ts.find? p).map (bare f) := by
  induction ts with
  | nil => rfl
  | cons t ts ih =>
    cases h : t.isTrivia with
    | true => rw [bareAll_cons_of_trivia ts h, ih, List.find?_cons, htrivia t h]
    | false =>
      rw [bareAll_cons ts h, List.find?_cons, List.find?_cons, hp, ih]
      cases p t <;> rfl

theorem findSome?_bareAll {α : Type} {g g' : Placed → Option α} {e : α → α} (ts : List Placed)
    (hg : ∀ t, g' (t.bare f) = (g t).map e) (htrivia : ∀ t, t.isTrivia = true → g t = none) :
    (bareAll f ts).findSome? g' = (ts.findSome? g).map e := by
  induction ts with
  | nil => rfl
  | cons t ts ih =>
    cases h : t.isTrivia with
    | true => rw [bareAll_cons_of_trivia ts h, ih, List.findSome?_cons, htrivia t h]
    | false =>
      rw [bareAll_cons ts h, List.findSome?_cons, List.findSome?_cons, hg, ih]
      cases g t <;> rfl

@[simp] theorem child?_bare (f : Nat → Nat) (t : Placed) (k : NodeKind) :
    (t.bare f).child? k = (t.child? k).map (bare f) := by
  rw [child?, children_bare]
  refine find?_bareAll t.children (fun c => isNode_bare f c k) fun c hc => ?_
  exact not_isNode_of_not_isInner k (not_isInner_of_isTrivia hc)

theorem hasToken_bare (f : Nat → Nat) (t : Placed) {k : TokenKind} (hk : k.isTrivia = false) :
    (t.bare f).hasToken k = t.hasToken k := by
  rw [hasToken, hasToken, children_bare, bareAll_eq, List.any_map, List.any_filter]
  congr 1
  funext c
  cases c with
  | node start kind children => rfl
  | token start u =>
    by_cases hu : u.kind = k
    · -- a token of a significant kind is never dropped
      subst hu
      have hsig : u.isTrivia = false := hk
      simp [isToken, kind, hsig]
    · simp [isToken, kind, hu]

mutual

/-- A part that does not begin with trivia begins with the same token when it is bare. -/
theorem firstToken?_bare (f : Nat → Nat) (t : Placed) (h : t.Trimmed) :
    (t.bare f).firstToken? = t.firstToken?.map (Leaf.move f) := by
  cases t with
  | token start t => rfl
  | node start kind children =>
    rw [Trimmed] at h
    rw [bare_node, firstToken?, firstToken?]
    exact firstTokenOf?_bareAll f children h.1 h.2

theorem firstTokenOf?_bareAll (f : Nat → Nat) (ts : List Placed)
    (hahead : Token.ClearAhead ((leavesAll ts).map (·.token))) (h : TrimmedAll ts) :
    firstTokenOf? (bareAll f ts) = (firstTokenOf? ts).map (Leaf.move f) := by
  cases ts with
  | nil => rfl
  | cons t ts =>
    rw [TrimmedAll] at h
    have htrivia : t.isTrivia = false := by
      cases t with
      | node start kind children => rfl
      | token start u => exact hahead u rfl
    rw [bareAll_cons ts htrivia, firstTokenOf?, firstTokenOf?]
    exact firstToken?_bare f t h.1

end

end Placed

/-! ### Sites of bare trees -/

/-- A step down with its positions moved and without trivia among the siblings. -/
def Crumb.bare (f : Nat → Nat) (c : Crumb) : Crumb :=
  ⟨c.kind, f c.start, Placed.bareAll f c.before, Placed.bareAll f c.after⟩

/-- A site in the bare tree. -/
def Site.bare (f : Nat → Nat) (s : Site) : Site := ⟨s.node.bare f, s.above.map (Crumb.bare f)⟩

namespace Placed

mutual

theorem sitesUnder_bare (f : Nat → Nat) (above : List Crumb) (t : Placed) :
    (t.bare f).sitesUnder (above.map (Crumb.bare f)) = (t.sitesUnder above).map (Site.bare f) := by
  cases t with
  | token start t => rfl
  | node start kind children =>
    rw [bare_node, sitesUnder, sitesUnder, List.map_cons, ← sitesAmong_bareAll, bareAll_nil]
    rfl

theorem sitesAmong_bareAll (f : Nat → Nat) (start : Nat) (kind : NodeKind) (above : List Crumb)
    (before ts : List Placed) :
    sitesAmong (f start) kind (above.map (Crumb.bare f)) (bareAll f before) (bareAll f ts) =
      (sitesAmong start kind above before ts).map (Site.bare f) := by
  cases ts with
  | nil => rfl
  | cons t ts =>
    have hrest := sitesAmong_bareAll f start kind above (t :: before) ts
    rw [sitesAmong, List.map_append, ← hrest]
    cases h : t.isTrivia with
    | true =>
      -- trivia have no sites, and are no siblings in the bare tree
      have hsites : t.sitesUnder (⟨kind, start, before, ts⟩ :: above) = [] := by
        cases t with
        | token start t => rfl
        | node start kind children => cases h
      rw [hsites, bareAll_cons_of_trivia ts h, bareAll_cons_of_trivia before h]
      rfl
    | false =>
      rw [bareAll_cons ts h, bareAll_cons before h, sitesAmong, ← sitesUnder_bare]
      rfl

end

theorem sites_bare (f : Nat → Nat) (root : Placed) :
    (root.bare f).sites = root.sites.map (Site.bare f) :=
  sitesUnder_bare f [] root

end Placed

namespace Site

variable {f : Nat → Nat} {s : Site}

@[simp] theorem node_bare (f : Nat → Nat) (s : Site) : (s.bare f).node = s.node.bare f := rfl

@[simp] theorem parentKind?_bare (f : Nat → Nat) (s : Site) :
    (s.bare f).parentKind? = s.parentKind? := by
  obtain ⟨node, above⟩ := s
  cases above <;> rfl

@[simp] theorem isWithin_bare (f : Nat → Nat) (s : Site) (k : NodeKind) :
    (s.bare f).isWithin k = s.isWithin k := by
  rw [isWithin, isWithin, node_bare, Placed.isNode_bare, bare, List.any_map]
  rfl

theorem parent?_bare (h : s.node.isInner = true) :
    (s.bare f).parent? = s.parent?.map (Site.bare f) := by
  obtain ⟨node, above⟩ := s
  cases above with
  | nil => rfl
  | cons c rest =>
    have hsig : node.isTrivia = false := Placed.not_isTrivia_of_isInner h
    simp [parent?, bare, Crumb.bare, Placed.bareAll_reverse, Placed.bareAll_cons c.after hsig]

/-- Different sites stand at different places of the bare tree. -/
theorem eq_of_bare_path_eq {root : Placed} {t : Site} (hroot : (root.bare f).Snug)
    (hs : s ∈ root.sites) (ht : t ∈ root.sites) (h : (s.bare f).path = (t.bare f).path) :
    s = t := by
  -- equal paths make the bare sites equal, which says nothing about the sites; their order does
  have horder := Placed.pairwise_sites hroot
  rw [Placed.sites_bare, List.pairwise_map] at horder
  have key := List.Pairwise.forall_of_forall_of_flip
    (R := fun u v : Site => (u.bare f).path = (v.bare f).path → u = v) (fun _ _ _ => rfl)
    (horder.imp fun hfollows heq => absurd heq hfollows.path_ne)
    (horder.imp fun hfollows heq => absurd heq.symm hfollows.path_ne)
  exact key hs ht h

end Site

end Whittle
