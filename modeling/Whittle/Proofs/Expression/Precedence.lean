import Whittle.Proofs.Expression.Basic
import Whittle.Proofs.Grammar.Precedence
import Whittle.Proofs.Tree.Leaves

/-!
# Precedence of operators

The operators of a tree stand as their spellings ask, also in the tree of a malformed text.

* `Expr.operatorClasses`: the operators between two operands, the loosest first.
* `Token.exists_mark`: a token of the kind of a mark is spelled as one.
* `Placed.operator?`: the operator of a node.
* `operators_respect_precedence`: **no operand binds looser than its side of the operator allows.**
-/

namespace Whittle

open Grammar

/-! ### Spellings of operators -/

namespace Expr

/-- The operators that stand between two operands by how tightly they bind, the loosest first. -/
def operatorClasses : List (List String) :=
  [[","], assignmentOperators, ["||"], ["&&"], ["|"], ["^"], ["&"], ["==", "!="],
    ["<", ">", "<=", ">="], ["<<", ">>"], ["+", "-"], ["*", "/", "%"]]

/-- The class of the assignments. -/
def assignmentLevel : Nat := 1

/-- The place of the operators of a class in the grammar. Conditionals stand between assignments and
the operators that bind tighter. -/
def placeOf (level : Nat) : Nat := if level ≤ assignmentLevel then level + 1 else level + 2

section

variable {m n : Nat}

/-- What fits left of an operator binds at least as tightly, left of an assignment tighter. -/
theorem le_of_leftPlace (h : Sketch.leftPlace (placeOf n) ≤ placeOf m) :
    if n = assignmentLevel then n < m else n ≤ m := by
  unfold Sketch.leftPlace placeOf assignmentLevel at *
  split <;> grind

/-- What fits right of an operator binds tighter, right of an assignment at least as tightly. -/
theorem lt_of_rightPlace (h : Sketch.rightPlace (placeOf n) ≤ placeOf m) :
    if n = assignmentLevel then n ≤ m else n < m := by
  unfold Sketch.rightPlace placeOf assignmentLevel at *
  split <;> grind

/-- What a conditional fits beside is an assignment or a comma. -/
theorem le_assignmentLevel
    (h : Sketch.leftPlace (placeOf n) ≤ 3 ∨ Sketch.rightPlace (placeOf n) ≤ 3) :
    n ≤ assignmentLevel := by
  unfold Sketch.leftPlace Sketch.rightPlace placeOf assignmentLevel at *
  grind

end

end Expr

namespace Token

/-- How tightly an operator binds, by its spelling. -/
def precedence? (t : Token) : Option Nat :=
  Expr.operatorClasses.findIdx? fun ws => isOneOf ws t.text

/-- Whether a kind is that of a mark. -/
def isMarkKind (k : TokenKind) : Bool := marks.any fun m => m.2 = k

theorem isMarkKind_wordKind (w : Text) : isMarkKind (wordKind w) = false := by
  have hreserved : ∀ r ∈ reserved, isMarkKind r.2 = false := by decide +kernel
  unfold wordKind
  cases hfind : reserved.find? (·.1.toList == w) with
  | none => rfl
  | some r => exact hreserved r (List.mem_of_find?_eq_some hfind)

theorem isMarkKind_wordExtent (c : Char) (cs : Text) :
    isMarkKind (wordExtent c cs).1 = false := by
  simp only [wordExtent]
  split
  · split
    · rfl
    · exact isMarkKind_wordKind _
  · split
    · rfl
    · exact isMarkKind_wordKind _
  · exact isMarkKind_wordKind _

/-- What is read as of the kind of a mark is a mark. -/
theorem exists_mark_of_extent {lineStart : Bool} {c : Char} {cs : Text} {e : TokenKind × Nat}
    (he : extent lineStart c cs = e) (hkind : isMarkKind e.1 = true) :
    ∃ m ∈ marks, m.2 = e.1 ∧ m.1.toList = c :: cs.take e.2 := by
  unfold extent at he
  split at he
  · subst he; cases hkind
  split at he
  · subst he; cases hkind
  split at he
  · subst he; cases hkind
  split at he
  · subst he; cases hkind
  split at he
  · subst he; cases hkind
  split at he
  · subst he; cases hkind
  split at he
  · subst he; cases hkind
  split at he
  · subst he
    rw [isMarkKind_wordExtent] at hkind
    cases hkind
  unfold markAt at he
  cases hfind : marks.find? (·.1.toList.isPrefixOf (c :: cs)) with
  | none =>
    rw [hfind] at he
    subst he
    cases hkind
  | some m =>
    rw [hfind] at he
    subst he
    refine ⟨m, List.mem_of_find?_eq_some hfind, rfl, ?_⟩
    have hpre := List.find?_some hfind
    rw [List.isPrefixOf_iff_prefix] at hpre
    obtain ⟨rest, hrest⟩ := hpre
    -- the mark is as much of the text as it is long
    cases htext : m.1.toList with
    | nil =>
      have hmarks : ∀ m ∈ marks, m.1.toList ≠ [] := by decide
      exact absurd htext (hmarks m (List.mem_of_find?_eq_some hfind))
    | cons d ds =>
      rw [htext, List.cons_append, List.cons.injEq] at hrest
      obtain ⟨rfl, rfl⟩ := hrest
      simp [htext]

/-- **A token of the kind of a mark is spelled as one.** -/
theorem exists_mark {lineStart : Bool} {t : Text} {u : Token} (hu : u ∈ split lineStart t)
    (hkind : isMarkKind u.kind = true) : ∃ m ∈ marks, u = ⟨m.2, m.1.toList⟩ := by
  fun_induction split lineStart t with
  | case1 => simp at hu
  | case2 lineStart c cs e v ih =>
    obtain rfl | hu := List.mem_cons.1 hu
    · obtain ⟨m, hm, hkind', htext⟩ := exists_mark_of_extent (e := e) rfl hkind
      exact ⟨m, hm, by rw [hkind', htext]⟩
    · exact ih hu

/-- What stands between operands is of the kind of a mark. -/
theorem isMarkKind_of_rank? {x : Symbol} {n : Nat} (h : x.rank? = some n) :
    isMarkKind x.kind = true := by
  unfold Symbol.rank? Symbol.level at h
  cases hk : x.kind <;> rw [hk] at h <;> first | rfl | simp at h

/-- **The spelling of an operator says how tightly it binds.** -/
theorem precedence?_of_rank? {t : Text} {u : Token} {names : List Text} {n : Nat}
    (hu : u ∈ tokens t) (h : (Symbol.ofToken names u).rank? = some n) :
    ∃ m, u.precedence? = some m ∧ n = Expr.placeOf m := by
  have hmarks : ∀ m ∈ marks, ∀ n ∈ (Symbol.ofToken [] ⟨m.2, m.1.toList⟩).rank?,
      (precedence? ⟨m.2, m.1.toList⟩).map Expr.placeOf = some n := by
    decide +kernel
  obtain ⟨m, hm, rfl⟩ := exists_mark hu (isMarkKind_of_rank? h)
  obtain ⟨k, hk, hn⟩ := Option.map_eq_some_iff.1 (hmarks m hm n h)
  exact ⟨k, hk, hn.symm⟩

end Token

/-! ### Operators in trees -/

namespace Placed

variable {names : List Text} {start : Nat} {k : NodeKind} {c : Placed} {cs : List Placed}

/-- The first one of the significant tokens directly below a node. -/
def operator? (c : Placed) : Option Token := c.children.findSome? significantToken?

/-- How tightly the operator of a node binds. -/
def precedence? (c : Placed) : Option Nat := c.operator?.bind Token.precedence?

theorem sketch_of_not_isTrivia (names : List Text) (h : c.isTrivia = false) :
    ∃ y, c.sketch names = [y] := by
  cases c with
  | token start t =>
    have ht : t.isTrivia = false := h
    exact ⟨.leaf (.ofToken names t), by simp [sketch, Token.sketch, ht]⟩
  | node start k cs => exact ⟨_, by rw [sketch]⟩

/-- Trivia leave no trace in sketches. -/
theorem sketchAll_filter (cs : List Placed) :
    sketchAll names (cs.filter (!·.isTrivia)) = sketchAll names cs := by
  induction cs with
  | nil => rfl
  | cons c cs ih =>
    cases hc : c.isTrivia with
    | true => simp [hc, ih, sketch_of_isTrivia names hc]
    | false => simp [hc, ih]

/-- A symbol among the sketches of significant parts is that of a token. -/
theorem exists_of_sketchAll_leaf {x : Symbol} {xs ys : List Sketch}
    (hcs : ∀ c ∈ cs, c.isTrivia = false) (h : sketchAll names cs = xs ++ .leaf x :: ys) :
    ∃ l start u r, cs = l ++ .token start u :: r ∧ Symbol.ofToken names u = x ∧
      sketchAll names l = xs ∧ sketchAll names r = ys := by
  induction cs generalizing xs with
  | nil => simp at h
  | cons c cs ih =>
    obtain ⟨y, hy⟩ := sketch_of_not_isTrivia names (hcs c List.mem_cons_self)
    rw [sketchAll_cons, hy, List.singleton_append] at h
    cases xs with
    | nil =>
      rw [List.nil_append, List.cons.injEq] at h
      obtain ⟨rfl, hrest⟩ := h
      cases c with
      | token start u =>
        have hu : u.isTrivia = false := hcs _ List.mem_cons_self
        refine ⟨[], start, u, cs, rfl, ?_, sketchAll_nil names, hrest⟩
        simpa [sketch, Token.sketch, hu] using hy
      | node start k cs => simp [sketch] at hy
    | cons z xs =>
      rw [List.cons_append, List.cons.injEq] at h
      obtain ⟨rfl, hrest⟩ := h
      obtain ⟨l, start, u, r, rfl, hx, hl, hr⟩ :=
        ih (fun c hc => hcs c (List.mem_cons_of_mem _ hc)) hrest
      exact ⟨c :: l, start, u, r, rfl, hx, by simp [hy, hl], hr⟩

/-- Significant parts and their sketches come one by one. -/
theorem length_sketchAll (hcs : ∀ c ∈ cs, c.isTrivia = false) :
    (sketchAll names cs).length = cs.length := by
  induction cs with
  | nil => simp
  | cons c cs ih =>
    obtain ⟨y, hy⟩ := sketch_of_not_isTrivia names (hcs c List.mem_cons_self)
    rw [sketchAll_cons, hy, List.length_append, ih fun c hc => hcs c (List.mem_cons_of_mem _ hc)]
    simp [Nat.add_comm]

theorem mem_sketchAll {y : Sketch} (hc : c ∈ cs) (hy : c.sketch names = [y]) :
    y ∈ sketchAll names cs := by
  obtain ⟨l, r, rfl⟩ := List.append_of_mem hc
  simp [hy]

open Sketch

/-- A part whose sketch is an operand is a node. -/
theorem isInner_of_binds {y : Sketch} {place : Nat} (hy : c.sketch names = [y])
    (hbinds : y.Binds place) : c.isInner = true := by
  cases c with
  | token start t =>
    rw [sketch, Token.sketch] at hy
    split at hy
    · cases hy
    · rw [List.cons.injEq] at hy
      rw [← hy.1] at hbinds
      exact hbinds.elim
  | node start k cs => rfl

/-- **The parts of an operation**: the operator and at most one node on each side. -/
theorem exists_of_operation (h : Operation (sketchAll names cs)) :
    ∃ l start u r n, cs.filter (!·.isTrivia) = l ++ .token start u :: r ∧
      (Symbol.ofToken names u).rank? = some n ∧
      (l.length ≤ 1 ∧ ∀ c ∈ l, ∃ y, c.sketch names = [y] ∧ y.Binds (leftPlace n)) ∧
      (r.length ≤ 1 ∧ ∀ c ∈ r, ∃ y, c.sketch names = [y] ∧ y.Binds (rightPlace n)) ∧
      (sketchAll names cs).findSome? rank? = some n := by
  have hsignificant : ∀ c ∈ cs.filter (!·.isTrivia), c.isTrivia = false := by simp
  generalize hparts : sketchAll names cs = parts at h
  cases h with
  | @intro xs ys x n hx hxs hys =>
    rw [← sketchAll_filter] at hparts
    obtain ⟨l, start, u, r, hsplit, rfl, rfl, rfl⟩ := exists_of_sketchAll_leaf hsignificant hparts
    rw [hsplit] at hsignificant
    have hl : ∀ c ∈ l, c.isTrivia = false := fun c hc => hsignificant c (by simp [hc])
    have hr : ∀ c ∈ r, c.isTrivia = false := fun c hc => hsignificant c (by simp [hc])
    have operand {m : Nat} {ds : List Placed} (hds : ∀ c ∈ ds, c.isTrivia = false)
        (hops : Operands (Binds m) (sketchAll names ds)) :
        ds.length ≤ 1 ∧ ∀ c ∈ ds, ∃ y, c.sketch names = [y] ∧ y.Binds m := by
      refine ⟨length_sketchAll hds ▸ hops.length, fun c hc => ?_⟩
      obtain ⟨y, hy⟩ := sketch_of_not_isTrivia names (hds c hc)
      exact ⟨y, hy, hops.forall_mem y (mem_sketchAll hc hy)⟩
    refine ⟨l, start, u, r, n, hsplit, hx, operand hl hxs, operand hr hys, ?_⟩
    rw [List.findSome?_append, findSome?_of_binds hxs.forall_mem, Option.none_or,
      List.findSome?_cons]
    simp only [rank?, hx]

theorem findSome?_significantToken? (cs : List Placed) :
    (cs.filter (!·.isTrivia)).findSome? significantToken? = cs.findSome? significantToken? := by
  induction cs with
  | nil => rfl
  | cons c cs ih =>
    cases c with
    | token start t =>
      cases ht : t.isTrivia with
      | true => simp [ht, ih, significantToken?]
      | false => simp [ht, significantToken?]
    | node start k ds =>
      rw [List.filter_cons_of_pos rfl, List.findSome?_cons, List.findSome?_cons, ih]

/-- The significant token with only nodes before it is the operator. -/
theorem operator?_eq {l r : List Placed} {start' : Nat} {u : Token}
    (hsplit : cs.filter (!·.isTrivia) = l ++ .token start' u :: r)
    (hl : ∀ c ∈ l, c.isInner = true) : (node start k cs).operator? = some u := by
  have hu : u.isTrivia = false := by
    have hmem : token start' u ∈ cs.filter (!·.isTrivia) := by simp [hsplit]
    simpa using (List.mem_filter.1 hmem).2
  have hnone : l.findSome? significantToken? = none := by
    refine List.findSome?_eq_none_iff.2 fun c hc => ?_
    cases c with
    | token start t => cases hl _ hc
    | node start k cs => rfl
  rw [operator?, children, ← findSome?_significantToken?, hsplit, List.findSome?_append, hnone,
    Option.none_or, List.findSome?_cons]
  simp [significantToken?, hu]

/-- An operation that fits a place has an operator that binds as tightly as the place asks. -/
theorem precedence?_of_binds {t : Text} {y : Sketch} {place : Nat}
    (hleaves : ∀ l ∈ c.leaves, l.token ∈ tokens t) (hc : c.isNode .binaryExpr = true)
    (hy : c.sketch names = [y]) (hbinds : y.Binds place) (hranked : y.Ranked) :
    ∃ m, c.precedence? = some m ∧ place ≤ Expr.placeOf m := by
  cases c with
  | token start t => simp [isNode, kind] at hc
  | node start k cs =>
    obtain rfl := isNode_node.1 hc
    rw [sketch, List.cons.injEq] at hy
    obtain ⟨rfl, -⟩ := hy
    obtain ⟨l, start', u, r, n, hsplit, hrank, hl, -, hfirst⟩ :=
      exists_of_operation ((ranked_node.1 hranked).1 rfl)
    obtain ⟨n', hn', hle⟩ := hbinds.1 rfl
    obtain rfl : n = n' := Option.some.inj (hfirst.symm.trans hn')
    have hinner : ∀ d ∈ l, d.isInner = true := by
      intro d hd
      obtain ⟨z, hz, hzbinds⟩ := hl.2 d hd
      exact isInner_of_binds hz hzbinds
    have hmem : token start' u ∈ cs := (List.mem_filter.1 (by rw [hsplit]; simp)).1
    have hu : u ∈ tokens t := by
      obtain ⟨before, after, rfl⟩ := List.append_of_mem hmem
      exact hleaves ⟨start', u⟩ (by simp [leavesAll_append])
    obtain ⟨m, hm, rfl⟩ := Token.precedence?_of_rank? hu hrank
    exact ⟨m, by rw [precedence?, operator?_eq hsplit hinner]; exact hm, hle⟩

/-- A conditional fits places up to its own. -/
theorem le_of_conditionalExpr {y : Sketch} {place : Nat} (hc : c.isNode .conditionalExpr = true)
    (hy : c.sketch names = [y]) (hbinds : y.Binds place) : place ≤ 3 := by
  cases c with
  | token start t => simp [isNode, kind] at hc
  | node start k cs =>
    rw [sketch, List.cons.injEq] at hy
    obtain ⟨rfl, -⟩ := hy
    exact hbinds.2 (isNode_node.1 hc)

theorem ranked_of_mem {cs : List Placed} (h : RankedAll (sketchAll names cs)) (hc : c ∈ cs) :
    RankedAll (c.sketch names) := by
  obtain ⟨l, r, rfl⟩ := List.append_of_mem hc
  rw [sketchAll_append, sketchAll_cons, rankedAll_append, rankedAll_append] at h
  exact h.2.1

end Placed

/-- All operator nodes of the tree of a text are operations. -/
theorem ranked_site {t : Text} :
    ∀ s ∈ (parse t).root.sites, Sketch.RankedAll (s.node.sketch (spellings t)) := by
  refine Placed.sites_induction (fun u c hu hc _ => ?_) fun _ => ?_
  · obtain ⟨start, kind, l, r, hnode, -⟩ := Site.parent?_eq_some.1 hc
    rw [hnode, Placed.sketch, Sketch.rankedAll_cons, Sketch.ranked_node] at hu
    exact Placed.ranked_of_mem hu.1.2 (by simp)
  · rw [sketch_root, Sketch.rankedAll_cons, Sketch.ranked_node]
    exact ⟨⟨nofun, ranked_skeletons _⟩, Sketch.rankedAll_nil⟩

/-- The tokens of a node of the tree of a text are tokens of the text. -/
theorem mem_tokens_of_mem_leaves {t : Text} {s : Site} (hs : s ∈ (parse t).root.sites) {l : Leaf}
    (hl : l ∈ s.node.leaves) : l.token ∈ tokens t := by
  obtain ⟨before, after, hsplit, -⟩ := ((parse_lossless t).2.2.2 s hs).2
  rw [hsplit]
  exact List.mem_append_left _ (List.mem_append_right _ (List.mem_map_of_mem hl))

open Expr in
/-- **Whether a node has its operator as its only significant token, with at most one node on each
side**, as the spellings ask. A node of another operator on the left binds at least as tightly, one
on the right tighter; beside an assignment it is the other way round. A conditional is an operand
only of assignments and commas. -/
def Placed.RespectsPrecedence (node : Placed) : Prop :=
  ∃ l start op r n,
    node.children.filter (!·.isTrivia) = l ++ .token start op :: r ∧
    op.precedence? = some n ∧ l.length ≤ 1 ∧ r.length ≤ 1 ∧
    (∀ c ∈ l ++ r, c.isInner = true ∧
      (c.isNode .conditionalExpr = true → n ≤ assignmentLevel)) ∧
    (∀ c ∈ l, c.isNode .binaryExpr = true → ∃ m, c.precedence? = some m ∧
      if n = assignmentLevel then n < m else n ≤ m) ∧
    ∀ c ∈ r, c.isNode .binaryExpr = true → ∃ m, c.precedence? = some m ∧
      if n = assignmentLevel then n ≤ m else n < m

open Expr in
/-- **Operators stand as their spellings ask**, in the tree of every text, sound or not. -/
theorem operators_respect_precedence (t : Text) (s : Site) (hs : s ∈ (parse t).root.sites)
    (hbinary : s.node.isNode .binaryExpr = true) : s.node.RespectsPrecedence := by
  have hranked := ranked_site s hs
  have hleaves : ∀ l ∈ s.node.leaves, l.token ∈ tokens t := fun l => mem_tokens_of_mem_leaves hs
  cases hnode : s.node with
  | token start u => simp [hnode, Placed.isNode, Placed.kind] at hbinary
  | node start k cs =>
    rw [hnode] at hranked hleaves hbinary
    obtain rfl := Placed.isNode_node.1 hbinary
    rw [Placed.sketch, Sketch.rankedAll_cons, Sketch.ranked_node] at hranked
    obtain ⟨⟨hoperation, hbelow⟩, -⟩ := hranked
    obtain ⟨l, start', op, r, n, hsplit, hrank, hl, hr, -⟩ :=
      Placed.exists_of_operation (hoperation rfl)
    have hmem : ∀ c ∈ l ++ .token start' op :: r, c ∈ cs := by
      intro c hc
      rw [← hsplit] at hc
      exact (List.mem_filter.1 hc).1
    have hsub : ∀ c ∈ cs, ∀ l ∈ c.leaves, l.token ∈ tokens t := by
      intro c hc l hl
      obtain ⟨before, after, rfl⟩ := List.append_of_mem hc
      exact hleaves l (by simp [Placed.leavesAll_append, hl])
    obtain ⟨p, hp, rfl⟩ := Token.precedence?_of_rank?
      (hsub _ (hmem (.token start' op) (by simp)) ⟨start', op⟩ (by simp)) hrank
    -- how tightly an operand binds that fits a place
    have operand {c : Placed} {y : Sketch} {place : Nat} (hc : c ∈ cs)
        (hy : c.sketch (spellings t) = [y]) (hbinds : y.Binds place)
        (hc' : c.isNode .binaryExpr = true) :
        ∃ m, c.precedence? = some m ∧ place ≤ placeOf m := by
      have hyranked := Placed.ranked_of_mem hbelow hc
      rw [hy, Sketch.rankedAll_cons] at hyranked
      exact Placed.precedence?_of_binds (hsub c hc) hc' hy hbinds hyranked.1
    refine ⟨l, start', op, r, p, hsplit, hp, hl.1, hr.1, fun c hc => ?_, fun c hc hc' => ?_,
      fun c hc hc' => ?_⟩
    · rcases List.mem_append.1 hc with hc | hc
      · obtain ⟨y, hy, hbinds⟩ := hl.2 c hc
        exact ⟨Placed.isInner_of_binds hy hbinds, fun hcond =>
          le_assignmentLevel (.inl (Placed.le_of_conditionalExpr hcond hy hbinds))⟩
      · obtain ⟨y, hy, hbinds⟩ := hr.2 c hc
        exact ⟨Placed.isInner_of_binds hy hbinds, fun hcond =>
          le_assignmentLevel (.inr (Placed.le_of_conditionalExpr hcond hy hbinds))⟩
    · obtain ⟨y, hy, hbinds⟩ := hl.2 c hc
      obtain ⟨m, hm, hle⟩ := operand (hmem c (by simp [hc])) hy hbinds hc'
      exact ⟨m, hm, le_of_leftPlace hle⟩
    · obtain ⟨y, hy, hbinds⟩ := hr.2 c hc
      obtain ⟨m, hm, hle⟩ := operand (hmem c (by simp [hc])) hy hbinds hc'
      exact ⟨m, hm, lt_of_rightPlace hle⟩

/-- The last operand is missing, and what stands before it is the left one of the last operator. -/
theorem operators_respect_precedence_unfinished :
    let t : Text := "int f(void) \x7b return a - b * c - ; \x7d".toList
    (parse t).errors ≠ [] ∧
      ∃ s ∈ (parse t).root.sites, s.node.isNode .binaryExpr = true ∧
        s.node.children.any (·.isNode .binaryExpr) = true ∧ s.node.RespectsPrecedence := by
  intro t
  have hsite : (parse t).root.sites.any (fun s => s.node.isNode .binaryExpr &&
      s.node.children.any (·.isNode .binaryExpr)) = true := by
    decide +kernel
  obtain ⟨s, hs, hnode⟩ := List.any_eq_true.1 hsite
  obtain ⟨hbinary, hoperand⟩ := (Bool.and_eq_true _ _).mp hnode
  exact ⟨by decide +kernel, s, hs, hbinary, hoperand,
    operators_respect_precedence t s hs hbinary⟩

end Whittle
