import Mathlib.Data.List.Induction
import Whittle.Proofs.Grammar.Labels
import Whittle.Proofs.Name.Sketched
import Whittle.Proofs.Removal.Safety

/-!
# Labels before the end of their block

The labels that a check counts are those that end with a colon or with attributes. In a text without
errors they are there just if some label stands directly before the closing brace of its block.

* `Site.isEndLabel`: whether nothing but attributes stands between a label and a closing brace.
* `Placed.Tight`: whether no label of a tree ends with trivia, as in a text without errors.
* `Site.Labelled.isEndLabel`: a label that stands before nothing has a closing brace after it.
* `endLabels_eq_nil_iff`: labels are counted just if one of them stands before a brace.
* `applied_keeps_labels`: **a removal strips no label in a program that has none before a brace.**
* `removal_strips_label`: in other programs a removal may strip a label.
-/

namespace Whittle

open Grammar Sketch

/-! ### Labels and what comes after them -/

namespace Placed

/-- Whether a node is a label without anything to stand before: its last part is the colon, apart
from trivia and attributes. -/
def isBareLabel (t : Placed) : Bool :=
  (t.isNode .labeledStmt || t.isNode .caseStmt) &&
    (t.children.reverse.find? fun c => !c.isTrivia && !c.isNode .attr).any (·.isToken .colon)

end Placed

namespace Site

/-- The parts of the tree after a node, in the order of the text. -/
def following (s : Site) : List Placed := s.above.flatMap (·.after)

/-- The token that comes next after a node, apart from trivia. -/
def nextToken? (s : Site) : Option Leaf :=
  (Placed.leavesAll s.following).find? (!·.token.isTrivia)

/-- Whether nothing but attributes stands between a label and a closing brace. -/
def isEndLabel (s : Site) : Bool :=
  s.node.isBareLabel && s.nextToken?.any (·.token.kind = .closeBrace)

end Site

/-! ### Labels in sketches -/

theorem Sketch.lastKindOf?_append {k : TokenKind} (xs : List Sketch) {ys : List Sketch}
    (h : lastKindOf? ys = some k) : lastKindOf? (xs ++ ys) = some k := by
  rcases ys.eq_nil_or_concat with rfl | ⟨zs, z, rfl⟩
  · simp [lastKindOf?] at h
  · rw [List.concat_eq_append] at h ⊢
    rwa [← List.append_assoc, lastKindOf?_concat, ← lastKindOf?_concat zs]

namespace Placed

variable {names : List Text} {t : Placed} {ts : List Placed}

theorem lastTokenOf?_concat (ts : List Placed) (t : Placed) :
    lastTokenOf? (ts ++ [t]) = t.lastToken? := by
  induction ts with
  | nil => rw [List.nil_append, lastTokenOf?]
  | cons u us ih =>
    cases us with
    | nil => exact ih
    | cons v vs => exact ih

/-- A part that is no trivia has one sketch, of the same kind. -/
theorem exists_sketch (names : List Text) (h : t.isTrivia = false) :
    ∃ x, t.sketch names = [x] ∧ (∀ k, x.isNode k = t.isNode k) ∧
      ∀ k, x.isSymbol k = t.isToken k := by
  cases t with
  | token start u =>
    refine ⟨.leaf (.ofToken names u), ?_, fun k => ?_, fun k => ?_⟩
    · have hu : u.isTrivia = false := h
      rw [sketch, Token.sketch, if_neg (by simp [hu])]
    · simp [Sketch.isNode, Placed.isNode, Placed.kind]
    · exact decide_eq_decide.2 (by simp [Symbol.ofToken, Placed.kind])
  | node start k ts =>
    refine ⟨.node k (sketchAll names ts), by rw [sketch], fun k' => ?_, fun k' => ?_⟩
    · simp [Sketch.isNode, Placed.isNode, Placed.kind]
    · simp [Sketch.isSymbol, Placed.isToken, Placed.kind]

theorem exists_of_sketch_eq_node {k : NodeKind} {xs : List Sketch}
    (h : t.sketch names = [.node k xs]) :
    ∃ start ts, t = .node start k ts ∧ sketchAll names ts = xs := by
  cases t with
  | token start u =>
    rw [sketch, Token.sketch] at h
    split at h <;> cases h
  | node start k' ts =>
    rw [sketch] at h
    obtain ⟨rfl, rfl⟩ := Sketch.node.inj (List.singleton_inj.1 h)
    exact ⟨start, ts, rfl, rfl⟩

theorem isBare_sketchAll (names : List Text) (ts : List Placed) :
    isBare (sketchAll names ts) =
      (ts.reverse.find? fun c => !c.isTrivia && !c.isNode .attr).any (·.isToken .colon) := by
  unfold isBare
  induction ts using List.reverseRecOn with
  | nil => simp
  | append_singleton ts t ih =>
    rw [sketchAll_append, sketchAll_cons, sketchAll_nil, List.append_nil]
    cases htrivia : t.isTrivia with
    | true => simp [sketch_of_isTrivia names htrivia, htrivia, ih]
    | false =>
      obtain ⟨x, hx, hnode, hsymbol⟩ := exists_sketch names htrivia
      cases hattr : t.isNode .attr with
      | true => simp [hx, hnode, htrivia, hattr, ih]
      | false => simp [hx, hnode, hsymbol, htrivia, hattr]

theorem isNode_label_iff {start : Nat} {k : NodeKind} :
    ((node start k ts).isNode .labeledStmt || (node start k ts).isNode .caseStmt) = k.isLabel := by
  simp [isNode, kind, NodeKind.isLabel]

/-- Only tokens stand after the last node below a node. -/
theorem split_nodes {start : Nat} {k : NodeKind} {c : Placed}
    (h : (node start k ts).nodes.getLast? = some c) :
    ∃ l r, ts = l ++ c :: r ∧ ∀ u ∈ r, u.isInner = false := by
  rw [nodes, children] at h
  induction ts using List.reverseRecOn with
  | nil => simp at h
  | append_singleton ts t ih =>
    cases t with
    | token start' u =>
      obtain ⟨l, r, rfl, hr⟩ := ih (by simpa [List.filter_append] using h)
      refine ⟨l, r ++ [.token start' u], by simp, fun v hv => ?_⟩
      rcases List.mem_append.1 hv with hv | hv
      · exact hr v hv
      · rw [List.mem_singleton.1 hv]
        rfl
    | node start' k' us =>
      obtain rfl : node start' k' us = c := by simpa [List.filter_append] using h
      exact ⟨ts, [], rfl, by simp⟩

mutual

theorem symbols_sketch (names : List Text) (t : Placed) :
    symbolsAll (t.sketch names) =
      (t.leaves.filter (!·.token.isTrivia)).map fun l => .ofToken names l.token := by
  cases t with
  | token start u =>
    rw [sketch, Token.sketch, leaves_token]
    cases h : u.isTrivia <;> simp [h]
  | node start k ts => simp [sketch, symbols_sketchAll names ts]

/-- The symbols of some sketches are those of their significant tokens. -/
theorem symbols_sketchAll (names : List Text) (ts : List Placed) :
    symbolsAll (sketchAll names ts) =
      ((leavesAll ts).filter (!·.token.isTrivia)).map fun l => .ofToken names l.token := by
  cases ts with
  | nil => simp
  | cons t ts => simp [symbols_sketch names t, symbols_sketchAll names ts]

end

mutual

theorem lastKind?_sketch (names : List Text) (t : Placed) {l : Leaf} (h : t.lastToken? = some l)
    (hl : l.token.isTrivia = false) :
    ∃ x, t.sketch names = [x] ∧ x.lastKind? = some l.token.kind := by
  cases t with
  | token start u =>
    rw [lastToken?, Option.some.injEq] at h
    subst h
    exact ⟨.leaf (.ofToken names u), by simpa [sketch, Token.sketch] using hl, by
      simp [lastKind?, Symbol.ofToken]⟩
  | node start k ts =>
    rw [lastToken?] at h
    exact ⟨.node k (sketchAll names ts), by rw [sketch], by
      rw [lastKind?]; exact lastKindOf?_sketchAll names ts h hl⟩

/-- The last of some parts ends with the kind of token that they end with. -/
theorem lastKindOf?_sketchAll (names : List Text) (ts : List Placed) {l : Leaf}
    (h : lastTokenOf? ts = some l) (hl : l.token.isTrivia = false) :
    lastKindOf? (sketchAll names ts) = some l.token.kind := by
  match ts with
  | [] => simp [lastTokenOf?] at h
  | [t] =>
    rw [lastTokenOf?] at h
    obtain ⟨x, hx, hlast⟩ := lastKind?_sketch names t h hl
    rw [sketchAll_cons, sketchAll_nil, List.append_nil, hx]
    exact hlast
  | t :: u :: ts =>
    have hlast := lastKindOf?_sketchAll names (u :: ts) h hl
    rw [sketchAll_cons]
    exact lastKindOf?_append _ hlast

end

end Placed

/-! ### Labels do not end with trivia -/

namespace Tree

mutual

/-- Whether no label of a tree ends with trivia. -/
def Tight : Tree → Prop
  | .token _ => True
  | .node k children =>
    (k.isLabel = true → ∀ t, children.getLast? = some t → t.isTrivia = false) ∧ TightAll children

/-- Whether no label of some trees ends with trivia. -/
def TightAll : List Tree → Prop
  | [] => True
  | t :: ts => t.Tight ∧ TightAll ts

end

theorem tightAll_append {ts us : List Tree} : TightAll (ts ++ us) ↔ TightAll ts ∧ TightAll us := by
  induction ts with
  | nil => simp [TightAll]
  | cons t ts ih => simp [TightAll, ih, and_assoc]

theorem tightAll_map_token (ts : List Token) : TightAll (ts.map .token) := by
  induction ts with
  | nil => simp [TightAll]
  | cons t ts ih => simp [TightAll, Tight, ih]

end Tree

namespace Placed

mutual

/-- Whether no label of a placed tree ends with trivia. -/
def Tight : Placed → Prop
  | .token _ _ => True
  | .node _ k children =>
    (k.isLabel = true → ∀ t, children.getLast? = some t → t.isTrivia = false) ∧ TightAll children

/-- Whether no label of some placed trees ends with trivia. -/
def TightAll : List Placed → Prop
  | [] => True
  | t :: ts => t.Tight ∧ TightAll ts

end

theorem TightAll.of_mem {c : Placed} {ts : List Placed} (h : TightAll ts) (hc : c ∈ ts) :
    c.Tight := by
  induction ts with
  | nil => cases hc
  | cons t ts ih =>
    rw [TightAll] at h
    obtain rfl | hc := List.mem_cons.1 hc
    · exact h.1
    · exact ih h.2 hc

end Placed

namespace Tree

theorem isTrivia_place (start : Nat) (t : Tree) : (t.place start).isTrivia = t.isTrivia := by
  cases t with
  | token t => rw [place]; rfl
  | node k ts => rw [place]; rfl

theorem getLast?_placeAll (start : Nat) (ts : List Tree) :
    ∀ c, (placeAll start ts).getLast? = some c →
      ∃ start' t, ts.getLast? = some t ∧ c = t.place start' := by
  induction ts generalizing start with
  | nil => simp [placeAll]
  | cons t ts ih =>
    intro c hc
    cases ts with
    | nil => exact ⟨start, t, rfl, by simpa [placeAll, eq_comm] using hc⟩
    | cons u us =>
      rw [placeAll, placeAll, List.getLast?_cons_cons, ← placeAll] at hc
      rw [List.getLast?_cons_cons]
      exact ih _ c hc

mutual

theorem tight_place (start : Nat) (t : Tree) (h : t.Tight) : (t.place start).Tight := by
  cases t with
  | token t => simp [place, Placed.Tight]
  | node k ts =>
    rw [Tight] at h
    rw [place, Placed.Tight]
    refine ⟨fun hk c hc => ?_, tightAll_placeAll start ts h.2⟩
    obtain ⟨start', t, ht, rfl⟩ := getLast?_placeAll start ts c hc
    rw [isTrivia_place]
    exact h.1 hk t ht

theorem tightAll_placeAll (start : Nat) (ts : List Tree) (h : TightAll ts) :
    Placed.TightAll (placeAll start ts) := by
  cases ts with
  | nil => simp [placeAll, Placed.TightAll]
  | cons t ts =>
    rw [TightAll] at h
    rw [placeAll, Placed.TightAll]
    exact ⟨tight_place start t h.1, tightAll_placeAll _ ts h.2⟩

end

end Tree

namespace Skeleton

/-- Whether some trees end with one that is no trivia. -/
def EndsClear (ts : List Tree) : Prop := ∃ t, ts.getLast? = some t ∧ t.isTrivia = false

variable (names : List Text)

mutual

theorem tight_weave (s : Skeleton) (ts : List Token) (rest : List Symbol)
    (h : (Token.significant ts).map (.ofToken names) = s.symbols ++ rest) (hs : s.Tight) :
    Tree.TightAll (s.weave ts).1 ∧ (s ≠ .slot → EndsClear (s.weave ts).1) := by
  cases s with
  | leaf symbol =>
    rw [← Token.significant_dropWhile] at h
    rw [weave]
    refine ⟨Tree.tightAll_map_token _, fun _ => ?_⟩
    -- what is left after the trivia starts with the token of the leaf
    cases hd : ts.dropWhile (·.isTrivia) with
    | nil => simp [hd, symbols] at h
    | cons t us =>
      have ht : t.isTrivia = false := by
        have := List.head?_dropWhile_not (·.isTrivia) ts
        simpa [hd] using this
      exact ⟨.token t, by simp, ht⟩
  | slot =>
    rw [weave]
    exact ⟨Tree.tightAll_map_token _, fun hne => absurd rfl hne⟩
  | node k ss =>
    rw [symbols] at h
    obtain ⟨hlast, hss⟩ := tight_node.1 hs
    obtain ⟨htight, hends⟩ := tight_weaveAll ss ts rest h hss
    rw [weave]
    refine ⟨?_, fun _ => ⟨_, rfl, rfl⟩⟩
    simp only [Tree.TightAll, Tree.Tight, and_true]
    refine ⟨fun hk t ht => ?_, htight⟩
    rcases ss.eq_nil_or_concat with rfl | ⟨ss, x, rfl⟩
    · simp [weaveAll] at ht
    · obtain ⟨u, hu, hclear⟩ := hends x (by simp) fun hslot => hlast hk (by simp [hslot])
      obtain rfl := Option.some.inj (hu.symm.trans ht)
      exact hclear

/-- **Weaving tokens into tight skeletons gives tight trees.** -/
theorem tight_weaveAll (ss : List Skeleton) (ts : List Token) (rest : List Symbol)
    (h : (Token.significant ts).map (.ofToken names) = symbolsAll ss ++ rest) (hss : TightAll ss) :
    Tree.TightAll (weaveAll ss ts).1 ∧
      ∀ s, ss.getLast? = some s → s ≠ .slot → EndsClear (weaveAll ss ts).1 := by
  cases ss with
  | nil => exact ⟨by simp [weaveAll, Tree.TightAll], by simp⟩
  | cons s ss =>
    rw [symbolsAll, List.append_assoc] at h
    obtain ⟨hs, hss⟩ := tightAll_cons.1 hss
    obtain ⟨hfirst, hclear⟩ := tight_weave s ts _ h hs
    have hrest := (sketch_weave names s ts _ h).2
    obtain ⟨htrees, hends⟩ := tight_weaveAll ss (s.weave ts).2 rest hrest hss
    rw [weaveAll]
    refine ⟨Tree.tightAll_append.2 ⟨hfirst, htrees⟩, fun x hx hslot => ?_⟩
    cases ss with
    | nil =>
      obtain rfl : s = x := by simpa using hx
      simpa [weaveAll] using hclear hslot
    | cons u us =>
      obtain ⟨t, ht, hclear⟩ := hends x (by rwa [List.getLast?_cons_cons] at hx) hslot
      exact ⟨t, by rw [List.getLast?_append, ht]; rfl, hclear⟩

end

end Skeleton

/-! ### Labels of a text without errors -/

theorem mem_sketchAll {names : List Text} {x : Sketch} {ts : List Placed}
    (h : x ∈ Placed.sketchAll names ts) : ∃ t ∈ ts, t.sketch names = [x] := by
  induction ts with
  | nil => simp at h
  | cons t ts ih =>
    rw [Placed.sketchAll_cons, List.mem_append] at h
    rcases h with hx | hx
    · cases htrivia : t.isTrivia with
      | true => simp [Placed.sketch_of_isTrivia names htrivia] at hx
      | false =>
        obtain ⟨y, hy, -⟩ := Placed.exists_sketch names htrivia
        rw [hy, List.mem_singleton] at hx
        exact ⟨t, by simp, hx ▸ hy⟩
    · obtain ⟨u, hu, hsketch⟩ := ih hx
      exact ⟨u, by simp [hu], hsketch⟩

namespace Site

variable {t : Text} {s c : Site} {names : List Text}

/-- What is known of labels at a site of a text without errors. -/
structure Labelled (names : List Text) (s : Site) : Prop where
  tight : s.node.Tight
  braced : ∃ k xs inBlock, s.node.sketch names = [.node k xs] ∧
    (Sketch.node k xs).Braced inBlock (symbolsAll (Placed.sketchAll names s.following)) ∧
    (inBlock = true → symbolsAll (Placed.sketchAll names s.following) ≠ [])

/-- What is known of labels goes down to the parts of a node. -/
theorem Labelled.child (h : s.Labelled names) (hparent : c.parent? = some s)
    (hinner : c.node.isInner = true) : c.Labelled names := by
  obtain ⟨start, k, l, r, hnode, habove⟩ := parent?_eq_some.1 hparent
  obtain ⟨htight, k', xs, inBlock, hsketch, hbraced, hrest⟩ := h
  have hfollowing : c.following = r ++ s.following := by
    rw [following, following, habove, List.flatMap_cons]
  cases hc : c.node with
  | token start' u => simp [hc, Placed.isInner] at hinner
  | node start' kc ts =>
    rw [hnode, Placed.sketch, Placed.sketchAll_append, Placed.sketchAll_cons, hc,
      Placed.sketch] at hsketch
    obtain ⟨rfl, rfl⟩ := Sketch.node.inj (List.singleton_inj.1 hsketch)
    obtain ⟨-, hcompound, hparts⟩ := by simpa only [Braced] using hbraced
    rw [bracedAll_append, List.singleton_append, bracedAll_cons] at hparts
    refine ⟨?_, kc, Placed.sketchAll names ts, inBlock || k = .compoundStmt,
      by rw [hc, Placed.sketch], ?_, fun hblock => ?_⟩
    · rw [hnode, Placed.Tight] at htight
      exact htight.2.of_mem (by simp)
    · rw [hfollowing, Placed.sketchAll_append, symbolsAll_append]
      exact hparts.2.1
    · rw [hfollowing, Placed.sketchAll_append, symbolsAll_append]
      rw [Bool.or_eq_true, decide_eq_true_eq] at hblock
      rcases hblock with hblock | hblock
      · exact List.append_ne_nil_of_right_ne_nil _ (hrest hblock)
      · -- the block ends with a symbol of its own
        obtain ⟨ys, y, hys⟩ := hcompound hblock
        refine List.append_ne_nil_of_left_ne_nil ?_ _
        rcases (Placed.sketchAll names r).eq_nil_or_concat with hr | ⟨zs, z, hr⟩
        · rw [hr, List.append_nil] at hys
          cases (List.append_inj_right' hys rfl)
        · rw [hr, List.concat_eq_append, ← List.append_assoc, ← List.append_assoc] at hys
          obtain ⟨rfl⟩ := List.singleton_inj.1 (List.append_inj_right' hys rfl)
          simp [hr]

theorem labelled_of_mem (h : (parse t).errors = []) (hs : s ∈ (parse t).root.sites) :
    s.Labelled (spellings t) := by
  have hfaults : faults (Symbol.ofTokens (Token.significant (tokens t))) = [] :=
    List.map_eq_nil_iff.1 h
  refine Placed.sites_induction (fun s c => Labelled.child) (fun _ => ⟨?_, ?_⟩) s hs
  · have hsymbols : (Token.significant (tokens t)).map (.ofToken (spellings t)) =
        Skeleton.symbolsAll (skeletons (Symbol.ofTokens (Token.significant (tokens t)))) ++ [] := by
      rw [symbols_skeletons, List.append_nil]
      rfl
    have htight := (Skeleton.tight_weaveAll (spellings t) _ _ [] hsymbols
      (tight_skeletons hfaults)).1
    refine Tree.tight_place 0 (.node .root _) ?_
    rw [Tree.Tight]
    exact ⟨by simp [NodeKind.isLabel], htight⟩
  · refine ⟨.root, _, false, sketch_root t, ?_, by simp⟩
    rw [Braced]
    refine ⟨by simp [NodeKind.isLabel], by simp, ?_⟩
    simpa [following] using braced_skeletons hfaults

theorem isBareLabel_node {start : Nat} {k : NodeKind} {ts : List Placed} (names : List Text) :
    (Placed.node start k ts).isBareLabel = (k.isLabel && isBare (Placed.sketchAll names ts)) := by
  rw [Placed.isBareLabel, Placed.isNode_label_iff, Placed.isBare_sketchAll]
  rfl

/-- **A label without anything to stand before has a closing brace after it.** -/
theorem Labelled.isEndLabel (h : s.Labelled names) (hbare : s.node.isBareLabel = true) :
    s.isEndLabel = true := by
  obtain ⟨-, k, xs, inBlock, hsketch, hbraced, hrest⟩ := h
  obtain ⟨start, ts, hnode, rfl⟩ := Placed.exists_of_sketch_eq_node hsketch
  rw [Site.isEndLabel, hbare, Bool.true_and]
  rw [hnode, isBareLabel_node names, Bool.and_eq_true] at hbare
  rw [Braced] at hbraced
  obtain ⟨hblock, hparts⟩ := hbraced.1 hbare.1
  -- the block has not ended yet, so there is a symbol after the label
  obtain ⟨y, ys, hy⟩ := List.exists_cons_of_ne_nil (hrest hblock)
  have hkind := hparts.closeBrace hbare.2 (y := y) (by rw [hy]; rfl)
  rw [Placed.symbols_sketchAll] at hy
  obtain ⟨l, ls, hl, rfl, -⟩ := List.map_eq_cons_iff.1 hy
  have hnext : s.nextToken? = some l := by
    rw [nextToken?, ← List.head?_filter, hl]
    rfl
  rw [hnext]
  simpa [Symbol.ofToken] using hkind

/-- **A label without anything to stand before is counted.** -/
theorem Labelled.isDanglingLabel (h : s.Labelled names) (hbare : s.node.isBareLabel = true) :
    s.node.isDanglingLabel = true := by
  have htight := h.tight
  cases hnode : s.node with
  | token start u => simp [hnode, Placed.isBareLabel, Placed.isNode, Placed.kind] at hbare
  | node start k ts =>
    rw [hnode, Placed.Tight] at htight
    rw [hnode, Placed.isBareLabel, Bool.and_eq_true] at hbare
    obtain ⟨hlabel, hcolon⟩ := hbare
    rw [Placed.isDanglingLabel, hlabel, Bool.true_and, Bool.or_eq_true]
    rw [Placed.isNode_label_iff] at hlabel
    rcases ts.eq_nil_or_concat with rfl | ⟨us, u, rfl⟩
    · simp [Placed.children] at hcolon
    rw [List.concat_eq_append] at htight hcolon ⊢
    -- the last part is no trivia, so it is an attribute or the colon
    have htrivia := htight.1 hlabel u (by simp)
    cases hattr : u.isNode .attr with
    | true =>
      right
      cases u with
      | token start' v => simp [Placed.isNode, Placed.kind] at hattr
      | node start' k' vs => simp [Placed.nodes, Placed.children, List.filter_append, hattr]
    | false =>
      left
      simp only [Placed.children, List.reverse_append, List.reverse_cons, List.reverse_nil,
        List.nil_append, List.singleton_append, List.find?_cons, htrivia, hattr, Bool.not_false,
        Bool.and_self, Option.any_some] at hcolon
      rw [Placed.lastToken?, Placed.lastTokenOf?_concat]
      cases u with
      | token start' v => simpa [Placed.lastToken?, Placed.isToken, Placed.kind] using hcolon
      | node start' k' vs => simp [Placed.isToken, Placed.kind] at hcolon

/-- A label without anything to stand before in a sketch is one in the tree. -/
theorem exists_isBareLabel {x : Sketch} (h : x.HasBare) : ∀ s : Site,
    s.node.sketch names = [x] → ∃ u ∈ s.subsites, u.node.isBareLabel = true := by
  induction h with
  | @self k xs hk hbare =>
    intro s hs
    obtain ⟨start, ts, hnode, rfl⟩ := Placed.exists_of_sketch_eq_node hs
    refine ⟨s, mem_subsites_self (by rw [hnode]; rfl), ?_⟩
    rw [hnode, isBareLabel_node names, hk, hbare]
    rfl
  | @part k xs x hx _ ih =>
    intro s hs
    obtain ⟨start, ts, hnode, rfl⟩ := Placed.exists_of_sketch_eq_node hs
    obtain ⟨c, hc, hsketch⟩ := mem_sketchAll hx
    obtain ⟨l, r, hsplit⟩ := List.append_of_mem hc
    obtain ⟨L, X, R, hchildren, -, rfl, -⟩ := children_split (s := s) (by rw [hnode]; exact hsplit)
    obtain ⟨u, hu, hbare⟩ := ih X hsketch
    have hparent : X.parent? = some s := mem_children.1 (by simp [hchildren])
    exact ⟨u, subsites_subset_of_parent? hparent hu, hbare⟩

/-- **At or below a counted label there is one without anything to stand before.** -/
theorem Labelled.exists_isBareLabel (h : s.Labelled names)
    (hcounted : s.node.isDanglingLabel = true) :
    ∃ u ∈ s.subsites, u.node.isBareLabel = true := by
  obtain ⟨-, k, xs, inBlock, hsketch, hbraced, -⟩ := h
  obtain ⟨start, ts, hnode, rfl⟩ := Placed.exists_of_sketch_eq_node hsketch
  rw [hnode, Placed.isDanglingLabel, Placed.isNode_label_iff, Bool.and_eq_true,
    Bool.or_eq_true] at hcounted
  obtain ⟨hlabel, hlast⟩ := hcounted
  rw [Braced] at hbraced
  refine Site.exists_isBareLabel ((hbraced.1 hlabel).2.hasBare hlabel ?_) s hsketch
  rcases hlast with hcolon | hattr
  · left
    cases hl : (Placed.node start k ts).lastToken? with
    | none => simp [hl] at hcolon
    | some l =>
      have hkind : l.token.kind = .colon := by simpa [hl] using hcolon
      have htrivia : l.token.isTrivia = false := by rw [Token.isTrivia, hkind]; rfl
      obtain ⟨x, hx, hlast⟩ := Placed.lastKind?_sketch names _ hl htrivia
      rw [Placed.sketch] at hx
      rw [List.singleton_inj.1 hx, hlast, hkind]
  · right
    cases hc : (Placed.node start k ts).nodes.getLast? with
    | none => simp [hc] at hattr
    | some c =>
      have hlast : c.isNode .attr = true := by simpa [hc] using hattr
      obtain ⟨l, r, rfl, hr⟩ := Placed.split_nodes hc
      cases c with
      | token start' v => simp [Placed.isNode, Placed.kind] at hlast
      | node start' k' vs =>
        obtain rfl := Placed.isNode_node.1 hlast
        refine ⟨Placed.sketchAll names l, Placed.sketchAll names vs, Placed.sketchAll names r, ?_,
          fun z hz => ?_⟩
        · rw [Placed.sketchAll_append, Placed.sketchAll_cons, Placed.sketch, List.singleton_append]
        · obtain ⟨u, hu, hz⟩ := mem_sketchAll hz
          cases u with
          | token start'' w =>
            rw [Placed.sketch, Token.sketch] at hz
            split at hz
            · cases hz
            · exact ⟨_, (List.singleton_inj.1 hz).symm⟩
          | node start'' k'' ws => cases hr _ hu

end Site

/-! ### Labels after removals -/

/-- The labels of a tree with nothing but attributes between them and a closing brace. -/
def Placed.endLabels (root : Placed) : List Site := root.sites.filter (·.isEndLabel)

section

variable {t : Text}

/-- A label before a brace is counted. -/
theorem length_endLabels_le (h : (parse t).errors = []) :
    (parse t).root.endLabels.length ≤ (parse t).root.danglingLabels.length := by
  rw [Placed.danglingLabels, List.length_map, Placed.endLabels, ← List.countP_eq_length_filter,
    ← List.countP_eq_length_filter]
  refine List.countP_mono_left fun s hs hend => ?_
  exact (Site.labelled_of_mem h hs).isDanglingLabel (Bool.and_eq_true_iff.1 hend).1

/-- Labels are counted just if one stands before a brace. -/
theorem endLabels_eq_nil_iff (h : (parse t).errors = []) :
    (parse t).root.endLabels = [] ↔ (parse t).root.danglingLabels = [] := by
  constructor
  · intro hnone
    rw [Placed.danglingLabels, List.map_eq_nil_iff, List.filter_eq_nil_iff]
    intro s hs hcounted
    obtain ⟨u, hu, hbare⟩ := (Site.labelled_of_mem h hs).exists_isBareLabel hcounted
    have humem := Site.mem_sites_of_mem_subsites hs hu
    have hend := (Site.labelled_of_mem h humem).isEndLabel hbare
    exact List.filter_eq_nil_iff.1 hnone u humem hend
  · intro hnone
    have hle := length_endLabels_le h
    rw [hnone] at hle
    exact List.length_eq_zero_iff.1 (Nat.le_zero.1 hle)

end

/-- **A removal strips no label of what it stands before, in a program where no label stands before a
closing brace.** In any program, the edited text has no more such labels than are counted before the
edit, and a label that stands before nothing is one of them. -/
theorem applied_keeps_labels {p : Program} {counter : Counter} {out : Text}
    (h : removeUnused p (.apply counter) = .applied out) :
    (p.root.endLabels = [] → (parse out).root.endLabels = []) ∧
      (parse out).root.endLabels.length ≤ p.root.danglingLabels.length ∧
      ∀ s ∈ (parse out).root.sites, s.node.isBareLabel = true → s.isEndLabel = true := by
  obtain ⟨target, group, -, -, hwithout⟩ := without_of_applied h
  obtain ⟨range, patch, -, -, -, hcheck⟩ := Program.exists_of_without hwithout
  obtain ⟨herrors, hcount⟩ := checkEdit_eq_ok.1 hcheck
  have hbefore := p.errors_eq_nil
  refine ⟨fun hnone => ?_, Nat.le_trans (length_endLabels_le herrors) hcount,
    fun s hs => (Site.labelled_of_mem herrors hs).isEndLabel⟩
  rw [p.root_eq] at hnone hcount
  rw [endLabels_eq_nil_iff hbefore] at hnone
  rw [hnone, List.length_nil, Nat.le_zero] at hcount
  exact (endLabels_eq_nil_iff herrors).2 (List.length_eq_zero_iff.1 hcount)

/-- A label before a statement keeps it. -/
theorem applied_keeps_labels_statement :
    let p := Program.ofText "void f(void)\x7bint a; l: ;\x7d".toList (by decide +kernel)
    let out := "void f(void)\x7b l: ;\x7d".toList
    removeUnused p (.apply ⟨1, by decide⟩) = .applied out ∧ p.root.endLabels = [] ∧
      (parse out).root.endLabels = [] := by
  intro p out
  have happlied : removeUnused p (.apply ⟨1, by decide⟩) = .applied out :=
    Outcome.eq_applied_of_output? (by decide +kernel)
  have hnone : p.root.endLabels = [] := List.isEmpty_iff.1 (by decide +kernel)
  exact ⟨happlied, hnone, (applied_keeps_labels happlied).1 hnone⟩

/-- **A removal may strip a label** where another one is removed with the declaration, since only
their number is compared. The label `l` loses its declaration, which `m` stood in. -/
theorem removal_strips_label :
    let p := Program.ofText "void f(void)\x7bl: int x = (\x7bm:\x7d);\x7d".toList (by decide +kernel)
    let out := "void f(void)\x7bl:\x7d".toList
    removeUnused p (.apply ⟨1, by decide⟩) = .applied out ∧
      p.root.endLabels.map (·.node.span) = [⟨26, 28⟩] ∧
      (parse out).root.endLabels.map (·.node.span) = [⟨13, 15⟩] := by
  intro p out
  exact ⟨Outcome.eq_applied_of_output? (by decide +kernel), by decide +kernel, by decide +kernel⟩

end Whittle
