import Whittle.Proofs.Declaration.Layout
import Whittle.Proofs.Grammar.Trailing

/-!
# Where nodes begin and end

In a text without errors trivia lie between the children of nodes and not around them. There is one
exception: in the head of a `for` statement a comma may come last in a declaration, and then the
trivia behind it belong to the declaration.

* `Placed.Neat`: the nodes of a part end with significant tokens, with this exception.
* `Skeleton.neat_weaveAll`: **weaving tokens into neat skeletons gives neat trees.**
* `nodes_exclude_trivia`: **the nodes of a text without errors begin and end with significant
  tokens**, with this exception.
-/

namespace Whittle

open Grammar

/-! ### Neat trees -/

namespace Placed

/-- Whether some parts do not end with trivia. -/
def EndSolid (ts : List Placed) : Prop :=
  ∀ l, (leavesAll ts).getLast? = some l → l.token.isTrivia = false

/-- Whether an empty member of a declaration comes last, with trivia between it and a comma. -/
def Dangling (ts : List Placed) : Prop :=
  ∃ before start comma gap member, ts = before ++ .token start comma :: (gap ++ [member]) ∧
    comma.kind = .comma ∧ gap ≠ [] ∧ (∀ g ∈ gap, g.isTrivia = true) ∧
    member.isNode .initDeclarator = true ∧ member.leaves = []

mutual

/-- Whether the nodes of a part do not end with trivia. In the head of a `for` statement an empty
member of a declaration may come last. -/
def Neat (inFor : Bool) : Placed → Prop
  | .token _ _ => True
  | .node _ kind children =>
    (EndSolid children ∨ inFor = true ∧ kind = .declGroup ∧ Dangling children) ∧
      NeatAll (kind = .forStmt) children

/-- Whether the nodes of some parts do not end with trivia. -/
def NeatAll (inFor : Bool) : List Placed → Prop
  | [] => True
  | t :: ts => t.Neat inFor ∧ NeatAll inFor ts

end

variable {b : Bool} {t : Placed} {ts us : List Placed}

@[simp] theorem neat_token {start : Nat} {k : Token} : (token start k).Neat b := by simp [Neat]

@[simp] theorem neat_node {start : Nat} {kind : NodeKind} : (node start kind ts).Neat b ↔
    (EndSolid ts ∨ b = true ∧ kind = .declGroup ∧ Dangling ts) ∧ NeatAll (kind = .forStmt) ts := by
  rw [Neat]

@[simp] theorem neatAll_nil : NeatAll b [] := by simp [NeatAll]

@[simp] theorem neatAll_cons : NeatAll b (t :: ts) ↔ t.Neat b ∧ NeatAll b ts := by rw [NeatAll]

@[simp] theorem neatAll_append : NeatAll b (ts ++ us) ↔ NeatAll b ts ∧ NeatAll b us := by
  induction ts with
  | nil => simp
  | cons t ts ih => simp [ih, and_assoc]

theorem NeatAll.of_mem (h : NeatAll b ts) (ht : t ∈ ts) : t.Neat b := by
  obtain ⟨l, r, rfl⟩ := List.append_of_mem ht
  rw [neatAll_append, neatAll_cons] at h
  exact h.2.1

end Placed

/-! ### What is woven last -/

namespace Tree

/-- Tokens stay tokens where they are placed. -/
theorem exists_of_mem_placeAll_map {start : Nat} {ts : List Token} {p : Placed}
    (h : p ∈ placeAll start (ts.map .token)) : ∃ at₀, ∃ t ∈ ts, p = .token at₀ t := by
  induction ts generalizing start with
  | nil => simp [placeAll] at h
  | cons t ts ih =>
    rw [List.map_cons, placeAll, List.mem_cons] at h
    obtain rfl | h := h
    · exact ⟨start, t, List.mem_cons_self, by rw [place]⟩
    · obtain ⟨at₀, u, hu, rfl⟩ := ih h
      exact ⟨at₀, u, List.mem_cons_of_mem _ hu, rfl⟩

end Tree

namespace Skeleton

open Token

theorem weaveAll_append (ss rs : List Skeleton) (ts : List Token) :
    weaveAll (ss ++ rs) ts = ((weaveAll ss ts).1 ++ (weaveAll rs (weaveAll ss ts).2).1,
      (weaveAll rs (weaveAll ss ts).2).2) := by
  induction ss generalizing ts with
  | nil => simp [weaveAll]
  | cons s ss ih => simp [weaveAll, ih]

/-- A leaf takes the trivia ahead and its token, if this comes next. -/
theorem weave_leaf_eq {x : Symbol} {ts : List Token} {rest : List TokenKind}
    (h : kindsOf ts = x.kind :: rest) :
    ∃ u us, ts.dropWhile (·.isTrivia) = u :: us ∧ u.kind = x.kind ∧ u.isTrivia = false ∧
      (leaf x).weave ts = ((ts.takeWhile (·.isTrivia) ++ [u]).map .token, us) := by
  rw [kindsOf, ← significant_dropWhile] at h
  cases hd : ts.dropWhile (·.isTrivia) with
  | nil => simp [hd] at h
  | cons u us =>
    have hu : u.isTrivia = false := clearAhead_dropWhile ts u (by rw [hd]; rfl)
    rw [hd, significant_cons, hu] at h
    refine ⟨u, us, rfl, (List.cons.inj h).1, hu, ?_⟩
    simp [weave, hd]

mutual

/-- A skeleton without symbols takes nothing where the next token is significant. -/
theorem weave_of_symbols (s : Skeleton) (ts : List Token) (h : s.symbols = [])
    (hclear : ClearAhead ts) : Tree.leavesAll (s.weave ts).1 = [] ∧ (s.weave ts).2 = ts := by
  cases s with
  | leaf x => simp [symbols] at h
  | slot =>
    have hnone : ts.takeWhile (·.isTrivia) = [] ∧ ts.dropWhile (·.isTrivia) = ts := by
      cases ts with
      | nil => exact ⟨rfl, rfl⟩
      | cons t ts => simp [hclear t rfl]
    simp [weave, hnone, Tree.leavesAll]
  | node k ss =>
    rw [symbols] at h
    obtain ⟨hleaves, hrest⟩ := weaveAll_of_symbols ss ts h hclear
    simp [weave, Tree.leavesAll, Tree.leaves, hleaves, hrest]

theorem weaveAll_of_symbols (ss : List Skeleton) (ts : List Token) (h : symbolsAll ss = [])
    (hclear : ClearAhead ts) :
    Tree.leavesAll (weaveAll ss ts).1 = [] ∧ (weaveAll ss ts).2 = ts := by
  cases ss with
  | nil => simp [weaveAll, Tree.leavesAll]
  | cons s ss =>
    rw [symbolsAll, List.append_eq_nil_iff] at h
    obtain ⟨hleaves, hrest⟩ := weave_of_symbols s ts h.1 hclear
    obtain ⟨hleaves', hrest'⟩ := weaveAll_of_symbols ss ts h.2 hclear
    simp [weaveAll, hrest, hleaves, hleaves', hrest']

end

mutual

/-- What a skeleton ends with: unless the next token after it is known to be significant, this is a
significant token, or nothing is taken. -/
theorem last_weave (s : Skeleton) (clear : Bool) (ts : List Token) (rest : List TokenKind)
    (hkinds : kindsOf ts = s.symbols.map (·.kind) ++ rest) (h : s.clearAfter clear = false) :
    (clear = false ∧ Tree.leavesAll (s.weave ts).1 = []) ∨
      ∃ v, (Tree.leavesAll (s.weave ts).1).getLast? = some v ∧ v.isTrivia = false := by
  cases s with
  | leaf x =>
    have hnext : kindsOf ts = x.kind :: rest := by simpa [symbols] using hkinds
    obtain ⟨u, us, -, -, hu, hweave⟩ := weave_leaf_eq hnext
    rw [hweave, Tree.leavesAll_map_token]
    exact .inr ⟨u, by simp, hu⟩
  | slot => simp at h
  | node k ss =>
    rw [clearAfter] at h
    have hlast := last_weaveAll ss clear ts rest hkinds h
    simpa [weave, Tree.leavesAll, Tree.leaves] using hlast

theorem last_weaveAll (ss : List Skeleton) (clear : Bool) (ts : List Token) (rest : List TokenKind)
    (hkinds : kindsOf ts = (symbolsAll ss).map (·.kind) ++ rest)
    (h : clearAfterAll clear ss = false) :
    (clear = false ∧ Tree.leavesAll (weaveAll ss ts).1 = []) ∨
      ∃ v, (Tree.leavesAll (weaveAll ss ts).1).getLast? = some v ∧ v.isTrivia = false := by
  cases ss with
  | nil => exact .inl ⟨h, by simp [weaveAll, Tree.leavesAll]⟩
  | cons s ss =>
    rw [symbolsAll, List.map_append, List.append_assoc] at hkinds
    have hrest := (shapes_weave s ts _ hkinds).2
    rw [clearAfterAll] at h
    simp only [weaveAll, Tree.leavesAll_append]
    rcases last_weaveAll ss _ (s.weave ts).2 rest hrest h with ⟨hclear, hnone⟩ | ⟨v, hlast, hv⟩
    · rw [hnone, List.append_nil]
      exact last_weave s clear ts _ hkinds hclear
    · exact .inr ⟨v, by rw [List.getLast?_append, hlast, Option.some_or], hv⟩

end

theorem neatAll_tokens (b : Bool) (start : Nat) (ts : List Token) :
    Placed.NeatAll b (Tree.placeAll start (ts.map .token)) := by
  induction ts generalizing start with
  | nil => simp [Tree.placeAll]
  | cons t ts ih => simp [Tree.placeAll, Tree.place, ih]

/-- Placing trees keeps what they end with. -/
theorem endSolid_placeAll {start : Nat} {ts : List Tree}
    (h : ∀ v, (Tree.leavesAll ts).getLast? = some v → v.isTrivia = false) :
    Placed.EndSolid (Tree.placeAll start ts) := by
  intro l hl
  rw [Tree.leavesAll_placeAll] at hl
  refine h l.token ?_
  rw [← Leaf.map_token_layout start (Tree.leavesAll ts), List.getLast?_map, hl]
  rfl

/-- An empty member after a comma stays one, if there are trivia between. -/
theorem dangling_weaveAll {ss : List Skeleton} (h : Dangling ss) (start : Nat) (ts : List Token)
    (rest : List TokenKind) (hkinds : kindsOf ts = (symbolsAll ss).map (·.kind) ++ rest) :
    Placed.EndSolid (Tree.placeAll start (weaveAll ss ts).1) ∨
      Placed.Dangling (Tree.placeAll start (weaveAll ss ts).1) := by
  obtain ⟨rs, x, ms, rfl, hx, hms⟩ := h
  have hsymbols : symbolsAll (rs ++ [.leaf x, .slot, .node .initDeclarator ms]) =
      symbolsAll rs ++ [x] := by
    simp [symbolsAll, symbols, hms]
  rw [hsymbols, List.map_append, List.append_assoc] at hkinds
  obtain ⟨u, us, hdrop, hkind, hu, -⟩ :=
    weave_leaf_eq (x := x) (shapes_weaveAll rs ts _ hkinds).2
  obtain ⟨hmember, -⟩ := weaveAll_of_symbols ms _ hms (clearAhead_dropWhile us)
  -- the comma, the trivia behind it and the member, after what comes before them
  let before := (weaveAll rs ts).1 ++ ((weaveAll rs ts).2.takeWhile (·.isTrivia)).map .token
  let gap := us.takeWhile (·.isTrivia)
  let member := Tree.node .initDeclarator (weaveAll ms (us.dropWhile (·.isTrivia))).1
  have hweave : (weaveAll (rs ++ [.leaf x, .slot, .node .initDeclarator ms]) ts).1 =
      before ++ .token u :: (gap.map .token ++ [member]) := by
    rw [weaveAll_append]
    simp [weaveAll, weave, hdrop, before, gap, member]
  have hleaves : member.leaves = [] := by rw [Tree.leaves, hmember]
  rw [hweave]
  by_cases hgap : gap = []
  · refine .inl (endSolid_placeAll fun v hv => ?_)
    have hlast : v = u := by
      simpa [hgap, Tree.leavesAll, hleaves, Tree.leaves, eq_comm] using hv
    rw [hlast, hu]
  · refine .inr ⟨Tree.placeAll start before, start + Tree.sizeAll before, u,
      Tree.placeAll (start + Tree.sizeAll before + u.size) (gap.map .token),
      member.place (start + Tree.sizeAll before + u.size + Tree.sizeAll (gap.map .token)), ?_,
      hkind.trans hx, ?_, fun g hg => ?_, rfl, ?_⟩
    · simp [Tree.placeAll_append, Tree.placeAll, Tree.place, Tree.size]
    · cases hcons : gap with
      | nil => exact absurd hcons hgap
      | cons g gs => simp [Tree.placeAll]
    · obtain ⟨at₀, t, ht, rfl⟩ := Tree.exists_of_mem_placeAll_map hg
      exact List.all_eq_true.1 List.all_takeWhile t ht
    · rw [Tree.leaves_place, hleaves]
      rfl

mutual

theorem neat_weave (s : Skeleton) (b clear : Bool) (start : Nat) (ts : List Token)
    (rest : List TokenKind) (h : s.Neat b) (hsettled : s.Settled clear)
    (hclear : clear = true → ClearAhead ts)
    (hkinds : kindsOf ts = s.symbols.map (·.kind) ++ rest) :
    Placed.NeatAll b (Tree.placeAll start (s.weave ts).1) := by
  cases s with
  | leaf x =>
    rw [weave]
    exact neatAll_tokens b start _
  | slot =>
    rw [weave]
    exact neatAll_tokens b start _
  | node k ss =>
    obtain ⟨hend, hbelow⟩ := neat_node.1 h
    obtain ⟨hstart, hss⟩ := settled_node.1 hsettled
    simp only [weave, Tree.placeAll, Tree.place, Placed.neatAll_cons, Placed.neatAll_nil, and_true,
      Placed.neat_node]
    refine ⟨?_, neat_weaveAll ss _ clear start ts rest hbelow hss hclear hkinds⟩
    rcases hend with hblank | hclosed | ⟨hb, hk, hdangling⟩
    · obtain ⟨hnone, -⟩ := weaveAll_of_symbols ss ts hblank (hclear hstart)
      exact .inl (endSolid_placeAll (by simp [hnone]))
    · refine .inl (endSolid_placeAll fun v hv => ?_)
      obtain ⟨hfalse, -⟩ | ⟨u, hlast, hu⟩ := last_weaveAll ss true ts rest hkinds hclosed
      · cases hfalse
      · rw [hlast] at hv
        rwa [← Option.some.inj hv]
    · rcases dangling_weaveAll hdangling start ts rest hkinds with hend | hend
      · exact .inl hend
      · exact .inr ⟨hb, hk, hend⟩

/-- **Weaving tokens into neat skeletons gives neat trees.** -/
theorem neat_weaveAll (ss : List Skeleton) (b clear : Bool) (start : Nat) (ts : List Token)
    (rest : List TokenKind) (h : NeatAll b ss) (hsettled : SettledAll clear ss)
    (hclear : clear = true → ClearAhead ts)
    (hkinds : kindsOf ts = (symbolsAll ss).map (·.kind) ++ rest) :
    Placed.NeatAll b (Tree.placeAll start (weaveAll ss ts).1) := by
  cases ss with
  | nil => simp [weaveAll, Tree.placeAll]
  | cons s ss =>
    obtain ⟨hs, hss⟩ := neatAll_cons.1 h
    obtain ⟨hsettled, hsettled'⟩ := settledAll_cons.1 hsettled
    rw [symbolsAll, List.map_append, List.append_assoc] at hkinds
    have hrest := (shapes_weave s ts _ hkinds).2
    have hclear' := (trimmed_weave s clear ts hsettled hclear).2
    simp only [weaveAll, Tree.placeAll_append, Placed.neatAll_append]
    exact ⟨neat_weave s b clear start ts _ hs hsettled hclear hkinds,
      neat_weaveAll ss b _ _ (s.weave ts).2 rest hss hsettled' hclear' hrest⟩

end

end Skeleton

/-! ### Texts without errors -/

/-- The nodes below the root of a text without errors are neat. -/
theorem neat_of_above {t : Text} (h : (parse t).errors = []) {s : Site}
    (hs : s ∈ (parse t).root.sites) (habove : s.above ≠ []) :
    s.node.Neat (s.parentKind? = some .forStmt) := by
  have key : ∀ s ∈ (parse t).root.sites,
      Placed.NeatAll (s.node.isNode .forStmt) s.node.children ∧
        (s.above ≠ [] → s.node.Neat (s.parentKind? = some .forStmt)) := by
    refine Placed.sites_induction (fun u c hu hc hinner => ?_) fun _ => ⟨?_, by simp⟩
    · obtain ⟨start, kind, l, r, hnode, habove⟩ := Site.parent?_eq_some.1 hc
      have hmem : c.node ∈ u.node.children := by simp [hnode, Placed.children]
      have hneat : c.node.Neat (c.parentKind? = some .forStmt) := by
        have hparent : (c.parentKind? = some .forStmt : Bool) = u.node.isNode .forStmt := by
          simp [Site.parentKind?, habove, hnode, Placed.isNode_eq_decide]
        rw [hparent]
        exact hu.1.of_mem hmem
      refine ⟨?_, fun _ => hneat⟩
      cases hnode' : c.node with
      | token start t => simp [hnode', Placed.isInner] at hinner
      | node start kind children =>
        rw [hnode', Placed.neat_node] at hneat
        rw [Placed.isNode_eq_decide]
        exact hneat.2
    · have hfaults : faults (Symbol.ofTokens (Token.significant (tokens t))) = [] := by
        simpa [parse] using h
      refine Skeleton.neat_weaveAll _ false false 0 (tokens t) [] (neat_skeletons hfaults)
        (sound_skeletons _).2.settled (by simp) ?_
      rw [symbols_skeletons, map_kind_ofTokens, List.append_nil, Skeleton.kindsOf]
  exact (key s hs).2 habove

/-- **Trivia lie between the children of nodes.** In a text without errors each node below the root
that holds any token begins and ends with a significant one. Just a declaration in the head of a
`for` statement may end with trivia, if they follow a comma and an empty member follows them. -/
theorem nodes_exclude_trivia (t : Text) (h : (parse t).errors = []) :
    ∀ s ∈ (parse t).root.sites, s.above ≠ [] → s.node.leaves ≠ [] →
      (∃ l, s.node.leaves.head? = some l ∧ l.token.isTrivia = false) ∧
      ((∃ l, s.node.leaves.getLast? = some l ∧ l.token.isTrivia = false) ∨
        s.parentKind? = some .forStmt ∧ s.node.isNode .declGroup = true ∧
          Placed.Dangling s.node.children) := by
  intro s hs habove hleaves
  constructor
  · obtain ⟨l, ls, hcons⟩ := List.exists_cons_of_ne_nil hleaves
    have hclear := clearAhead_of_above hs habove
    refine ⟨l, by rw [hcons]; rfl, hclear l.token ?_⟩
    rw [hcons]
    rfl
  · have hneat := neat_of_above h hs habove
    have hinner := Site.isInner_of_mem_subsites (s := ⟨(parse t).root, []⟩) hs
    obtain ⟨l, hlast⟩ : ∃ l, s.node.leaves.getLast? = some l := by
      cases hlast : s.node.leaves.getLast? with
      | none => exact absurd (List.getLast?_eq_none_iff.1 hlast) hleaves
      | some l => exact ⟨l, rfl⟩
    cases hnode : s.node with
    | token start t => simp [hnode] at hinner
    | node start kind children =>
      rw [hnode, Placed.neat_node] at hneat
      rcases hneat.1 with hend | ⟨hfor, hgroup, hdangling⟩
      · rw [hnode, Placed.leaves_node] at hlast
        exact .inl ⟨l, by rw [Placed.leaves_node, hlast], hend l hlast⟩
      · exact .inr ⟨of_decide_eq_true hfor, Placed.isNode_node.2 hgroup, hdangling⟩

/-- Trivia on both sides of a declaration in the head of a `for` statement stay outside it. -/
theorem nodes_exclude_trivia_head :
    let t := "void f(void) \x7b for ( /* 1 */ int a /* 2 */ , b = 0 /* 3 */ ;;); \x7d".toList
    (parse t).errors = [] ∧
      ∃ s ∈ (parse t).root.sites, s.parentKind? = some .forStmt ∧
        s.node.isNode .declGroup = true ∧
        (∃ l, s.node.leaves.head? = some l ∧ l.token.isTrivia = false) ∧
        ((∃ l, s.node.leaves.getLast? = some l ∧ l.token.isTrivia = false) ∨
          Placed.Dangling s.node.children) := by
  intro t
  have herrors : (parse t).errors = [] := by decide +kernel
  have hsite : (parse t).root.sites.any (fun s => s.parentKind? = some .forStmt &&
      s.node.isNode .declGroup && !s.above.isEmpty && !s.node.leaves.isEmpty) = true := by
    decide +kernel
  obtain ⟨s, hs, hsite⟩ := List.any_eq_true.1 hsite
  obtain ⟨⟨⟨hfor, hgroup⟩, habove⟩, hleaves⟩ : ((s.parentKind? = some .forStmt ∧
      s.node.isNode .declGroup = true) ∧ s.above ≠ []) ∧ s.node.leaves ≠ [] := by
    simpa using hsite
  obtain ⟨hfirst, hlast⟩ := nodes_exclude_trivia t herrors s hs habove hleaves
  refine ⟨herrors, s, hs, hfor, hgroup, hfirst, ?_⟩
  rcases hlast with hlast | ⟨-, -, hdangling⟩
  · exact .inl hlast
  · exact .inr hdangling

/-- **A node can end with trivia.** The comma comes last in the declaration of this text, and the
blank behind it belongs to the declaration. -/
theorem declaration_ends_with_trivia :
    let t := "void f(void)\x7bfor(int a, ;;);\x7d".toList
    (parse t).errors = [] ∧
      ∃ s ∈ (parse t).root.sites, s.above ≠ [] ∧
        ∃ l, s.node.leaves.getLast? = some l ∧ l.token.isTrivia = true := by
  intro t
  have hsite : (parse t).root.sites.any (fun s => !s.above.isEmpty &&
      s.node.leaves.getLast?.any (·.token.isTrivia)) = true := by
    decide +kernel
  obtain ⟨s, hs, hsite⟩ := List.any_eq_true.1 hsite
  obtain ⟨habove, hlast⟩ : s.above ≠ [] ∧ ∃ l, s.node.leaves.getLast? = some l ∧
      l.token.isTrivia = true := by
    simpa [Option.any_eq_true] using hsite
  exact ⟨by decide +kernel, s, hs, habove, hlast⟩

end Whittle
