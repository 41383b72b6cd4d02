import Whittle.Proofs.Removal.Safety
import Whittle.Proofs.Token.Lines

/-!
# What removals touch

A removal takes the member it is for, a comma or the blanks beside it, and nothing else that the
rest of the group needs.

* `Site.adjoining`: trivia that follow each other in the text are siblings, so that the blanks before
  a node can be told from the text alone (`Site.BlankBefore`).
* `Declaration.Cut.avoids`: a cut that leaves some of the group keeps clear of everything there but
  trivia and commas.
* `removal_exact`: **a removal covers its member, keeps clear of the rest of the group, and reaches
  out of the group by no more than the blanks before it.**
-/

namespace Whittle

/-- Whether a part of a tree shares no byte with a span. -/
def Span.Avoids (s : Span) (p : Placed) : Prop := p.stop ≤ s.start ∨ s.stop ≤ p.start

theorem Placed.runsToLineEnd_token (start : Nat) (t : Token) :
    (Placed.token start t).runsToLineEnd = true ↔ t.RunsToLineEnd := by
  simp [runsToLineEnd, Token.RunsToLineEnd]

theorem Token.RunsToLineEnd.isTrivia {t : Token} (h : t.RunsToLineEnd) : t.isTrivia = true := by
  rcases h with h | ⟨h, -⟩
  · simp [Token.isTrivia, h, TokenKind.isTrivia]
  · simp [Token.isTrivia, h, TokenKind.isTrivia]

theorem Placed.isTrivia_of_isToken {p : Placed} {k : TokenKind} (h : p.isToken k = true) :
    p.isTrivia = k.isTrivia := by
  simp only [isToken, decide_eq_true_eq] at h
  rw [isTrivia, h]
  rfl

theorem Placed.not_isToken_of_ne {p : Placed} {k k' : TokenKind} (h : p.isToken k = true)
    (hne : k ≠ k') : p.isToken k' = false := by
  simp only [isToken, decide_eq_true_eq, decide_eq_false_iff_not] at h ⊢
  rw [h]
  exact fun heq => hne (Kind.token.inj heq)

theorem Placed.not_isToken_of_isNode {p : Placed} {k : NodeKind} (h : p.isNode k = true)
    (k' : TokenKind) : p.isToken k' = false := by
  simp only [isToken, isNode, decide_eq_true_eq, decide_eq_false_iff_not] at h ⊢
  rw [h]
  exact Kind.noConfusion

/-! ### Siblings -/

namespace Site

variable {s g : Site} {root c p : Placed} {l r : List Placed}

/-- Of the parts before a node, those further away end before the nearer ones start. -/
theorem stop_le_of_before_split (hroot : root.Snug) (hs : s ∈ root.sites)
    (hsplit : s.before = l ++ c :: r) (hp : p ∈ r) : p.stop ≤ c.start := by
  obtain ⟨first, hsnug⟩ := snug_siblings hroot hs
  obtain ⟨a, b, hr⟩ := List.append_of_mem hp
  have hreverse : s.before.reverse = b.reverse ++ p :: (a.reverse ++ c :: l.reverse) := by
    simp [hsplit, hr]
  rw [hreverse, List.append_assoc, List.cons_append] at hsnug
  exact Placed.stop_le_of_snugFrom hsnug (by simp)

/-- Of the parts after a node, those further away start after the nearer ones end. -/
theorem stop_le_of_after_split (hroot : root.Snug) (hs : s ∈ root.sites)
    (hsplit : s.after = l ++ c :: r) (hp : p ∈ r) : c.stop ≤ p.start := by
  obtain ⟨first, hsnug⟩ := snug_siblings hroot hs
  have hafter : s.before.reverse ++ s.node :: s.after =
      (s.before.reverse ++ s.node :: l) ++ c :: r := by
    simp [hsplit]
  rw [hafter] at hsnug
  exact Placed.stop_le_of_snugFrom hsnug hp

theorem mem_siblings_iff (hs : s.parent? = some g) :
    c ∈ g.node.children ↔ c ∈ s.before ∨ c = s.node ∨ c ∈ s.after := by
  obtain ⟨start, kind, l, r, hnode, habove⟩ := parent?_eq_some.1 hs
  simp [hnode, Placed.children, before, after, habove]

/-- The parts of the node one step up, around a node and what stands before it. -/
theorem children_of_before (hs : s.parent? = some g) (hbefore : s.before = c :: l) :
    g.node.children = l.reverse ++ c :: s.node :: s.after := by
  obtain ⟨start, kind, l', r', hnode, habove⟩ := parent?_eq_some.1 hs
  have hreverse : l'.reverse = c :: l := by simpa [before, habove] using hbefore
  have hl' : l' = l.reverse ++ [c] := by
    rw [← List.reverse_reverse l', hreverse, List.reverse_cons]
  simp [hnode, hl', Placed.children, after, habove]

theorem leaves_of_parent? (hs : s.parent? = some g) :
    g.node.leaves = Placed.leavesAll g.node.children := by
  obtain ⟨start, kind, l, r, hnode, -⟩ := parent?_eq_some.1 hs
  rw [hnode, Placed.leaves_node, Placed.children]

/-- A part of a node lies within it. -/
theorem child_within (hroot : root.Snug) (hg : g ∈ root.sites) (hc : c ∈ g.node.children) :
    g.node.start ≤ c.start ∧ c.start ≤ c.stop ∧ c.stop ≤ g.node.stop := by
  have hsnug := (span_of_mem_subsites (s := ⟨root, []⟩) hroot hg).1
  cases hnode : g.node with
  | token start t => simp [hnode, Placed.children] at hc
  | node start kind children =>
    rw [hnode, Placed.snug_node] at hsnug
    rw [hnode] at hc
    obtain ⟨hstart, hc', hstop⟩ := Placed.snugFrom_mem hsnug hc
    exact ⟨by simpa using hstart, Placed.start_le_stop c hc', by simpa using hstop⟩

/-- The comma before a member is the nearest significant part before it. -/
theorem commaBefore?_eq_some (h : s.commaBefore? = some p) :
    ∃ trivia rest, s.before = trivia ++ p :: rest ∧ ∀ t ∈ trivia, t.isTrivia = true := by
  obtain ⟨hfind, -⟩ := Option.filter_eq_some_iff.1 h
  obtain ⟨-, trivia, rest, hsplit, htrivia⟩ := List.find?_eq_some_iff_append.1 hfind
  exact ⟨trivia, rest, hsplit, fun t ht => by simpa using htrivia t ht⟩

end Site

/-! ### Blanks before a node -/

namespace Tree

/-- Placing trees places those of a first part and then the others. -/
theorem exists_of_placeAll_append {start : Nat} {ts : List Tree} {l r : List Placed}
    (h : placeAll start ts = l ++ r) :
    ∃ us vs, ts = us ++ vs ∧ l = placeAll start us ∧ r = placeAll (start + sizeAll us) vs := by
  induction l generalizing start ts with
  | nil => exact ⟨[], ts, rfl, rfl, by simpa [sizeAll] using h.symm⟩
  | cons x l ih =>
    cases ts with
    | nil => simp [placeAll] at h
    | cons t ts =>
      rw [placeAll, List.cons_append, List.cons.injEq] at h
      obtain ⟨us, vs, rfl, rfl, rfl⟩ := ih h.2
      refine ⟨t :: us, vs, rfl, ?_, ?_⟩
      · rw [placeAll, h.1]
      · rw [sizeAll, Nat.add_assoc]

theorem token_of_place {start n : Nat} {t : Tree} {w : Token} (h : t.place start = .token n w) :
    t = .token w := by
  cases t with
  | token u =>
    obtain ⟨-, rfl⟩ := Placed.token.inj h
    rfl
  | node kind children => cases h

end Tree

section

variable {t : Text} {s g : Site}

/-- Every node of a text is a tree that has been placed and keeps trivia together. -/
theorem exists_clustered (hs : s ∈ (parse t).root.sites) :
    ∃ start kind ts, s.node = .node start kind (Tree.placeAll start ts) ∧ Tree.Adjoining ts ∧
      Tree.ClusteredAll ts := by
  refine Placed.sites_induction (motive := fun s => ∃ start kind ts,
    s.node = .node start kind (Tree.placeAll start ts) ∧ Tree.Adjoining ts ∧
      Tree.ClusteredAll ts) (fun s c hs hc hinner => ?_) (fun _ => ?_) s hs
  · obtain ⟨start, kind, ts, hnode, -, hts⟩ := hs
    obtain ⟨start', kind', l, r, hnode', -⟩ := Site.parent?_eq_some.1 hc
    obtain ⟨rfl, rfl, hplaced⟩ := Placed.node.inj (hnode.symm.trans hnode')
    obtain ⟨us, vs, rfl, -, hvs⟩ := Tree.exists_of_placeAll_append hplaced
    cases vs with
    | nil => simp [Tree.placeAll] at hvs
    | cons v vs =>
      have hv := hts.of_mem (t := v) (by simp)
      rw [Tree.placeAll, List.cons.injEq] at hvs
      rw [hvs.1]
      cases v with
      | token u =>
        rw [hvs.1] at hinner
        cases hinner
      | node kind'' ws =>
        rw [Tree.Clustered] at hv
        exact ⟨_, kind'', ws, rfl, hv⟩
  · obtain ⟨hadjoining, hclustered, -⟩ := Skeleton.clustered_weaveAll
      (Grammar.skeletons (Grammar.Symbol.ofTokens (Token.significant (tokens t)))) (tokens t)
    exact ⟨0, .root, _, rfl, hadjoining, hclustered⟩

namespace Site

/-- Trivia directly after other trivia stand beside them. -/
theorem adjoining (hs : s ∈ (parse t).root.sites) {l r : List Placed} {n : Nat} {w : Token}
    {v : Leaf} (hsplit : s.node.children = l ++ .token n w :: r) (hw : w.isTrivia = true)
    (hlast : (Placed.leavesAll l).getLast? = some v) (hv : v.token.isTrivia = true) :
    ∃ l' m, l = l' ++ [.token m v.token] := by
  obtain ⟨start, kind, ts, hnode, hadjoining, -⟩ := exists_clustered hs
  rw [hnode, Placed.children] at hsplit
  obtain ⟨us, vs, rfl, rfl, hvs⟩ := Tree.exists_of_placeAll_append hsplit
  cases vs with
  | nil => simp [Tree.placeAll] at hvs
  | cons x vs =>
    rw [Tree.placeAll, List.cons.injEq] at hvs
    obtain rfl := Tree.token_of_place hvs.1.symm
    have hlast' : (Tree.leavesAll us).getLast? = some v.token := by
      have hleaves := congrArg (Option.map Leaf.token) hlast
      rwa [← List.getLast?_map, Tree.leavesAll_placeAll, Leaf.map_token_layout] at hleaves
    obtain ⟨us', rfl⟩ := hadjoining us w vs v.token rfl hw hlast' hv
    have hplaced : ∃ l' m, Tree.placeAll start (us' ++ [.token v.token]) =
        l' ++ [.token m v.token] := by
      clear hlast hlast' hsplit hadjoining hnode hvs
      induction us' generalizing start with
      | nil => exact ⟨[], start, rfl⟩
      | cons u us' ih =>
        obtain ⟨l', m, h⟩ := ih (start + u.size)
        exact ⟨u.place start :: l', m, by rw [List.cons_append, Tree.placeAll, h]; rfl⟩
    exact hplaced

/-- Whether the blanks that end at a node are one token, start at a byte, and do not end a `#` line or
a `//` comment. -/
def BlankBefore (t : Text) (s : Site) (n : Nat) : Prop :=
  ∃ before blank after, tokens t = before ++ blank :: after ∧ blank.kind = .whitespace ∧
    n = (Token.concat before).size ∧ s.node.start = n + blank.size ∧
    ∀ last, before.getLast? = some last → ¬last.RunsToLineEnd

/-- What comes directly before the blanks before a node, if it runs to the end of its line, is the
sibling there. -/
theorem head_before_of_runsToLineEnd (hg : g ∈ (parse t).root.sites) (hs : s.parent? = some g)
    {n : Nat} {w last : Token} {rest : List Placed} (hbefore : s.before = .token n w :: rest)
    (hw : w.isTrivia = true) {above below : List Leaf}
    (hleaves : (parse t).root.leaves = above ++ g.node.leaves ++ below)
    (hlast : ((above ++ Placed.leavesAll rest.reverse).map (·.token)).getLast? = some last)
    (hline : last.RunsToLineEnd) : ∃ m, rest.head? = some (.token m last) := by
  have hsplit := children_of_before hs hbefore
  cases hrest : (Placed.leavesAll rest.reverse).getLast? with
  | some v =>
    rw [List.map_append, List.getLast?_append, List.getLast?_map, hrest, Option.map_some,
      Option.some_or, Option.some.injEq] at hlast
    obtain ⟨l, m, hl⟩ := adjoining hg hsplit hw hrest (hlast ▸ hline.isTrivia)
    refine ⟨m, ?_⟩
    rw [← List.getLast?_reverse, hl, List.getLast?_concat, hlast]
  | none =>
    -- the blanks come first in the node above, which then is the root, with nothing before it
    have hfirst : (g.node.leaves.map (·.token)).head? = some w := by
      rw [leaves_of_parent? hs, hsplit, Placed.leavesAll_append,
        List.getLast?_eq_none_iff.1 hrest]
      simp
    have habove : g.above = [] := by
      by_contra hne
      have hclear := clearAhead_of_above hg hne w hfirst
      rw [hw] at hclear
      cases hclear
    have hroot : g = ⟨(parse t).root, []⟩ := by
      refine eq_of_mem_subsites_of_path_eq (s := ⟨(parse t).root, []⟩) hg ?_
      simp [path, address, habove]
    have hnil : above = [] := by
      have hlength := congrArg List.length hleaves
      simp only [hroot, List.length_append] at hlength
      exact List.eq_nil_of_length_eq_zero (by omega)
    rw [hnil, List.nil_append, List.getLast?_map, hrest] at hlast
    cases hlast

theorem blankBefore_of_before (hs : s ∈ (parse t).root.sites) {n : Nat} {w : Token}
    {rest : List Placed} (hbefore : s.before = .token n w :: rest) (hw : w.kind = .whitespace)
    (hline : rest.head?.any (·.runsToLineEnd) = false) : BlankBefore t s n := by
  cases hparent : s.parent? with
  | none => simp [before, parent?_eq_none.1 hparent] at hbefore
  | some g =>
    have hg := mem_sites_of_parent? hs hparent
    have hroot := (regular_parse t).snug
    have hsplit := children_of_before hparent hbefore
    have hgleaves := leaves_of_parent? hparent
    rw [hsplit, Placed.leavesAll_append, Placed.leavesAll_cons, Placed.leaves_token] at hgleaves
    -- the blanks and the node follow each other in the node above
    obtain ⟨start, kind, l, r, hnode, -⟩ := parent?_eq_some.1 hparent
    have hsnug := (span_of_mem_subsites (s := ⟨_, []⟩) hroot hg).1
    have hchildren : g.node.children = l ++ s.node :: r := by rw [hnode, Placed.children]
    rw [hnode, Placed.snug_node, ← hchildren, hsplit, Placed.snugFrom_append,
      Placed.snugFrom_cons, Placed.snugFrom_cons] at hsnug
    obtain ⟨hrest, hstart, -, hnext, -⟩ := hsnug
    obtain ⟨above, below, hleaves, hgstart⟩ := runIn hroot hg
    have hn : n = start + (Leaf.concat (Placed.leavesAll rest.reverse)).size := by
      rw [← Placed.stopAll_eq _ hrest, ← hstart]
      rfl
    have hstart' : start = (Leaf.concat above).size := by
      simpa [hnode, Parsed.root] using hgstart
    refine ⟨(above ++ Placed.leavesAll rest.reverse).map (·.token), w,
      (Placed.leavesAll (s.node :: s.after) ++ below).map (·.token), ?_, hw, ?_, ?_, ?_⟩
    · rw [← map_token_leaves_parse t, hleaves, hgleaves]
      simp
    · rw [hn, hstart', ← Text.size_append, ← Leaf.concat_append]
      rfl
    · simpa using hnext
    · intro last hlast hruns
      have htrivia : w.isTrivia = true := by simp [Token.isTrivia, hw, TokenKind.isTrivia]
      obtain ⟨m, hm⟩ := head_before_of_runsToLineEnd hg hparent hbefore htrivia hleaves hlast hruns
      rw [hm, Option.any_some, (Placed.runsToLineEnd_token m last).2 hruns] at hline
      cases hline

/-- **A node starts where its blanks do, unless these have to stay.** -/
theorem startWithBlanks_cases (hs : s ∈ (parse t).root.sites) :
    s.startWithBlanks = s.node.start ∨ BlankBefore t s s.startWithBlanks := by
  unfold startWithBlanks
  split
  · rename_i blank rest hbefore
    split
    · rename_i hblank
      obtain ⟨hwhite, hline⟩ := Bool.and_eq_true_iff.1 hblank
      cases blank with
      | node start kind children => simp [Placed.isToken, Placed.kind] at hwhite
      | token n w =>
        have hkind : w.kind = .whitespace := by simpa [Placed.isToken, Placed.kind] using hwhite
        exact .inr (blankBefore_of_before hs hbefore hkind (by simpa using hline))
    · exact .inl rfl
  · exact .inl rfl

end Site

end

/-! ### What a cut keeps clear of -/

namespace Declaration

variable {target : Declaration} {group : DeclGroup} {range : Span} {root p : Placed}

namespace Cut

/-- A cut covers its declaration. -/
theorem covers (h : Cut target group range) (hroot : root.Snug)
    (htarget : target.site ∈ root.sites) (hgroup : group.site ∈ root.sites)
    (hparent : target.site.parent? = some group.site) :
    range.start ≤ target.site.node.start ∧ target.site.node.stop ≤ range.stop := by
  cases h with
  | group =>
    have hmem := (Site.mem_siblings_iff hparent).2 (.inr (.inl rfl))
    have hwithin := Site.child_within hroot hgroup hmem
    have hblanks := Site.startWithBlanks_le hroot hgroup
    exact ⟨by simp only; omega, hwithin.2.2⟩
  | sole => exact ⟨Site.startWithBlanks_le hroot htarget, Nat.le_refl _⟩
  | first comma rest _ hcomma =>
    have hlast := Site.le_start_of_mem_after hroot htarget (Site.last_mem_after hcomma)
    exact ⟨Nat.le_refl _, by simp only; omega⟩
  | later comma _ hcomma =>
    have hbefore := Site.stop_le_of_mem_before hroot htarget (Site.mem_of_commaBefore? hcomma).1
    exact ⟨by simp only; omega, Nat.le_refl _⟩

/-- **A cut that leaves some of the group keeps clear of everything there** but trivia and
commas. -/
theorem avoids (h : Cut target group range) (hroot : root.Snug)
    (htarget : target.site ∈ root.sites)
    (hleaves : 2 ≤ group.members.length ∨ group.definesTag = true)
    (hp : p ∈ target.site.before ∨ p ∈ target.site.after) (htrivia : p.isTrivia = false)
    (hcomma : p.isToken .comma = false) : range.Avoids p := by
  cases h with
  | group hsingle htag =>
    rcases hleaves with hleaves | hleaves
    · simp only [DeclGroup.isSingle, decide_eq_true_eq] at hsingle
      omega
    · rw [htag] at hleaves
      cases hleaves
  | sole =>
    rcases hp with hp | hp
    · refine .inl ?_
      show p.stop ≤ target.site.startWithBlanks
      unfold Site.startWithBlanks
      split
      · rename_i blank rest hbefore
        split
        · rename_i hblank
          -- the part is not the blanks, so it stands further away
          have hne : p ≠ blank := by
            rintro rfl
            rw [Placed.isTrivia_of_isToken (Bool.and_eq_true_iff.1 hblank).1] at htrivia
            cases htrivia
          rw [hbefore] at hp
          exact Site.stop_le_of_before_split hroot htarget (l := []) hbefore
            ((List.mem_cons.1 hp).resolve_left hne)
        · exact (Site.stop_le_of_mem_before hroot htarget hp).2
      · exact (Site.stop_le_of_mem_before hroot htarget hp).2
    · exact .inr (Site.le_start_of_mem_after hroot htarget hp).1
  | first comma rest _ hfirst =>
    rcases hp with hp | hp
    · exact .inl (Site.stop_le_of_mem_before hroot htarget hp).2
    · refine .inr ?_
      obtain ⟨⟨trivia, hafter, hall⟩, hiscomma⟩ := Site.commaAfter?_eq_some hfirst
      have hrest : p ∈ rest := by
        rw [hafter, List.mem_append, List.mem_cons] at hp
        rcases hp with hp | rfl | hp
        · rw [hall p hp] at htrivia
          cases htrivia
        · rw [hiscomma] at hcomma
          cases hcomma
        · exact hp
      cases hblank : rest.head?.filter (·.isToken .whitespace) with
      | none => exact Site.stop_le_of_after_split hroot htarget hafter hrest
      | some blank =>
        obtain ⟨hhead, hwhite⟩ := Option.filter_eq_some_iff.1 hblank
        obtain ⟨rest', rfl⟩ := List.head?_eq_some_iff.1 hhead
        have hne : p ≠ blank := by
          rintro rfl
          rw [Placed.isTrivia_of_isToken hwhite] at htrivia
          cases htrivia
        have hafter' : target.site.after = (trivia ++ [comma]) ++ blank :: rest' := by
          simp [hafter]
        exact Site.stop_le_of_after_split hroot htarget hafter'
          ((List.mem_cons.1 hrest).resolve_left hne)
  | later comma _ hlater =>
    rcases hp with hp | hp
    · refine .inl ?_
      obtain ⟨trivia, rest, hbefore, hall⟩ := Site.commaBefore?_eq_some hlater
      have hrest : p ∈ rest := by
        rw [hbefore, List.mem_append, List.mem_cons] at hp
        rcases hp with hp | rfl | hp
        · rw [hall p hp] at htrivia
          cases htrivia
        · rw [(Site.mem_of_commaBefore? hlater).2] at hcomma
          cases hcomma
        · exact hp
      exact Site.stop_le_of_before_split hroot htarget hbefore hrest
    · exact .inr (Site.le_start_of_mem_after hroot htarget hp).1

/-- A cut stays within its group but for the blanks before the group. -/
theorem within {t : Text} (h : Cut target group range)
    (hgroup : group.site ∈ (parse t).root.sites) (hparent : target.site.parent? = some group.site) :
    (group.site.node.start ≤ range.start ∨ Site.BlankBefore t group.site range.start) ∧
      range.stop ≤ group.site.node.stop := by
  have hroot := (regular_parse t).snug
  have hchild {c : Placed} (hc : c ∈ target.site.before ∨ c = target.site.node ∨
      c ∈ target.site.after) :=
    Site.child_within hroot hgroup ((Site.mem_siblings_iff hparent).2 hc)
  have hself := hchild (.inr (.inl rfl))
  cases h with
  | group =>
    refine ⟨?_, Nat.le_refl _⟩
    rcases Site.startWithBlanks_cases hgroup with hstart | hblank
    · exact .inl (Nat.le_of_eq hstart.symm)
    · exact .inr hblank
  | sole =>
    refine ⟨.inl ?_, hself.2.2⟩
    show group.site.node.start ≤ target.site.startWithBlanks
    unfold Site.startWithBlanks
    split
    · rename_i blank rest hbefore
      split
      · exact (hchild (.inl (by simp [hbefore]))).1
      · exact hself.1
    · exact hself.1
  | first comma rest _ hcomma =>
    exact ⟨.inl hself.1, (hchild (.inr (.inr (Site.last_mem_after hcomma)))).2.2⟩
  | later comma _ hcomma =>
    exact ⟨.inl (hchild (.inl (Site.mem_of_commaBefore? hcomma).1)).1, hself.2.2⟩

end Cut

end Declaration

namespace Inventory

variable {t : Text} {d d' : Declaration} {g : DeclGroup}

/-- The number of a declaration is its own. -/
theorem eq_of_id (hd : d ∈ (ofTree (parse t).root).declarations)
    (hd' : d' ∈ (ofTree (parse t).root).declarations) (hid : d.id = d'.id) : d = d' := by
  have hfind := declaration?_id hd
  rw [hid, declaration?_id hd'] at hfind
  exact (Option.some.inj hfind).symm

/-- A declaration with a group is a member of it. -/
theorem isGroupOf_of_groupOf? (hd : d ∈ (ofTree (parse t).root).declarations)
    (hg : (ofTree (parse t).root).groupOf? d.id = some g) :
    d.site.node.isNode .initDeclarator = true ∧ IsGroupOf t g d := by
  have hmember : d.site.node.isNode .initDeclarator = true := by
    by_contra hne
    simp [groupOf?, declaration?_id hd, group_eq hd, hne] at hg
  obtain ⟨g', hg', hof⟩ := exists_isGroupOf hd hmember
  obtain rfl := Option.some.inj (hg.symm.trans hg')
  exact ⟨hmember, hof⟩

/-- The other members of a group stand beside a member. -/
theorem IsGroupOf.mem_siblings (h : IsGroupOf t g d)
    (hd : d ∈ (ofTree (parse t).root).declarations)
    (hd' : d' ∈ (ofTree (parse t).root).declarations) (hmem : d'.id ∈ g.members) (hne : d' ≠ d) :
    d'.site.node.isNode .initDeclarator = true ∧
      (d'.site.node ∈ d.site.before ∨ d'.site.node ∈ d.site.after) := by
  have hroot := (regular_parse t).snug
  obtain ⟨e, he, hid, hmember, hparent⟩ := h.members d'.id hmem
  obtain rfl := eq_of_id he hd' hid
  refine ⟨hmember, ?_⟩
  rcases Nat.lt_trichotomy e.id d.id with hlt | heq | hlt
  · have hplace := Site.lt_of_follows hparent h.parent (follows_of_id_lt hroot he hd hlt)
    exact .inl (Site.mem_siblings hparent h.parent hplace).2
  · exact absurd (eq_of_id he hd heq) hne
  · have hplace := Site.lt_of_follows h.parent hparent (follows_of_id_lt hroot hd he hlt)
    exact .inr (Site.mem_siblings h.parent hparent hplace).1

end Inventory

/-- **A removal covers its member, keeps clear of the rest of the group, and reaches out of the group
by no more than the blanks before it.** These are one token of blanks that ends neither a `#` line nor
a `//` comment. -/
theorem removal_exact {t : Text} {d : Declaration} {g : DeclGroup}
    (hd : d ∈ (Inventory.ofTree (parse t).root).declarations)
    (hg : (Inventory.ofTree (parse t).root).groupOf? d.id = some g) :
    ∃ range, d.removal g = .ok range ∧
      t.IsTokenBoundary range.start ∧ t.IsTokenBoundary range.stop ∧
      range.start ≤ d.site.node.start ∧ d.site.node.stop ≤ range.stop ∧
      (∀ d' ∈ (Inventory.ofTree (parse t).root).declarations, d'.id ∈ g.members → d' ≠ d →
        range.Avoids d'.site.node) ∧
      (2 ≤ g.members.length ∨ g.definesTag = true → ∀ c ∈ g.site.node.children,
        c.isNode .specifiers = true ∨ c.isToken .semicolon = true → range.Avoids c) ∧
      (g.site.node.start ≤ range.start ∨ Site.BlankBefore t g.site range.start) ∧
      range.stop ≤ g.site.node.stop := by
  have hroot := (regular_parse t).snug
  obtain ⟨hmember, hof⟩ := Inventory.isGroupOf_of_groupOf? hd hg
  have hsite := (Inventory.mem_declarations hd).1
  have hgsite := (List.mem_filter.1 hof.site_mem).1
  obtain ⟨range, hrange⟩ := hof.exists_removal hd hmember
  have hcut := (Declaration.cut_of_removal hrange).2
  have hedges := hcut.isTokenBoundary hsite hgsite
  have hcovers := hcut.covers hroot hsite hgsite hof.parent
  refine ⟨range, hrange, hedges.1, hedges.2, hcovers.1, hcovers.2, ?_, ?_,
    hcut.within hgsite hof.parent⟩
  · intro d' hd' hmem hne
    obtain ⟨hmember', hbeside⟩ := hof.mem_siblings hd hd' hmem hne
    have hseveral : 2 ≤ g.members.length := by
      by_contra hlt
      have hpos := List.length_pos_of_mem hmem
      obtain ⟨id, hid⟩ := List.length_eq_one_iff.1 (show g.members.length = 1 by omega)
      have hself := hof.id_mem
      rw [hid, List.mem_singleton] at hmem hself
      exact hne (Inventory.eq_of_id hd' hd (hmem.trans hself.symm))
    exact hcut.avoids hroot hsite (.inl hseveral) hbeside
      (Placed.not_isTrivia_of_isInner (Placed.isInner_of_isNode hmember'))
      (Placed.not_isToken_of_isNode hmember' _)
  · intro hleaves c hc hkind
    have hne : c ≠ d.site.node := by
      rintro rfl
      rcases hkind with hkind | hkind
      · simp [Placed.not_isNode_of_ne hkind] at hmember
      · simp [Placed.not_isNode_of_isToken hkind] at hmember
    have hbeside : c ∈ d.site.before ∨ c ∈ d.site.after := by
      rcases (Site.mem_siblings_iff hof.parent).1 hc with h | h | h
      · exact .inl h
      · exact absurd h hne
      · exact .inr h
    rcases hkind with hkind | hkind
    · exact hcut.avoids hroot hsite hleaves hbeside
        (Placed.not_isTrivia_of_isInner (Placed.isInner_of_isNode hkind))
        (Placed.not_isToken_of_isNode hkind _)
    · exact hcut.avoids hroot hsite hleaves hbeside (Placed.isTrivia_of_isToken hkind)
        (Placed.not_isToken_of_ne hkind (by decide))

/-- The second of three members. -/
theorem removal_exact_several :
    let t : Text := "int a, *b = 0, c;".toList
    let inventory := Inventory.ofTree (parse t).root
    ∃ d ∈ inventory.declarations, ∃ g, inventory.groupOf? d.id = some g ∧ g.members = [0, 1, 2] ∧
      ∃ range, d.removal g = .ok range ∧ range.start ≤ d.site.node.start ∧
        d.site.node.stop ≤ range.stop ∧
        ∀ d' ∈ inventory.declarations, d'.id ∈ g.members → d' ≠ d → range.Avoids d'.site.node := by
  intro t inventory
  have hfind : (inventory.declaration? 1).map (·.id) = some 1 := by decide +kernel
  have hmembers : (inventory.groupOf? 1).map (·.members) = some [0, 1, 2] := by decide +kernel
  obtain ⟨d, hd, hid⟩ := Option.map_eq_some_iff.1 hfind
  obtain ⟨g, hg, hmembers⟩ := Option.map_eq_some_iff.1 hmembers
  rw [← hid] at hg
  obtain ⟨range, hrange, -, -, hstart, hstop, hothers, -⟩ :=
    removal_exact (t := t) (List.mem_of_getElem? hd) hg
  exact ⟨d, List.mem_of_getElem? hd, g, hg, hmembers, range, hrange, hstart, hstop, hothers⟩

end Whittle
