import Whittle.Proofs.Declaration.Layout
import Whittle.Proofs.Removal.Outcome

/-!
# Removals have no inner failures

A member of a group has a comma on the side where the group has another member, and parts of a tree
start and stop between two tokens. So a removal gets as far as reading the edited program, which
is the only thing that can still refuse it.

* `Placed.GroupParts.comma_after`, `Placed.GroupParts.comma_before`: the commas of a group.
* `isTokenBoundary_of_runIn`: parts of a tree start and stop between two tokens.
* `Inventory.IsGroupOf`: what holds of the group of a member.
* `Inventory.IsGroupOf.exists_removal`: **a member can be cut out of its group.**
* `removeUnused_of_le`: a counter in range selects a span, and what the span leaves is checked.
* `removeUnused_refuses`: **a removal is refused only for a counter that is out of range or for
  errors in the edited program.**
-/

namespace Whittle

/-! ### Commas -/

namespace Placed

variable {ps L R : List Placed} {m m' : Placed}

theorem not_isNode_of_isToken {k : TokenKind} {k' : NodeKind} (h : m.isToken k = true) :
    m.isNode k' = false := by
  simp only [isToken, isNode, decide_eq_true_eq, decide_eq_false_iff_not] at h ⊢
  rw [h]
  exact Kind.noConfusion

theorem not_isNode_of_ne {k k' : NodeKind} (h : m.isNode k = true) (hne : k ≠ k') :
    m.isNode k' = false := by
  simp only [isNode, decide_eq_true_eq, decide_eq_false_iff_not] at h ⊢
  rw [h]
  exact fun heq => hne (Kind.node.inj heq)

/-- A further member stands after a comma, and further members follow it. -/
theorem FurtherMembers.split (h : FurtherMembers ps) (hps : ps = L ++ m :: R)
    (hm : m.isNode .initDeclarator = true) :
    (∃ l comma, L = l ++ [comma] ∧ comma.isToken .comma = true) ∧ FurtherMembers R := by
  induction h generalizing L with
  | nil => simp at hps
  | @cons comma x rest hcomma _ hrest ih =>
    -- the member is neither the first comma nor, if more stands before it, the first member
    rcases L with - | ⟨y, - | ⟨z, L⟩⟩
    · rw [List.nil_append, List.cons.injEq] at hps
      rw [← hps.1, not_isNode_of_isToken hcomma] at hm
      cases hm
    · simp only [List.cons_append, List.nil_append, List.cons.injEq] at hps
      rw [← hps.1, ← hps.2.2]
      exact ⟨⟨[], comma, rfl, hcomma⟩, hrest⟩
    · simp only [List.cons_append, List.cons.injEq] at hps
      obtain ⟨⟨l, c, rfl, hc⟩, hR⟩ := ih hps.2.2
      exact ⟨⟨y :: z :: l, c, rfl, hc⟩, hR⟩

/-- A member of a group stands directly after the specifiers or a comma, and further members follow
it. -/
theorem GroupParts.split (h : GroupParts (L ++ m :: R)) (hm : m.isNode .initDeclarator = true) :
    ((∃ x, L = [x] ∧ x.isNode .specifiers = true) ∨
      ∃ l comma, L = l ++ [comma] ∧ comma.isToken .comma = true) ∧
    ∃ further stop, R = further ++ stop ∧ FurtherMembers further ∧
      ∀ c ∈ stop, c.isNode .initDeclarator = false := by
  obtain ⟨x, members, stop, hsplit, hx, hmembers, hstop⟩ := h
  have hstop : ∀ c ∈ stop, c.isNode .initDeclarator = false := by
    obtain rfl | ⟨semicolon, rfl, hsemicolon⟩ := hstop
    · simp
    · simpa using not_isNode_of_isToken hsemicolon
  have hmstop : m ∉ stop := fun hmem => by simp [hstop m hmem] at hm
  rcases L with - | ⟨y, L⟩
  · rw [List.nil_append, List.cons.injEq] at hsplit
    rw [hsplit.1, not_isNode_of_ne hx (by simp)] at hm
    cases hm
  · rw [List.cons_append, List.cons.injEq] at hsplit
    obtain ⟨rfl, hsplit⟩ := hsplit
    obtain ⟨r, hmembers', rfl⟩ : ∃ r, members = L ++ m :: r ∧ R = r ++ stop := by
      obtain ⟨r, rfl, hr⟩ | ⟨r, -, rfl⟩ := List.append_eq_append_iff.1 hsplit
      · cases r with
        | nil =>
          rw [List.nil_append] at hr
          simp [← hr] at hmstop
        | cons y r =>
          rw [List.cons_append, List.cons.injEq] at hr
          exact ⟨r, by rw [hr.1], hr.2⟩
      · simp at hmstop
    obtain rfl | ⟨first, rest, rfl, -, hrest⟩ := hmembers
    · simp at hmembers'
    rcases L with - | ⟨z, L⟩
    · rw [List.nil_append, List.cons.injEq] at hmembers'
      exact ⟨.inl ⟨y, rfl, hx⟩, r, stop, rfl, hmembers'.2 ▸ hrest, hstop⟩
    · rw [List.cons_append, List.cons.injEq] at hmembers'
      obtain ⟨⟨l, comma, rfl, hcomma⟩, hr⟩ := hrest.split hmembers'.2 hm
      exact ⟨.inr ⟨y :: z :: l, comma, rfl, hcomma⟩, r, stop, rfl, hr, hstop⟩

/-- A comma stands directly after a member that is not the last one. -/
theorem GroupParts.comma_after (h : GroupParts (L ++ m :: R)) (hm : m.isNode .initDeclarator = true)
    (hm' : m'.isNode .initDeclarator = true) (hmem : m' ∈ R) :
    ∃ comma r, R = comma :: r ∧ comma.isToken .comma = true := by
  obtain ⟨-, further, stop, rfl, hfurther, hstop⟩ := h.split hm
  cases hfurther with
  | nil =>
    rw [hstop m' hmem] at hm'
    cases hm'
  | @cons comma x rest hcomma _ _ => exact ⟨comma, x :: (rest ++ stop), rfl, hcomma⟩

/-- A comma stands directly before a member that is not the first one. -/
theorem GroupParts.comma_before (h : GroupParts (L ++ m :: R))
    (hm : m.isNode .initDeclarator = true) (hm' : m'.isNode .initDeclarator = true)
    (hmem : m' ∈ L) : ∃ l comma, L = l ++ [comma] ∧ comma.isToken .comma = true := by
  refine (h.split hm).1.resolve_left ?_
  rintro ⟨x, rfl, hx⟩
  rw [List.mem_singleton.1 hmem, not_isNode_of_ne hx (by simp)] at hm'
  cases hm'

end Placed

namespace Site

variable {s u g : Site}

theorem tail_address (hs : s.parent? = some g) : s.address.tail = g.address := by
  obtain ⟨start, kind, l, r, -, habove⟩ := parent?_eq_some.1 hs
  simp [address, habove]

/-- Of two siblings, the one with the lower place stands before the other. -/
theorem mem_siblings (hs : s.parent? = some g) (hu : u.parent? = some g)
    (hlt : s.before.length < u.before.length) : u.node ∈ s.after ∧ s.node ∈ u.before := by
  obtain ⟨start, kind, l, r, hnode, habove⟩ := parent?_eq_some.1 hs
  obtain ⟨start', kind', l', r', hnode', habove'⟩ := parent?_eq_some.1 hu
  obtain ⟨rfl, rfl, hsplit⟩ := Placed.node.inj (hnode.symm.trans hnode')
  simp only [before, after, habove, habove', List.head?_cons, Option.map_some, Option.getD_some,
    List.length_reverse] at hlt ⊢
  obtain ⟨m, rfl, hm⟩ | ⟨m, rfl, -⟩ := List.append_eq_append_iff.1 hsplit
  · cases m with
    | nil => simp at hlt
    | cons x m =>
      rw [List.cons_append, List.cons.injEq] at hm
      rw [hm.1, hm.2]
      simp
  · rw [List.length_append] at hlt
    omega

/-- A sibling that follows a site has a higher place. -/
theorem lt_of_follows (hs : s.parent? = some g) (hu : u.parent? = some g)
    (h : Placed.Follows u s) : s.before.length < u.before.length := by
  have hspath := path_of_parent? hs
  have hupath := path_of_parent? hu
  rcases h with ⟨hmem, hne⟩ | ⟨-, hprec⟩
  · -- siblings do not lie within each other
    obtain ⟨q, hq⟩ := path_prefix_of_mem_subsites hmem
    rw [hspath, hupath] at hq hne
    simp only [List.append_assoc, List.append_cancel_left_eq, List.singleton_append,
      List.cons.injEq] at hq
    rw [hq.1] at hne
    exact absurd rfl hne
  · rw [hspath, hupath] at hprec
    rcases Nat.lt_trichotomy s.before.length u.before.length with hlt | heq | hgt
    · exact hlt
    · rw [heq] at hprec
      exact absurd hprec.endsBefore hprec.endsBefore.asymm
    · exact absurd hprec.endsBefore (Path.precedes_of_lt _ [] [] hgt).endsBefore.asymm

/-- The parts of the node one step up, around a part. -/
theorem parts_of_parent? (hs : s.parent? = some g) (htrivia : s.node.isTrivia = false) :
    g.node.parts = (s.before.filter fun c => !c.isTrivia).reverse ++
      s.node :: s.after.filter fun c => !c.isTrivia := by
  obtain ⟨start, kind, l, r, hnode, habove⟩ := parent?_eq_some.1 hs
  simp [Placed.parts, hnode, Placed.children, before, after, habove, htrivia]

/-- A member with another member of its group after it has a comma after it. -/
theorem exists_commaAfter (hs : s.parent? = some g) (hg : Placed.GroupParts g.node.parts)
    (hmember : s.node.isNode .initDeclarator = true) {m : Placed} (hm : m ∈ s.after)
    (hm' : m.isNode .initDeclarator = true) : ∃ x, s.commaAfter? = some x := by
  rw [parts_of_parent? hs (Placed.not_isTrivia_of_isInner (Placed.isInner_of_isNode hmember))] at hg
  have htrivia := Placed.not_isTrivia_of_isInner (Placed.isInner_of_isNode hm')
  obtain ⟨comma, r, hafter, hcomma⟩ := hg.comma_after hmember hm' (by simp [hm, htrivia])
  obtain ⟨trivia, rest, hsplit, htrivia, hcomma', -⟩ := List.filter_eq_cons_iff.1 hafter
  have hdrop : s.after.dropWhile (·.isTrivia) = comma :: rest := by
    rw [hsplit, List.dropWhile_append_of_pos (by simpa using htrivia),
      List.dropWhile_cons_of_neg (by simpa using hcomma')]
  exact ⟨(comma, rest), by simp [commaAfter?, hdrop, hcomma]⟩

/-- A member with another member of its group before it has a comma before it. -/
theorem exists_commaBefore (hs : s.parent? = some g) (hg : Placed.GroupParts g.node.parts)
    (hmember : s.node.isNode .initDeclarator = true) {m : Placed} (hm : m ∈ s.before)
    (hm' : m.isNode .initDeclarator = true) : ∃ x, s.commaBefore? = some x := by
  rw [parts_of_parent? hs (Placed.not_isTrivia_of_isInner (Placed.isInner_of_isNode hmember))] at hg
  have htrivia := Placed.not_isTrivia_of_isInner (Placed.isInner_of_isNode hm')
  obtain ⟨l, comma, hbefore, hcomma⟩ := hg.comma_before hmember hm' (by simp [hm, htrivia])
  refine ⟨comma, ?_⟩
  rw [commaBefore?, ← List.head?_filter, ← List.getLast?_reverse, hbefore]
  simp [hcomma]

end Site

/-! ### Boundaries -/

theorem Text.isBoundary_size (s t : Text) : (s ++ t).isBoundary s.size = true := by
  induction s with
  | nil => cases t <;> simp [size, isBoundary]
  | cons c cs ih => simp [size, isBoundary, ih]

theorem Text.le_size_of_isBoundary {n : Nat} {t : Text} (h : t.isBoundary n = true) :
    n ≤ t.size := by
  obtain ⟨s, u, rfl, rfl⟩ := exists_of_isBoundary h
  simp

section

variable {t : Text} {s : Site} {c : Placed}

/-- Whether a place of a text lies between two of its tokens, or where it starts or ends. -/
def Text.IsTokenBoundary (t : Text) (n : Nat) : Prop :=
  ∃ before after, tokens t = before ++ after ∧ n = (Token.concat before).size

theorem Text.IsTokenBoundary.isBoundary {n : Nat} (h : t.IsTokenBoundary n) :
    t.isBoundary n = true := by
  obtain ⟨before, after, htokens, rfl⟩ := h
  have hboundary := Text.isBoundary_size (Token.concat before) (Token.concat after)
  rwa [← Token.concat_append, ← htokens, Token.concat_tokens] at hboundary

theorem map_token_leaves_parse (t : Text) :
    (parse t).root.leaves.map (·.token) = tokens t := by
  rw [Parsed.root, Tree.leaves_place, Leaf.map_token_layout, leaves_parse]

/-- A run of tokens starts and stops between two tokens. -/
theorem isTokenBoundary_of_runIn (h : (parse t).root.RunIn c) (hc : c.Snug) :
    t.IsTokenBoundary c.start ∧ t.IsTokenBoundary c.stop := by
  obtain ⟨before, after, hsplit, hstart⟩ := h
  have htokens := map_token_leaves_parse t
  rw [hsplit, List.map_append, List.map_append] at htokens
  rw [Parsed.root, Tree.start_place, Nat.zero_add] at hstart
  refine ⟨⟨_, _, by rw [← htokens, List.append_assoc], hstart⟩, _, _, htokens.symm, ?_⟩
  rw [Placed.stop_eq c hc, hstart, Token.concat_append, Text.size_append]
  rfl

/-- Nodes start and stop between two tokens. -/
theorem isTokenBoundary_node (hs : s ∈ (parse t).root.sites) :
    t.IsTokenBoundary s.node.start ∧ t.IsTokenBoundary s.node.stop :=
  have hroot := (regular_parse t).snug
  isTokenBoundary_of_runIn (Site.runIn hroot hs)
    (Site.span_of_mem_subsites (s := ⟨_, []⟩) hroot hs).1

/-- The siblings of a node start and stop between two tokens. -/
theorem isTokenBoundary_sibling (hs : s ∈ (parse t).root.sites)
    (hc : c ∈ s.before ∨ c ∈ s.after) :
    t.IsTokenBoundary c.start ∧ t.IsTokenBoundary c.stop := by
  have hroot := (regular_parse t).snug
  cases hparent : s.parent? with
  | none =>
    have habove := Site.parent?_eq_none.1 hparent
    simp [Site.before, Site.after, habove] at hc
  | some g =>
    have hg := Site.mem_sites_of_parent? hs hparent
    obtain ⟨start, kind, l, r, hnode, habove⟩ := Site.parent?_eq_some.1 hparent
    have hmem : c ∈ g.node.children := by
      simp only [Site.before, Site.after, habove, List.head?_cons, Option.map_some,
        Option.getD_some, List.mem_reverse] at hc
      rw [hnode, Placed.children, List.mem_append, List.mem_cons]
      exact hc.imp_right .inr
    obtain ⟨hrun, hsnug⟩ := (Site.runIn hroot hg).child
      (Site.span_of_mem_subsites (s := ⟨_, []⟩) hroot hg).1 hmem
    exact isTokenBoundary_of_runIn hrun hsnug

theorem isTokenBoundary_startWithBlanks (hs : s ∈ (parse t).root.sites) :
    t.IsTokenBoundary s.startWithBlanks := by
  unfold Site.startWithBlanks
  split
  · rename_i blank rest hbefore
    split
    · exact (isTokenBoundary_sibling hs (.inl (by simp [hbefore]))).1
    · exact (isTokenBoundary_node hs).1
  · exact (isTokenBoundary_node hs).1

/-- **A removal starts and stops between two tokens.** -/
theorem Declaration.Cut.isTokenBoundary {target : Declaration} {group : DeclGroup} {range : Span}
    (h : Cut target group range) (htarget : target.site ∈ (parse t).root.sites)
    (hgroup : group.site ∈ (parse t).root.sites) :
    t.IsTokenBoundary range.start ∧ t.IsTokenBoundary range.stop := by
  cases h with
  | group => exact ⟨isTokenBoundary_startWithBlanks hgroup, (isTokenBoundary_node hgroup).2⟩
  | sole => exact ⟨isTokenBoundary_startWithBlanks htarget, (isTokenBoundary_node htarget).2⟩
  | first comma rest _ hcomma =>
    exact ⟨(isTokenBoundary_node htarget).1,
      (isTokenBoundary_sibling htarget (.inr (Site.last_mem_after hcomma))).2⟩
  | later comma _ hcomma =>
    exact ⟨(isTokenBoundary_sibling htarget (.inl (Site.mem_of_commaBefore? hcomma).1)).1,
      (isTokenBoundary_node htarget).2⟩

theorem Patch.exists_remove {range : Span} (hstart : t.isBoundary range.start = true)
    (hstop : t.isBoundary range.stop = true) : ∃ q, (Patch.ofText t).remove range = .ok q := by
  have hfits : (Patch.ofText t).fits range = true := by
    simp [fits, ofText, hstart, hstop, Text.le_size_of_isBoundary hstop]
  rw [remove, replace, if_neg (by simp [hfits]), if_neg (by simp [ofText])]
  exact ⟨_, rfl⟩

end

/-! ### Groups and their members -/

namespace Inventory

section

variable {root : Placed} {d d' : Declaration}

/-- The number of a declaration is its place. -/
theorem declaration?_id (h : d ∈ (ofTree root).declarations) :
    (ofTree root).declaration? d.id = some d := by
  obtain ⟨⟨x, id⟩, hmem, rfl⟩ := List.mem_map.1 h
  rw [List.mem_zipIdx_iff_getElem?] at hmem
  simp only [declaration?, ofTree, declarationsAt, List.getElem?_map, List.getElem?_zipIdx, hmem]
  simp

theorem pairwise_id (root : Placed) :
    (ofTree root).declarations.Pairwise fun d d' => d.id < d'.id := by
  have hids : (ofTree root).declarations.map (·.id) = List.range' 0 (found root.sites).length := by
    rw [ofTree, declarationsAt, List.map_map]
    exact List.zipIdx_map_snd 0 (found root.sites)
  rw [← List.pairwise_map (f := Declaration.id) (R := (· < ·)), hids]
  exact List.pairwise_lt_range'

/-- Of two declarations, the one with the higher number follows the other. -/
theorem follows_of_id_lt (hroot : root.Snug) (hd : d ∈ (ofTree root).declarations)
    (hd' : d' ∈ (ofTree root).declarations) (h : d.id < d'.id) :
    Placed.Follows d'.site d.site := by
  obtain ⟨hlt, heq⟩ := List.getElem?_eq_some_iff.1 (declaration?_id hd)
  obtain ⟨hlt', heq'⟩ := List.getElem?_eq_some_iff.1 (declaration?_id hd')
  have hfollows := List.pairwise_iff_getElem.1 (pairwise_declarations hroot) _ _ hlt hlt' h
  rwa [heq, heq'] at hfollows

/-- The sites of all groups. -/
def groupSites (root : Placed) : List Site := root.sites.filter (·.node.isNode .declGroup)

theorem getElem?_groups (root : Placed) (n : Nat) :
    (ofTree root).groups[n]? = ((groupSites root)[n]?).map fun g =>
      ⟨g, ((ofTree root).declarations.filter (·.group = some n)).map (·.id)⟩ := by
  simp only [ofTree, List.getElem?_map, List.getElem?_zipIdx, Option.map_map]
  rw [groupSites, Nat.zero_add]
  rfl

theorem group_eq (hd : d ∈ (ofTree root).declarations) :
    d.group = if d.site.node.isNode .initDeclarator then
      ((groupSites root).map (·.address)).idxOf? d.site.address.tail else none := by
  obtain ⟨x, -, rfl⟩ := List.mem_map.1 hd
  rfl

end

section

variable {t : Text} {s : Site} {d : Declaration}

/-- A member stands in one of the groups. -/
theorem exists_groupSite (hs : s ∈ (parse t).root.sites)
    (hmember : s.node.isNode .initDeclarator = true) :
    ∃ g ∈ groupSites (parse t).root, s.parent? = some g ∧ s.address.tail = g.address := by
  obtain ⟨g, hparent, hgroup⟩ := exists_group hs hmember
  exact ⟨g, List.mem_filter.2 ⟨Site.mem_sites_of_parent? hs hparent, hgroup⟩, hparent,
    Site.tail_address hparent⟩

/-- The group whose number a declaration has is the one that it stands in. -/
theorem parent?_of_group {n : Nat} {g : Site}
    (hd : d ∈ (ofTree (parse t).root).declarations) (hn : d.group = some n)
    (hg : (groupSites (parse t).root)[n]? = some g) :
    d.site.node.isNode .initDeclarator = true ∧ d.site.parent? = some g := by
  rw [group_eq hd] at hn
  split at hn
  · rename_i hmember
    obtain ⟨g', hg', hparent, haddress⟩ := exists_groupSite (mem_declarations hd).1 hmember
    obtain ⟨hlt, hget, -⟩ := List.idxOf?_eq_some_iff.1 hn
    rw [List.getElem_map, (List.getElem?_eq_some_iff.1 hg).2, haddress] at hget
    have hsites {g : Site} (hg : g ∈ groupSites (parse t).root) : g ∈ (parse t).root.sites :=
      (List.mem_filter.1 hg).1
    have heq := Placed.eq_of_path_eq (regular_parse t).snug (hsites (List.mem_of_getElem? hg))
      (hsites hg') (by rw [Site.path, Site.path, hget])
    exact ⟨hmember, heq ▸ hparent⟩
  · cases hn

/-- Whether a group is the one of a member: it lists just the members that stand in it, in the order
of the text. -/
structure IsGroupOf (t : Text) (g : DeclGroup) (d : Declaration) : Prop where
  site_mem : g.site ∈ groupSites (parse t).root
  parent : d.site.parent? = some g.site
  id_mem : d.id ∈ g.members
  sorted : g.members.Pairwise (· < ·)
  members : ∀ id ∈ g.members, ∃ d' ∈ (ofTree (parse t).root).declarations, d'.id = id ∧
    d'.site.node.isNode .initDeclarator = true ∧ d'.site.parent? = some g.site
  complete : ∀ d' ∈ (ofTree (parse t).root).declarations,
    d'.site.node.isNode .initDeclarator = true → d'.site.parent? = some g.site → d'.id ∈ g.members

/-- **A member has a group.** -/
theorem exists_isGroupOf (hd : d ∈ (ofTree (parse t).root).declarations)
    (hmember : d.site.node.isNode .initDeclarator = true) :
    ∃ g, (ofTree (parse t).root).groupOf? d.id = some g ∧ IsGroupOf t g d := by
  obtain ⟨g, hg, hparent, haddress⟩ := exists_groupSite (mem_declarations hd).1 hmember
  obtain ⟨n, hn⟩ : ∃ n, d.group = some n := by
    rw [group_eq hd, if_pos hmember, ← Option.isSome_iff_exists, List.isSome_idxOf?]
    exact List.mem_map.2 ⟨g, hg, haddress.symm⟩
  obtain ⟨g', hg'⟩ : ∃ g', (groupSites (parse t).root)[n]? = some g' := by
    rw [group_eq hd, if_pos hmember] at hn
    obtain ⟨hlt, -⟩ := List.idxOf?_eq_some_iff.1 hn
    rw [List.length_map] at hlt
    exact ⟨_, List.getElem?_eq_getElem hlt⟩
  have hgroup : (ofTree (parse t).root).groupOf? d.id = (ofTree (parse t).root).groups[n]? := by
    simp [groupOf?, declaration?_id hd, hn]
  rw [getElem?_groups, hg', Option.map_some] at hgroup
  refine ⟨_, hgroup, List.mem_of_getElem? hg', (parent?_of_group hd hn hg').2, ?_, ?_,
    fun id hid => ?_, fun d' hd' hmember' hparent' => ?_⟩
  · exact List.mem_map.2 ⟨d, List.mem_filter.2 ⟨hd, by simpa using hn⟩, rfl⟩
  · exact List.pairwise_map.2 ((pairwise_id (parse t).root).sublist List.filter_sublist)
  · obtain ⟨d', hd', rfl⟩ := List.mem_map.1 hid
    obtain ⟨hmem, hn'⟩ := List.mem_filter.1 hd'
    exact ⟨d', hmem, rfl, parent?_of_group hmem (by simpa using hn') hg'⟩
  · -- the number of a group depends on its address only
    have haddress' : d'.site.address.tail = d.site.address.tail := by
      rw [Site.tail_address hparent', Site.tail_address (parent?_of_group hd hn hg').2]
    have hn' : d'.group = some n := by
      rw [← hn, group_eq hd', group_eq hd, if_pos hmember', if_pos hmember, haddress']
    exact List.mem_map.2 ⟨d', List.mem_filter.2 ⟨hd', by simpa using hn'⟩, rfl⟩

namespace IsGroupOf

variable {g : DeclGroup} (h : IsGroupOf t g d)

include h

theorem groupParts : Placed.GroupParts g.site.node.parts := by
  obtain ⟨hsite, hgroup⟩ := List.mem_filter.1 h.site_mem
  exact (Placed.regular_of_mem_subsites (s := ⟨_, []⟩) (regular_parse t) hsite).groupParts hgroup

theorem isChildOf : d.site.isChildOf g.site = true := by
  obtain ⟨start, kind, l, r, -, habove⟩ := Site.parent?_eq_some.1 h.parent
  simp [Site.isChildOf, Site.address, habove]

variable (hd : d ∈ (ofTree (parse t).root).declarations)
  (hmember : d.site.node.isNode .initDeclarator = true)

include hd hmember

/-- A member with a higher number in its group has a comma after it. -/
theorem exists_commaAfter {id : Nat} (hid : id ∈ g.members) (hlt : d.id < id) :
    ∃ x, d.site.commaAfter? = some x := by
  obtain ⟨d', hd', rfl, hmember', hparent'⟩ := h.members id hid
  have hfollows := follows_of_id_lt (regular_parse t).snug hd hd' hlt
  have hplace := Site.lt_of_follows h.parent hparent' hfollows
  exact Site.exists_commaAfter h.parent h.groupParts hmember
    (Site.mem_siblings h.parent hparent' hplace).1 hmember'

/-- A member with a lower number in its group has a comma before it. -/
theorem exists_commaBefore {id : Nat} (hid : id ∈ g.members) (hlt : id < d.id) :
    ∃ x, d.site.commaBefore? = some x := by
  obtain ⟨d', hd', rfl, hmember', hparent'⟩ := h.members id hid
  have hfollows := follows_of_id_lt (regular_parse t).snug hd' hd hlt
  have hplace := Site.lt_of_follows hparent' h.parent hfollows
  exact Site.exists_commaBefore h.parent h.groupParts hmember
    (Site.mem_siblings hparent' h.parent hplace).2 hmember'

/-- **A member can be cut out of its group.** -/
theorem exists_removal : ∃ range, d.removal g = .ok range := by
  obtain ⟨position, hposition⟩ : ∃ position, g.position? d.id = some position := by
    rw [DeclGroup.position?, ← Option.isSome_iff_exists, List.isSome_idxOf?]
    exact h.id_mem
  obtain ⟨hlt, hget, -⟩ := List.idxOf?_eq_some_iff.1 hposition
  have hsorted := List.pairwise_iff_getElem.1 h.sorted
  unfold Declaration.removal
  simp only [hposition, h.isChildOf, Bool.not_true, Bool.false_eq_true, if_false]
  split
  · exact ⟨_, rfl⟩
  rename_i hsingle
  split
  · -- the first of several members: the second one comes after it
    rename_i hzero
    subst hzero
    have hlt' : 1 < g.members.length := by
      simp only [DeclGroup.isSingle, decide_eq_true_eq] at hsingle
      omega
    have hsecond := hsorted 0 1 hlt hlt' Nat.zero_lt_one
    obtain ⟨x, hx⟩ := h.exists_commaAfter hd hmember (List.getElem_mem hlt') (hget ▸ hsecond)
    simp only [hx]
    exact ⟨_, rfl⟩
  · -- a later member: the first one comes before it
    rename_i hzero
    have hfirst := hsorted 0 position (by omega) hlt (by omega)
    obtain ⟨x, hx⟩ := h.exists_commaBefore hd hmember (List.getElem_mem _) (hget ▸ hfirst)
    simp only [hx]
    exact ⟨_, rfl⟩

end IsGroupOf

end

end Inventory

/-! ### Checking an edited text -/

/-- The errors for the labels of a text that stand directly before the end of their block. -/
def Text.labelErrors (t : Text) : List SyntaxError :=
  (parse t).root.danglingLabels.map fun s => ⟨.labelStatement, s⟩

section

variable {before : Placed} {edited : Text}

theorem checkEdit_of_errors (h : (parse edited).errors ≠ []) :
    checkEdit before edited = .error (.diagnostics (parse edited).errors) := by
  unfold checkEdit
  rw [if_pos (by simpa using h)]

theorem checkEdit_of_no_errors (h : (parse edited).errors = []) :
    checkEdit before edited =
      if before.danglingLabels.length < (parse edited).root.danglingLabels.length then
        .error (.diagnostics edited.labelErrors)
      else .ok () := by
  unfold checkEdit
  rw [if_neg (by simp [h])]
  rfl

theorem checkEdit_eq_ok : checkEdit before edited = .ok () ↔
    (parse edited).errors = [] ∧
      (parse edited).root.danglingLabels.length ≤ before.danglingLabels.length := by
  by_cases herrors : (parse edited).errors = []
  · rw [checkEdit_of_no_errors herrors]
    simp [herrors]
  · rw [checkEdit_of_errors herrors]
    simp [herrors]

/-- A text is refused for its syntax errors or, if it has none, for its labels. -/
theorem checkEdit_eq_error {errors : List SyntaxError} :
    checkEdit before edited = .error (.diagnostics errors) ↔
      ((parse edited).errors ≠ [] ∧ errors = (parse edited).errors) ∨
      ((parse edited).errors = [] ∧
        before.danglingLabels.length < (parse edited).root.danglingLabels.length ∧
        errors = edited.labelErrors) := by
  by_cases herrors : (parse edited).errors = []
  · rw [checkEdit_of_no_errors herrors]
    split
    · rename_i hlabels
      rw [Except.error.injEq, EditError.diagnostics.injEq]
      constructor
      · exact fun h => .inr ⟨herrors, hlabels, h.symm⟩
      · rintro (⟨hne, -⟩ | ⟨-, -, rfl⟩)
        · exact absurd herrors hne
        · rfl
    · rename_i hlabels
      simp [herrors, hlabels]
  · rw [checkEdit_of_errors herrors, Except.error.injEq, EditError.diagnostics.injEq]
    constructor
    · exact fun h => .inl ⟨herrors, h.symm⟩
    · rintro (⟨-, rfl⟩ | ⟨hnone, -⟩)
      · rfl
      · exact absurd hnone herrors

theorem checkEdit_cases (before : Placed) (edited : Text) :
    checkEdit before edited = .ok () ∨
      ∃ errors, checkEdit before edited = .error (.diagnostics errors) := by
  by_cases herrors : (parse edited).errors = []
  · rw [checkEdit_of_no_errors herrors]
    split
    · exact .inr ⟨_, rfl⟩
    · exact .inl rfl
  · exact .inr ⟨_, checkEdit_of_errors herrors⟩

end

/-! ### Outcomes -/

/-- A candidate of a program goes with a span of its text, and what the span leaves is checked. -/
theorem Program.exists_cut (p : Program) {d : Declaration}
    (hd : d ∈ (Inventory.ofTree p.root).candidates) :
    ∃ group range out, (Inventory.ofTree p.root).groupOf? d.id = some group ∧
      d.removal group = .ok range ∧ p.text.Without range out ∧
      p.without d group = (checkEdit p.root out).map fun _ => out := by
  obtain ⟨t, root, rfl, hsound⟩ := p
  obtain ⟨hmem, hcandidate⟩ := List.mem_filter.1 hd
  obtain ⟨hsite, hdeclares, -⟩ := Inventory.mem_declarations hmem
  have hkind : d.kind = .var := by simpa using (Bool.and_eq_true_iff.1 hcandidate).1
  have hmember := Inventory.isNode_of_var (hkind ▸ hdeclares)
  obtain ⟨group, hgroup, hof⟩ := Inventory.exists_isGroupOf hmem hmember
  have hgsite := (List.mem_filter.1 hof.site_mem).1
  obtain ⟨range, hrange⟩ := hof.exists_removal hmem hmember
  have hcut := (Declaration.cut_of_removal hrange).2
  have hedges := hcut.isTokenBoundary hsite hgsite
  have hstart := hedges.1.isBoundary
  have hstop := hedges.2.isBoundary
  obtain ⟨patch, hpatch⟩ := Patch.exists_remove hstart hstop
  obtain ⟨happly, -, -⟩ := Patch.apply_of_remove hpatch
  have hle := hcut.start_le_stop (regular_parse t).snug hsite hgsite
  refine ⟨group, range, patch.apply, hgroup, hrange,
    happly ▸ Text.without_of_isBoundary hstart hstop hle, ?_⟩
  simp only [without, Patch.removeDeclaration, hrange, hpatch, bind, Except.bind]
  cases checkEdit _ patch.apply <;> rfl

/-- A counter in range selects a variable and a span that goes with it, and the outcome is that of
checking what the span leaves. -/
theorem removeUnused_of_le (p : Program) (counter : Counter)
    (h : counter ≤ (unusedVariables p.root).length) :
    ∃ u group range out, (unusedVariables p.root)[counter.val - 1]? = some u ∧
      (Inventory.ofTree p.root).groupOf? u.declaration.id = some group ∧
      u.declaration.removal group = .ok range ∧ p.text.Without range out ∧
      removeUnused p (.apply counter) =
        match checkEdit p.root out with
        | .ok _ => .applied out
        | .error error => .failed error := by
  obtain ⟨index, hpos⟩ := counter
  rw [length_unusedVariables] at h
  have hselected := List.getElem?_eq_getElem
    (show index - 1 < (Inventory.ofTree p.root).candidates.length by
      have : index ≤ (Inventory.ofTree p.root).candidates.length := h
      omega)
  obtain ⟨group, range, out, hgroup, hrange, hout, hwithout⟩ :=
    p.exists_cut (List.mem_of_getElem? hselected)
  refine ⟨⟨index - 1 + 1, _⟩, group, range, out, ?_, hgroup, hrange, hout, ?_⟩
  · rw [getElem?_unusedVariables, hselected]
    rfl
  · simp only [removeUnused, Inventory.tally_eq _ hpos]
    rw [if_neg (Nat.not_lt.2 h)]
    simp only [hselected, hgroup, hwithout]
    cases checkEdit p.root out <;> rfl

/-- What a removal comes to. -/
theorem removeUnused_cases (p : Program) (counter : Counter) :
    ((Inventory.ofTree p.root).candidates.length < counter ∧ removeUnused p (.apply counter) =
      .outOfRange counter (Inventory.ofTree p.root).candidates.length) ∨
    (counter ≤ (Inventory.ofTree p.root).candidates.length ∧
      ((∃ out, removeUnused p (.apply counter) = .applied out) ∨
        ∃ errors, removeUnused p (.apply counter) = .failed (.diagnostics errors))) := by
  rcases Nat.lt_or_ge (Inventory.ofTree p.root).candidates.length counter with hlt | hle
  · refine .inl ⟨hlt, ?_⟩
    obtain ⟨index, hpos⟩ := counter
    simp only [removeUnused, Inventory.tally_eq _ hpos]
    rw [if_pos hlt]
  · refine .inr ⟨hle, ?_⟩
    rw [← length_unusedVariables] at hle
    obtain ⟨u, group, range, out, -, -, -, -, houtcome⟩ := removeUnused_of_le p counter hle
    rw [houtcome]
    rcases checkEdit_cases p.root out with hcheck | ⟨errors, hcheck⟩
    · exact .inl ⟨out, by rw [hcheck]⟩
    · exact .inr ⟨errors, by rw [hcheck]⟩

/-- **A removal is refused only for its counter or for errors in the edited program.** With `n` the
number that a query reports, a counter is out of range just if it is more than `n`. Every other one
either gives the edited program or finds errors in it: the removal never ends in a violation, and
its edit is never refused for its span, for its group or for want of a comma. -/
theorem removeUnused_refuses (p : Program) :
    ∃ n, removeUnused p .query = .counted n ∧ ∀ counter : Counter,
      (∀ index count, removeUnused p (.apply counter) = .outOfRange index count ↔
        n < counter ∧ index = counter ∧ count = n) ∧
      (counter ≤ n → (∃ out, removeUnused p (.apply counter) = .applied out) ∨
        ∃ errors, removeUnused p (.apply counter) = .failed (.diagnostics errors)) ∧
      (∀ violation, removeUnused p (.apply counter) ≠ .violated violation) ∧
      ∀ error, removeUnused p (.apply counter) = .failed error →
        ∃ errors, error = .diagnostics errors := by
  refine ⟨_, by rw [removeUnused, Inventory.count_eq], fun counter => ?_⟩
  obtain ⟨hlt, h⟩ | ⟨hle, ⟨out, h⟩ | ⟨errors, h⟩⟩ := removeUnused_cases p counter
  · simp [h, hlt, Nat.not_le.2 hlt, eq_comm]
  · simp [h, Nat.not_lt.2 hle]
  · simp [h, Nat.not_lt.2 hle, eq_comm]

/-- Three unused variables. The first one can be removed; without the last one its label would have
no statement, so that its removal is refused. -/
theorem removeUnused_refuses_label :
    let p := Program.ofText "void f(void) \x7b int *a, b; l: int c; \x7d".toList (by decide +kernel)
    removeUnused p .query = .counted 3 ∧
    (∃ out, removeUnused p (.apply ⟨1, by decide⟩) = .applied out) ∧
    ∃ errors, removeUnused p (.apply ⟨3, by decide⟩) = .failed (.diagnostics errors) := by
  intro p
  obtain ⟨n, hquery, hcounter⟩ := removeUnused_refuses p
  obtain rfl : n = 3 := by
    have hcount : (Inventory.ofTree p.root).count = 3 := by decide +kernel
    rw [removeUnused, hcount] at hquery
    exact (Outcome.counted.inj hquery).symm
  refine ⟨hquery, ((hcounter _).2.1 (by decide)).resolve_right ?_,
    ((hcounter _).2.1 (by decide)).resolve_left ?_⟩
  · rintro ⟨errors, h⟩
    have hout : (removeUnused p (.apply ⟨1, by decide⟩)).output?.isSome = true := by decide +kernel
    rw [h] at hout
    cases hout
  · rintro ⟨out, h⟩
    have hout : (removeUnused p (.apply ⟨3, by decide⟩)).output?.isSome = false := by
      decide +kernel
    rw [h] at hout
    cases hout

end Whittle
