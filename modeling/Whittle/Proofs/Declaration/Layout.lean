import Whittle.Proofs.Tree.Leaves

/-!
# What declarations are made of

The order of the parts of groups and definitions, where groups, members and definitions stand, and
where nodes begin. All of this holds in the tree of every text, also of malformed ones.

* `Placed.parts`: the parts of a node that are no trivia.
* `Placed.GroupParts`: specifiers, then members with single commas between them, then perhaps a
  semicolon.
* `Placed.DefinitionParts`: specifiers, a declarator, declarations of parameters, and perhaps a
  body.
* `clearAhead_of_above`: no node below the root begins with trivia.
* `declarations_laid_out`: **what counting, resolving and removing take for granted about
  declarations.**
-/

namespace Whittle

open Shape

namespace Placed

variable {start : Nat} {kind : NodeKind} {children : List Placed} {c p : Placed}

/-! ### Parts that are no trivia -/

/-- The parts of a node that are no trivia. -/
def parts (t : Placed) : List Placed := t.children.filter fun c => !c.isTrivia

theorem mem_parts {t : Placed} : c ∈ t.parts ↔ c ∈ t.children ∧ c.isTrivia = false := by
  simp [parts]

theorem shapesAll_filter (cs : List Placed) :
    shapesAll (cs.filter fun c => !c.isTrivia) = shapesAll cs := by
  induction cs with
  | nil => rfl
  | cons c cs ih =>
    cases hc : c.isTrivia with
    | true => simp [hc, ih, shapesAll, shapes_of_isTrivia hc]
    | false => simp [hc, ih, shapesAll]

theorem isNode_of_shapes {x : Shape} {k : NodeKind} (h : p.shapes = [x])
    (hx : x.category = .part k) : p.isNode k = true :=
  isNode_of_category ((category_of_shapes h).trans hx)

theorem isToken_of_shapes {k : TokenKind} (h : p.shapes = [.leaf k]) : p.isToken k = true := by
  cases p with
  | token start t =>
    rw [shapes, Token.shapes] at h
    split at h
    · cases h
    · simp only [List.cons.injEq, Shape.leaf.injEq, and_true] at h
      simp [isToken, Placed.kind, h]
  | node start kind children => simp [shapes] at h

/-- Of parts without trivia, the first one has the first shape. -/
theorem exists_cons_of_shapesAll {ps : List Placed} (hps : ∀ p ∈ ps, p.isTrivia = false)
    {x : Shape} {xs : List Shape} (h : shapesAll ps = x :: xs) :
    ∃ p rest, ps = p :: rest ∧ p.shapes = [x] ∧ shapesAll rest = xs ∧
      ∀ p ∈ rest, p.isTrivia = false := by
  cases ps with
  | nil => simp [shapesAll] at h
  | cons p rest =>
    obtain ⟨hp, hrest⟩ := List.forall_mem_cons.1 hps
    obtain ⟨y, hy, -⟩ := shapes_of_not_isTrivia hp
    rw [shapesAll, hy, List.singleton_append, List.cons.injEq] at h
    exact ⟨p, rest, rfl, by rw [hy, h.1], h.2, hrest⟩

theorem eq_nil_of_shapesAll {ps : List Placed} (hps : ∀ p ∈ ps, p.isTrivia = false)
    (h : shapesAll ps = []) : ps = [] := by
  refine List.eq_nil_iff_forall_not_mem.2 fun p hp => ?_
  have htrivia := isTrivia_of_shapesAll h p hp
  rw [hps p hp] at htrivia
  cases htrivia

theorem exists_of_isNode {k : NodeKind} (h : p.isNode k = true) :
    ∃ start children, p = node start k children := by
  cases p with
  | token start t => cases h
  | node start kind children => exact ⟨start, children, by rw [isNode_node.1 h]⟩

/-! ### Groups -/

/-- Further members of a group, each after a comma. -/
inductive FurtherMembers : List Placed → Prop
  | nil : FurtherMembers []
  | cons {comma x : Placed} {rest : List Placed} (hcomma : comma.isToken .comma = true)
      (hx : x.isNode .initDeclarator = true) (hrest : FurtherMembers rest) :
      FurtherMembers (comma :: x :: rest)

/-- The parts of a declaration group. -/
def GroupParts (ps : List Placed) : Prop :=
  ∃ x members stop, ps = x :: (members ++ stop) ∧ x.isNode .specifiers = true ∧
    (members = [] ∨ ∃ m rest, members = m :: rest ∧ m.isNode .initDeclarator = true ∧
      FurtherMembers rest) ∧
    (stop = [] ∨ ∃ semicolon, stop = [semicolon] ∧ semicolon.isToken .semicolon = true)

/-- The parts of a function definition. -/
def DefinitionParts (ps : List Placed) : Prop :=
  ∃ x d groups body, ps = x :: d :: (groups ++ body) ∧ x.isNode .specifiers = true ∧
    d.isNode .declarator = true ∧ (∀ g ∈ groups, g.isNode .declGroup = true) ∧
    (body = [] ∨ ∃ b, body = [b] ∧ b.isNode .compoundStmt = true)

theorem furtherMembers_of_shapes {xs : List Shape} (h : Further xs) {ps : List Placed}
    (hps : ∀ p ∈ ps, p.isTrivia = false) (hshapes : shapesAll ps = xs) : FurtherMembers ps := by
  induction h generalizing ps with
  | nil => rw [eq_nil_of_shapesAll hps hshapes]; exact .nil
  | cons hx hxs ih =>
    obtain ⟨comma, ps, rfl, hcomma, hshapes, hps⟩ := exists_cons_of_shapesAll hps hshapes
    obtain ⟨m, ps, rfl, hm, hshapes, hps⟩ := exists_cons_of_shapesAll hps hshapes
    exact .cons (isToken_of_shapes hcomma) (isNode_of_shapes hm hx) (ih hps hshapes)

namespace Regular

theorem admits_parts {k : NodeKind} (h : c.Regular) (hc : c.isNode k = true) :
    k.Admits (shapesAll c.parts) := by
  obtain ⟨start, children, rfl⟩ := exists_of_isNode hc
  rw [parts, Placed.children, shapesAll_filter]
  exact h.admits

theorem groupParts (h : c.Regular) (hc : c.isNode .declGroup = true) : GroupParts c.parts := by
  have hps : ∀ p ∈ c.parts, p.isTrivia = false := fun p hp => (mem_parts.1 hp).2
  obtain ⟨x, members, stop, hshapes, hx, hmembers, hstop⟩ := h.admits_parts hc
  obtain ⟨p, ps, hparts, hp, hshapes, hps⟩ := exists_cons_of_shapesAll hps hshapes
  obtain ⟨ms, qs, rfl, hms, hqs⟩ := exists_of_shapesAll_append hshapes
  rw [List.forall_mem_append] at hps
  refine ⟨p, ms, qs, hparts, isNode_of_shapes hp hx, ?_, ?_⟩
  · cases hmembers with
    | nil => exact .inl (eq_nil_of_shapesAll hps.1 hms)
    | cons hm hfurther =>
      obtain ⟨m, rest, rfl, hm', hrest, hps'⟩ := exists_cons_of_shapesAll hps.1 hms
      exact .inr ⟨m, rest, rfl, isNode_of_shapes hm' hm,
        furtherMembers_of_shapes hfurther hps' hrest⟩
  · obtain rfl | rfl := hstop
    · exact .inl (eq_nil_of_shapesAll hps.2 hqs)
    · obtain ⟨semicolon, rest, rfl, hsemicolon, hrest, hps'⟩ := exists_cons_of_shapesAll hps.2 hqs
      rw [eq_nil_of_shapesAll hps' hrest]
      exact .inr ⟨semicolon, rfl, isToken_of_shapes hsemicolon⟩

theorem definitionParts (h : c.Regular) (hc : c.isNode .functionDef = true) :
    DefinitionParts c.parts := by
  have hps : ∀ p ∈ c.parts, p.isTrivia = false := fun p hp => (mem_parts.1 hp).2
  obtain ⟨x, d, body, hshapes, hx, hd, groups, block, rfl, hgroups, hblock⟩ := h.admits_parts hc
  obtain ⟨p, ps, hparts, hp, hshapes, hps⟩ := exists_cons_of_shapesAll hps hshapes
  obtain ⟨q, ps, rfl, hq, hshapes, hps⟩ := exists_cons_of_shapesAll hps hshapes
  obtain ⟨gs, bs, rfl, hgs, hbs⟩ := exists_of_shapesAll_append hshapes
  rw [List.forall_mem_append] at hps
  refine ⟨p, q, gs, bs, hparts, isNode_of_shapes hp hx, isNode_of_shapes hq hd, fun g hg => ?_, ?_⟩
  · have hcategory := within_shapesAll.1 (hgs ▸ hgroups) g hg
    rw [hps.1 g hg] at hcategory
    exact isNode_of_category (by simpa using hcategory)
  · obtain rfl | ⟨b, rfl, hb⟩ := hblock
    · exact .inl (eq_nil_of_shapesAll hps.2 hbs)
    · obtain ⟨b', rest, rfl, hb', hrest, hps'⟩ := exists_cons_of_shapesAll hps.2 hbs
      rw [eq_nil_of_shapesAll hps' hrest]
      exact .inr ⟨b', rfl, isNode_of_shapes hb' hb⟩

/-- A member that does not begin with trivia begins with its declarator, and has no other. -/
theorem declarator_first (h : p.Regular) (hp : p.isNode .initDeclarator = true)
    (hclear : Token.ClearAhead (p.leaves.map (·.token))) :
    ∃ x rest, p.children = x :: rest ∧ x.isNode .declarator = true ∧
      ∀ c ∈ rest, c.isNode .declarator = false := by
  obtain ⟨start, children, rfl⟩ := exists_of_isNode hp
  obtain ⟨l, x, r, rfl, hl, hx, hr⟩ := h.split_initDeclarator
  cases l with
  | nil =>
    refine ⟨x, r, rfl, hx, fun c hc => ?_⟩
    obtain htrivia | hcategory := hr c hc
    · cases c with
      | token start t => rfl
      | node start kind children => cases htrivia
    · cases hnode : c.isNode .declarator with
      | false => rfl
      | true =>
        rw [category_of_isNode hnode] at hcategory
        simp [NodeKind.category] at hcategory
  | cons c l =>
    -- trivia before the declarator would be the first token
    have hc := hl c (List.mem_cons_self ..)
    cases c with
    | token start t =>
      have hfirst := hclear t (by simp)
      rw [isTrivia_token, hfirst] at hc
      cases hc
    | node start kind children => cases hc

end Regular

/-! ### Where nodes begin -/

mutual

/-- Whether no node of a part begins with trivia. -/
def Trimmed : Placed → Prop
  | .token _ _ => True
  | .node _ _ children =>
    Token.ClearAhead ((leavesAll children).map (·.token)) ∧ TrimmedAll children

/-- Whether no node of some parts begins with trivia. -/
def TrimmedAll : List Placed → Prop
  | [] => True
  | t :: ts => t.Trimmed ∧ TrimmedAll ts

end

theorem TrimmedAll.of_mem {ts : List Placed} (h : TrimmedAll ts) (hc : c ∈ ts) : c.Trimmed := by
  induction ts with
  | nil => cases hc
  | cons t ts ih =>
    rw [TrimmedAll] at h
    obtain rfl | hc := List.mem_cons.1 hc
    · exact h.1
    · exact ih h.2 hc

end Placed

namespace Tree

mutual

theorem trimmed_place (start : Nat) (t : Tree) (h : t.Trimmed) : (t.place start).Trimmed := by
  cases t with
  | token t => simp [place, Placed.Trimmed]
  | node kind children =>
    rw [Trimmed] at h
    rw [place, Placed.Trimmed, leavesAll_placeAll, Leaf.map_token_layout]
    exact ⟨h.1, trimmedAll_placeAll start children h.2⟩

theorem trimmedAll_placeAll (start : Nat) (ts : List Tree) (h : TrimmedAll ts) :
    Placed.TrimmedAll (placeAll start ts) := by
  cases ts with
  | nil => simp [placeAll, Placed.TrimmedAll]
  | cons t ts =>
    rw [TrimmedAll] at h
    rw [placeAll, Placed.TrimmedAll]
    exact ⟨trimmed_place start t h.1, trimmedAll_placeAll _ ts h.2⟩

end

end Tree

variable {t : Text} {s : Site}

/-- The nodes below the root are trimmed. -/
theorem trimmed_of_above (hs : s ∈ (parse t).root.sites) (habove : s.above ≠ []) :
    s.node.Trimmed := by
  have key : ∀ s ∈ (parse t).root.sites, Placed.TrimmedAll s.node.children ∧
      (s.above ≠ [] → s.node.Trimmed) := by
    refine Placed.sites_induction (fun u c hu hc hinner => ?_) fun _ => ⟨?_, by simp⟩
    · obtain ⟨start, kind, l, r, hnode, -⟩ := Site.parent?_eq_some.1 hc
      have hmem : c.node ∈ u.node.children := by simp [hnode, Placed.children]
      have htrimmed := hu.1.of_mem hmem
      refine ⟨?_, fun _ => htrimmed⟩
      cases hnode' : c.node with
      | token start t => simp [hnode', Placed.isInner] at hinner
      | node start kind children =>
        rw [hnode', Placed.Trimmed] at htrimmed
        exact htrimmed.2
    · obtain ⟨ts, htree, hts⟩ := trimmed_parse t
      rw [Parsed.root, htree, Tree.place, Placed.children]
      exact Tree.trimmedAll_placeAll 0 ts hts
  exact (key s hs).2 habove

/-- **No node below the root begins with trivia.** -/
theorem clearAhead_of_above (hs : s ∈ (parse t).root.sites) (habove : s.above ≠ []) :
    Token.ClearAhead (s.node.leaves.map (·.token)) := by
  have htrimmed := trimmed_of_above hs habove
  have hinner := Site.isInner_of_mem_subsites (s := ⟨(parse t).root, []⟩) hs
  cases hnode : s.node with
  | token start t => simp [hnode] at hinner
  | node start kind children =>
    rw [hnode, Placed.Trimmed] at htrimmed
    rw [Placed.leaves_node]
    exact htrimmed.1

/-! ### Where declarations stand -/

/-- The kinds of nodes that hold groups. -/
def NodeKind.groupHolders : List NodeKind :=
  [.root, .compoundStmt, .forStmt, .labeledStmt, .caseStmt, .functionDef]

theorem NodeKind.eq_declGroup_of_holds {k : NodeKind} (h : .part .initDeclarator ∈ k.holds) :
    k = .declGroup := by
  cases k <;> simp [holds] at h ⊢

theorem NodeKind.mem_groupHolders_of_holds {k : NodeKind} (h : .part .declGroup ∈ k.holds) :
    k ∈ groupHolders := by
  cases k <;> simp [holds, groupHolders] at h ⊢

theorem NodeKind.eq_root_of_holds {k : NodeKind} (h : .part .functionDef ∈ k.holds) :
    k = .root := by
  cases k <;> simp [holds] at h ⊢

/-- A node other than the root has a node above it that may hold it. -/
theorem exists_parentKind (hs : s ∈ (parse t).root.sites) {k : NodeKind}
    (hk : s.node.isNode k = true) (hroot : k ≠ .root) :
    ∃ above, s.parentKind? = some above ∧ k.category ∈ above.holds := by
  cases habove : s.above with
  | nil =>
    have hkind := (isNode_root_iff hs).2 habove
    simp only [Placed.isNode, decide_eq_true_eq] at hk hkind
    rw [hk] at hkind
    exact absurd (Kind.node.inj hkind) hroot
  | cons c rest =>
    have hparent : s.parentKind? = some c.kind := by simp [Site.parentKind?, habove]
    refine ⟨c.kind, hparent, ?_⟩
    rw [← Placed.category_of_isNode hk]
    exact Site.category_mem_holds (regular_parse t) hs hparent

/-- A node other than the root stands in a node that may hold it. -/
theorem exists_parent (hs : s ∈ (parse t).root.sites) {k : NodeKind} (hk : s.node.isNode k = true)
    (hroot : k ≠ .root) :
    ∃ g above, s.parent? = some g ∧ g.node.isNode above = true ∧ k.category ∈ above.holds := by
  obtain ⟨above, hkind, hholds⟩ := exists_parentKind hs hk hroot
  cases hparent : s.parent? with
  | none => simp [Site.parentKind?, Site.parent?_eq_none.1 hparent] at hkind
  | some g =>
    obtain ⟨start, kind, l, r, hnode, habove⟩ := Site.parent?_eq_some.1 hparent
    obtain rfl : kind = above := by simpa [Site.parentKind?, habove] using hkind
    exact ⟨g, kind, rfl, by simp [hnode], hholds⟩

/-- A member stands in a group. -/
theorem exists_group (hs : s ∈ (parse t).root.sites)
    (hmember : s.node.isNode .initDeclarator = true) :
    ∃ g, s.parent? = some g ∧ g.node.isNode .declGroup = true := by
  obtain ⟨g, above, hparent, hnode, hholds⟩ := exists_parent hs hmember (by simp)
  obtain rfl := NodeKind.eq_declGroup_of_holds hholds
  exact ⟨g, hparent, hnode⟩

/-- **How declarations are laid out** in the tree of a text, sound or not. A group is its
specifiers, members with single commas between them, and perhaps a semicolon; a definition is its
specifiers, a declarator, declarations of parameters, and perhaps a body. A member stands in a group
and begins with its only declarator; a group stands in a file, a block, a `for` loop, after a label
or in a definition; a definition stands in the file. No node but the root begins with trivia. -/
theorem declarations_laid_out (t : Text) (s : Site) (hs : s ∈ (parse t).root.sites) :
    (s.node.isNode .declGroup = true → Placed.GroupParts s.node.parts ∧
      ∃ k ∈ NodeKind.groupHolders, s.parentKind? = some k) ∧
    (s.node.isNode .initDeclarator = true → s.parentKind? = some .declGroup ∧
      ∃ x rest, s.node.children = x :: rest ∧ x.isNode .declarator = true ∧
        ∀ c ∈ rest, c.isNode .declarator = false) ∧
    (s.node.isNode .functionDef = true → Placed.DefinitionParts s.node.parts ∧
      s.parentKind? = some .root) ∧
    (s.above ≠ [] → ∀ l, s.node.leaves.head? = some l → l.token.isTrivia = false) := by
  have hregular := Placed.regular_of_mem_subsites (s := ⟨(parse t).root, []⟩) (regular_parse t) hs
  refine ⟨fun h => ?_, fun h => ?_, fun h => ?_, fun h l hl => ?_⟩
  · obtain ⟨k, hk, hholds⟩ := exists_parentKind hs h (by simp)
    exact ⟨hregular.groupParts h, k, NodeKind.mem_groupHolders_of_holds hholds, hk⟩
  · obtain ⟨k, hk, hholds⟩ := exists_parentKind hs h (by simp)
    obtain rfl := NodeKind.eq_declGroup_of_holds hholds
    refine ⟨hk, hregular.declarator_first h (clearAhead_of_above hs fun habove => ?_)⟩
    simp [Site.parentKind?, habove] at hk
  · obtain ⟨k, hk, hholds⟩ := exists_parentKind hs h (by simp)
    obtain rfl := NodeKind.eq_root_of_holds hholds
    exact ⟨hregular.definitionParts h, hk⟩
  · refine clearAhead_of_above hs h l.token ?_
    rw [List.head?_map, hl]
    rfl

/-- A second member with no name before its initializer, in a group that is never ended. -/
theorem declarations_laid_out_nameless :
    let t := "int a /* c */ , = 3 \x7d".toList
    (parse t).errors ≠ [] ∧
      (∃ s ∈ (parse t).root.sites, s.node.isNode .declGroup = true ∧
        Placed.GroupParts s.node.parts) ∧
      ∃ s ∈ (parse t).root.sites, s.node.isNode .initDeclarator = true ∧
        Leaf.concat s.node.leaves = "= 3".toList ∧ s.parentKind? = some .declGroup ∧
        ∃ x rest, s.node.children = x :: rest ∧ x.isNode .declarator = true := by
  intro t
  have hgroup : (parse t).root.sites.any (·.node.isNode .declGroup) = true := by decide +kernel
  have hmember : (parse t).root.sites.any (fun s => s.node.isNode .initDeclarator &&
      decide (Leaf.concat s.node.leaves = "= 3".toList)) = true := by decide +kernel
  obtain ⟨g, hg, hisGroup⟩ := List.any_eq_true.1 hgroup
  obtain ⟨m, hm, hisMember⟩ := List.any_eq_true.1 hmember
  rw [Bool.and_eq_true, decide_eq_true_eq] at hisMember
  obtain ⟨hparent, x, rest, hchildren, hx, -⟩ := (declarations_laid_out t m hm).2.1 hisMember.1
  exact ⟨by decide +kernel, ⟨g, hg, hisGroup, ((declarations_laid_out t g hg).1 hisGroup).1⟩,
    m, hm, hisMember.1, hisMember.2, hparent, x, rest, hchildren, hx⟩

end Whittle
