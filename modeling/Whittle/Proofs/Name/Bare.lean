import Whittle.Proofs.Declaration.Bare
import Whittle.Proofs.Name.Declared

/-!
# Names of bare trees

The walk over a bare tree meets the same names as the walk over the tree with its trivia, each at
its moved position, and so resolves them in the same way. The walk compares positions at one place
only, the parameter list of a definition, which has no scope of its own: positions that keep
significant tokens apart keep parameter lists apart.

* `Site.eventsIn_bare`: **the events of a bare tree are those of the tree, moved.**
* `Resolution.ofEvents_move`: moved events resolve to moved variables.
* `references_bare`: **the same variables are used.**
-/

namespace Whittle

/-! ### Moved events -/

/-- What a name stands for, with its position moved. -/
def Entity.move (f : Nat → Nat) : Entity → Entity
  | .var decl linkage => .var (decl.move f) linkage
  | .other => .other

/-- An event with its positions moved. -/
def Event.move (f : Nat → Nat) : Event → Event
  | .opens kind => .opens kind
  | .closes => .closes
  | .declares name entity => .declares (name.move f) (entity.move f)
  | .uses name => .uses (name.move f)

/-- Surroundings with their positions moved. -/
def Surroundings.move (f : Nat → Nat) (around : Surroundings) : Surroundings :=
  { around with definitionParams := around.definitionParams.map f }

namespace Placed

variable {f : Nat → Nat}

theorem otherEvents_move (f : Nat → Nat) (name : Option Leaf) :
    otherEvents (name.map (Leaf.move f)) = (otherEvents name).map (Event.move f) := by
  cases name <;> rfl

theorem within_move (f : Nat → Nat) (kind : ScopeKind) (events : List Event) :
    within kind (events.map (Event.move f)) = (within kind events).map (Event.move f) := by
  simp [within, Event.move]

theorem groupTraits_bare (f : Nat → Nat) (parent : Option NodeKind) (group : Placed) :
    (group.bare f).groupTraits parent = group.groupTraits parent := by
  simp only [groupTraits, specified_bare f group (k := .kwTypedef) rfl,
    specified_bare f group (k := .kwExtern) rfl]

theorem childSurroundings_bare (f : Nat → Nat) (around : Surroundings) (kind : NodeKind)
    (t : Placed) :
    childSurroundings (around.move f) kind (t.bare f) =
      (childSurroundings around kind t).move f := by
  have hparams : ((t.bare f).child? .declarator).bind functionParams? =
      ((t.child? .declarator).bind functionParams?).map (bare f) := by
    rw [child?_bare]
    cases t.child? .declarator with
    | none => rfl
    | some c => exact functionParams?_bare f c
  simp only [childSurroundings, Surroundings.move, hparams, groupTraits_bare, Option.map_map,
    Surroundings.mk.injEq, true_and, and_true]
  split
  · rw [Option.map_map]
    congr 1
    funext c
    exact start_bare f c
  · rfl

/-- Whether one list holds the events of the other moved, however they are put together. -/
structure ChildEvents.Moved (f : Nat → Nat) (parts parts' : ChildEvents) : Prop where
  joined : parts'.joined = parts.joined.map (Event.move f)
  first : ∀ k, parts'.first k = (parts.first k).map (Event.move f)
  without : ∀ k, parts'.without k = (parts.without k).map (Event.move f)

theorem eventsIn_of_isTrivia {c : Placed} (around : Surroundings) (h : c.isTrivia = true) :
    c.eventsIn around = [] := by
  cases c with
  | token start t => rw [eventsIn]
  | node start kind children => cases h

section

variable {around around' : Surroundings} {ts : List Placed}

/-- The events of some of the children are moved if those of each child are. -/
theorem joined_filter_bareAll (p : Kind → Bool)
    (h : ∀ c ∈ ts, (c.bare f).eventsIn around' = (c.eventsIn around).map (Event.move f)) :
    ChildEvents.joined ((childEvents around' (bareAll f ts)).filter (p ·.1)) =
      (ChildEvents.joined ((childEvents around ts).filter (p ·.1))).map (Event.move f) := by
  induction ts with
  | nil => rfl
  | cons c ts ih =>
    have hc := h c List.mem_cons_self
    have hrest := ih fun c' hc' => h c' (List.mem_cons_of_mem c hc')
    cases htrivia : c.isTrivia with
    | true =>
      rw [bareAll_cons_of_trivia ts htrivia, hrest, childEvents, eventsIn_of_isTrivia _ htrivia,
        List.filter_cons]
      split <;> simp [ChildEvents.joined]
    | false =>
      rw [bareAll_cons ts htrivia, childEvents, childEvents, List.filter_cons, List.filter_cons, hc,
        kind_bare]
      simp only [ChildEvents.joined] at hrest ⊢
      split <;> simp [hrest]

theorem first_bareAll (k : NodeKind)
    (h : ∀ c ∈ ts, (c.bare f).eventsIn around' = (c.eventsIn around).map (Event.move f)) :
    ChildEvents.first k (childEvents around' (bareAll f ts)) =
      (ChildEvents.first k (childEvents around ts)).map (Event.move f) := by
  induction ts with
  | nil => rfl
  | cons c ts ih =>
    have hc := h c List.mem_cons_self
    have hrest := ih fun c' hc' => h c' (List.mem_cons_of_mem c hc')
    cases htrivia : c.isTrivia with
    | true =>
      have hkind : c.kind ≠ .node k := by
        cases c with
        | token start t => simp [kind]
        | node start kind children => cases htrivia
      rw [bareAll_cons_of_trivia ts htrivia, hrest]
      simp [childEvents, ChildEvents.first, hkind]
    | false =>
      rw [bareAll_cons ts htrivia, childEvents, childEvents, hc, kind_bare]
      simp only [ChildEvents.first] at hrest ⊢
      by_cases hkind : c.kind = .node k
      · simp [hkind]
      · simp [hkind, hrest]

theorem moved_childEvents
    (h : ∀ c ∈ ts, (c.bare f).eventsIn around' = (c.eventsIn around).map (Event.move f)) :
    ChildEvents.Moved f (childEvents around ts) (childEvents around' (bareAll f ts)) where
  joined := by simpa using joined_filter_bareAll (fun _ => true) h
  first k := first_bareAll k h
  without k := joined_filter_bareAll (fun kind => kind ≠ .node k) h

end

end Placed

/-! ### Tokens at which nodes start -/

section

variable {t : Text} {s : Site} {f : Nat → Nat}

/-- The first token of a node other than the root is significant and starts where the node does. -/
theorem mem_leaves_of_firstToken? (hs : s ∈ (parse t).root.sites) {k : NodeKind}
    (hk : s.node.isNode k = true) (hroot : k ≠ .root) {l : Leaf}
    (hl : s.node.firstToken? = some l) :
    l ∈ (parse t).root.leaves ∧ l.token.isTrivia = false ∧ l.start = s.node.start := by
  have hregular := Placed.regular_of_mem_subsites (s := ⟨_, []⟩) (regular_parse t) hs
  have hhead := Placed.head?_leaves_of_firstToken? s.node hl
  refine ⟨?_, ?_, (Placed.firstToken?_span s.node hregular.snug hl).1⟩
  · obtain ⟨before, after, hleaves, -⟩ := Site.runIn (regular_parse t).snug hs
    rw [hleaves]
    simp [List.mem_of_head? hhead]
  · have htrimmed := trimmed_of_isNode hs hk hroot
    obtain ⟨start, children, hnode⟩ := Placed.exists_of_isNode hk
    rw [hnode, Placed.Trimmed] at htrimmed
    rw [hnode, Placed.leaves_node] at hhead
    exact htrimmed.1 l.token (by rw [List.head?_map, hhead]; rfl)

/-! ### The walk -/

namespace Site

theorem exists_leaf_of_paramList (hs : s ∈ (parse t).root.sites)
    (hk : s.node.isNode .paramList = true) :
    ∃ l ∈ (parse t).root.leaves, l.token.isTrivia = false ∧ l.start = s.node.start := by
  have hreg := Placed.regular_of_mem_subsites (s := ⟨_, []⟩) (regular_parse t) hs
  obtain ⟨start, children, hnode⟩ := Placed.exists_of_isNode hk
  rw [hnode] at hreg
  obtain ⟨x, rest, rfl, hx⟩ := hreg.paramList_first
  cases x with
  | node start k children => cases hx
  | token xstart u =>
    have hfirst : s.node.firstToken? = some ⟨xstart, u⟩ := by
      rw [hnode, Placed.firstToken?, Placed.firstTokenOf?, Placed.firstToken?]
    obtain ⟨hmem, htrivia, hstart⟩ := mem_leaves_of_firstToken? hs hk (by simp) hfirst
    exact ⟨_, hmem, htrivia, hstart⟩

/-- The parameters of the definition around a site are a parameter list of the tree. -/
theorem exists_paramList (hs : s ∈ (parse t).root.sites) {n : Nat}
    (h : s.surroundings.definitionParams = some n) :
    ∃ u ∈ (parse t).root.sites, u.node.isNode .paramList = true ∧ u.node.start = n := by
  rw [definitionParams_surroundings] at h
  obtain ⟨g, hg, -, c, p, hc, hp, hstart⟩ := exists_of_definitionParams? hs h
  obtain ⟨d, hd, rfl, hdecl⟩ := exists_of_child? hg hc
  obtain ⟨hparams, u, rfl, hleads⟩ := exists_params hdecl hp
  exact ⟨u, mem_sites_of_mem_subsites hd hleads.mem, hparams, hstart⟩

/-- Whether a parameter list is that of the definition around it can be told by moved positions. -/
theorem definitionParams_move (hf : (parse t).root.Separates f) (hs : s ∈ (parse t).root.sites)
    (hk : s.node.isNode .paramList = true) :
    s.surroundings.definitionParams.map f = some (f s.node.start) ↔
      s.surroundings.definitionParams = some s.node.start := by
  constructor
  · -- both lists begin with their parenthesis, and moved positions keep these apart
    intro h
    obtain ⟨n, hn, hfn⟩ := Option.map_eq_some_iff.1 h
    obtain ⟨u, hu, hparams, rfl⟩ := exists_paramList hs hn
    obtain ⟨l, hl, hsig, hlstart⟩ := exists_leaf_of_paramList hs hk
    obtain ⟨l', hl', hsig', hlstart'⟩ := exists_leaf_of_paramList hu hparams
    rw [hn, ← hlstart, ← hlstart']
    exact congrArg some (hf l' hl' l hl hsig' hsig (by rw [hlstart, hlstart', hfn]))
  · intro h
    rw [h, Option.map_some]

theorem memberEvents_bare (f : Nat → Nat) (hs : s ∈ (parse t).root.sites) (group : GroupTraits) :
    (s.node.bare f).memberEvents group = (s.node.memberEvents group).map (Event.move f) := by
  rw [Placed.memberEvents, Placed.memberEvents, Placed.child?_bare]
  cases hc : s.node.child? .declarator with
  | none => rfl
  | some c =>
    obtain ⟨u, hu, rfl, hk⟩ := exists_of_child? hs hc
    simp only [Option.map_some, declaredName?_bare f hu hk, Placed.declaresFunction_bare]
    cases u.node.declaredName? with
    | none => rfl
    | some name =>
      simp only [Option.map_some, List.map_cons, List.map_nil, Event.move]
      split
      · rfl
      · simp [Entity.move]

/-- The events of a node are moved if those of its children are. -/
theorem nodeEvents_bare (hf : (parse t).root.Separates f) (hs : s ∈ (parse t).root.sites)
    {k : NodeKind} (hk : s.node.isNode k = true) {parts parts' : Placed.ChildEvents}
    (h : Placed.ChildEvents.Moved f parts parts') :
    Placed.nodeEvents (s.surroundings.move f) k (s.node.bare f) parts' =
      (Placed.nodeEvents s.surroundings k s.node parts).map (Event.move f) := by
  have hname : (s.node.bare f).childDeclaredName? =
      s.node.childDeclaredName?.map (Leaf.move f) := childDeclaredName?_bare f hs
  cases k with
  | functionDef =>
    simp only [Placed.nodeEvents, h.first, h.without, hname, Placed.otherEvents_move,
      Placed.within_move, List.map_append]
  | initDeclarator =>
    simp only [Placed.nodeEvents, Surroundings.move]
    cases s.surroundings.group with
    | none => exact h.joined
    | some group => simp only [h.first, h.without, memberEvents_bare f hs, List.map_append]
  | param =>
    simp only [Placed.nodeEvents, h.joined, hname, Placed.otherEvents_move, List.map_append]
  | enumerator =>
    simp only [Placed.nodeEvents, h.joined, firstToken?_child_bare f hs, Placed.otherEvents_move,
      List.map_append]
  | nameRef =>
    rw [Placed.nodeEvents, Placed.nodeEvents,
      Placed.firstToken?_bare f s.node (trimmed_of_isNode hs hk (by simp))]
    cases s.node.firstToken? <;> rfl
  | paramList =>
    simp only [Placed.nodeEvents, Placed.start_bare, Surroundings.move,
      definitionParams_move hf hs hk, h.joined, Placed.within_move]
    split <;> rfl
  | _ => simp only [Placed.nodeEvents, ScopeKind.ofNode?, h.joined, Placed.within_move]

/-- **The events of a bare tree are those of the tree, moved.** -/
theorem eventsIn_bare (hf : (parse t).root.Separates f) (s : Site)
    (hs : s ∈ (parse t).root.sites) :
    (s.node.bare f).eventsIn (s.surroundings.move f) =
      (s.node.eventsIn s.surroundings).map (Event.move f) := by
  -- on the sites below; the surroundings of a child are read off the node around it
  induction s using Site.induction with
  | h s ih =>
  have hchild (k : NodeKind) (hk : s.node.kind = .node k) (c : Placed) (hc : c ∈ s.node.children) :
      (c.bare f).eventsIn ((Placed.childSurroundings s.surroundings k s.node).move f) =
        (c.eventsIn (Placed.childSurroundings s.surroundings k s.node)).map (Event.move f) := by
    obtain ⟨u, hparent, rfl⟩ := exists_child hc
    rw [← surroundings_of_parent? hparent hk]
    cases hinner : u.node.isInner with
    | true =>
      have hu := mem_subsites_of_parent? hparent hinner
      exact ih u hparent (mem_sites_of_mem_subsites hs hu)
    | false =>
      obtain ⟨node, above⟩ := u
      cases node with
      | token start t => simp [Placed.eventsIn]
      | node start kind children => cases hinner
  have hinner := isInner_of_mem_subsites (s := ⟨_, []⟩) hs
  cases hnode : s.node with
  | token start t => simp [hnode] at hinner
  | node start k children =>
    have hk : s.node.kind = .node k := by rw [hnode, Placed.kind]
    have hmoved := Placed.moved_childEvents (hchild k hk)
    have hevents := nodeEvents_bare hf hs (k := k) (by simp [Placed.isNode, hk]) hmoved
    rw [← Placed.childSurroundings_bare, hnode, Placed.children] at hevents
    rw [Placed.bare_node, Placed.eventsIn, Placed.eventsIn]
    exact hevents

end Site

theorem events_bare (hf : (parse t).root.Separates f) :
    ((parse t).root.bare f).events = (parse t).root.events.map (Event.move f) := by
  have hroot : (⟨(parse t).root, []⟩ : Site) ∈ (parse t).root.sites := by
    exact Site.mem_subsites_self (s := ⟨(parse t).root, []⟩) rfl
  exact Site.eventsIn_bare hf ⟨(parse t).root, []⟩ hroot

end

/-! ### Resolution -/

/-- A scope with its positions moved. -/
def Scope.move (f : Nat → Nat) (s : Scope) : Scope :=
  ⟨s.kind, s.names.map fun (name, entity) => (name, entity.move f)⟩

namespace Resolution

/-- What is known, with its positions moved. -/
def move (f : Nat → Nat) (r : Resolution) : Resolution :=
  { scopes := r.scopes.map (Scope.move f)
    linked := r.linked.map fun (name, span) => (name, span.move f)
    linkedUses := r.linkedUses
    uses := r.uses.map (Span.move f) }

theorem scope_find?_move (f : Nat → Nat) (s : Scope) (name : Text) :
    (s.move f).find? name = (s.find? name).map (Entity.move f) := by
  rw [Scope.find?, Scope.find?, Scope.move]
  induction s.names with
  | nil => rfl
  | cons x names ih =>
    rw [List.map_cons, List.lookup_cons, List.lookup_cons, ih]
    split <;> rfl

theorem find?_move (f : Nat → Nat) (r : Resolution) (name : Text) :
    (r.move f).find? name = (r.find? name).map (Entity.move f) := by
  rw [find?, find?, move]
  induction r.scopes with
  | nil => rfl
  | cons s scopes ih =>
    rw [List.map_cons, List.findSome?_cons, List.findSome?_cons, scope_find?_move, ih]
    cases s.find? name <;> rfl

/-- One step on moved events leads to what is known, moved. -/
theorem step_move (f : Nat → Nat) (r : Resolution) (e : Event) :
    (r.move f).step (e.move f) = (r.step e).move f := by
  cases e with
  | opens kind => rfl
  | closes => simp [step, move, Event.move]
  | declares name entity =>
    simp only [step, Event.move, declare, move, Leaf.text_move, Resolution.mk.injEq, and_true]
    constructor
    · cases r.scopes <;> rfl
    · cases entity with
      | other => rfl
      | var decl linkage => cases linkage <;> rfl
  | uses name =>
    simp only [step, Event.move, use, find?_move, Leaf.text_move]
    cases r.find? name.text with
    | none => rfl
    | some entity =>
      cases entity with
      | other => rfl
      | var decl linkage => cases linkage <;> rfl

/-- **Moved events resolve to moved variables.** -/
theorem ofEvents_move (f : Nat → Nat) (es : List Event) :
    ofEvents (es.map (Event.move f)) = (ofEvents es).move f := by
  have key (r : Resolution) : (es.map (Event.move f)).foldl step (r.move f) =
      (es.foldl step r).move f := by
    induction es generalizing r with
    | nil => rfl
    | cons e es ih => rw [List.map_cons, List.foldl_cons, List.foldl_cons, step_move, ih]
  exact key initial

theorem references_move (f : Nat → Nat) (r : Resolution) :
    (r.move f).references = r.references.map (Span.move f) := by
  simp [references, move, List.filter_map, Function.comp_def]

end Resolution

/-- **The same variables are used** in the bare tree, at their moved positions. -/
theorem references_bare {t : Text} {f : Nat → Nat} (hf : (parse t).root.Separates f) :
    references ((parse t).root.bare f) = (references (parse t).root).map (Span.move f) := by
  rw [references, references, events_bare hf, Resolution.ofEvents_move, Resolution.references_move]

end Whittle
