import Whittle.Proofs.Declaration.Transfer

/-!
# Names carried over

The walk over a tree carried over meets the same names, each carried over. Names are compared with
each other and with nothing else, so an injective change of spelling leaves the outcome as it is.

* `Transfer.eventsIn_placed`: **the events of the tree carried over are the events, carried over.**
* `Transfer.step_event`: one step of the resolution, and `ofEvents_map`: all of them.
* `Transfer.references_placed`: **the same variables are used.**
-/

namespace Whittle

namespace Transfer

variable (T : Transfer)

/-! ### Events -/

/-- What a name stands for, carried over. -/
def entity : Entity → Entity
  | .var decl linkage => .var (T.span decl) linkage
  | .other => .other

/-- An event carried over. -/
def event : Event → Event
  | .opens kind => .opens kind
  | .closes => .closes
  | .declares name e => .declares (T.leaf name) (T.entity e)
  | .uses name => .uses (T.leaf name)

/-- Surroundings carried over. -/
def surroundings (around : Surroundings) : Surroundings :=
  { around with definitionParams := around.definitionParams.map T.move }

/-- The events of children carried over. -/
def childEvents (parts : Placed.ChildEvents) : Placed.ChildEvents :=
  parts.map fun part => (part.1, part.2.map T.event)

theorem joined_childEvents (parts : Placed.ChildEvents) :
    Placed.ChildEvents.joined (T.childEvents parts) =
      (Placed.ChildEvents.joined parts).map T.event := by
  simp [Placed.ChildEvents.joined, childEvents, List.flatMap_map, List.map_flatMap]

theorem first_childEvents (kind : NodeKind) (parts : Placed.ChildEvents) :
    Placed.ChildEvents.first kind (T.childEvents parts) =
      (Placed.ChildEvents.first kind parts).map T.event := by
  rw [Placed.ChildEvents.first, Placed.ChildEvents.first, childEvents, List.find?_map]
  change ((Option.map _ (parts.find? (·.1 = .node kind))).map _).getD [] = _
  cases parts.find? (·.1 = .node kind) <;> rfl

theorem without_childEvents (kind : NodeKind) (parts : Placed.ChildEvents) :
    Placed.ChildEvents.without kind (T.childEvents parts) =
      (Placed.ChildEvents.without kind parts).map T.event := by
  rw [Placed.ChildEvents.without, Placed.ChildEvents.without, ← joined_childEvents, childEvents,
    childEvents, List.filter_map]
  rfl

theorem otherEvents_map (name : Option Leaf) :
    Placed.otherEvents (name.map T.leaf) = (Placed.otherEvents name).map T.event := by
  cases name <;> rfl

theorem within_map (kind : ScopeKind) (events : List Event) :
    Placed.within kind (events.map T.event) = (Placed.within kind events).map T.event := by
  simp [Placed.within, event]

theorem groupTraits_placed (parent : Option NodeKind) (group : Placed) :
    (T.placed group).groupTraits parent = group.groupTraits parent := by
  simp only [Placed.groupTraits, specified_placed]

theorem childSurroundings_placed (around : Surroundings) (kind : NodeKind) (t : Placed) :
    Placed.childSurroundings (T.surroundings around) kind (T.placed t) =
      T.surroundings (Placed.childSurroundings around kind t) := by
  have hparams : (((T.placed t).child? .declarator).bind Placed.functionParams?).map (·.start) =
      (((t.child? .declarator).bind Placed.functionParams?).map (·.start)).map T.move := by
    rw [child?_placed]
    cases t.child? .declarator with
    | none => rfl
    | some c =>
      rw [Option.map_some, Option.bind_some, Option.bind_some, functionParams?_placed]
      cases c.functionParams? with
      | none => rfl
      | some params => simp
  simp only [Placed.childSurroundings, surroundings, hparams, groupTraits_placed,
    Surroundings.mk.injEq, true_and, and_true]
  split <;> rfl

theorem memberEvents_placed (group : GroupTraits) (member : Placed)
    (h : ∀ l ∈ member.leaves, T.Fits l) :
    (T.placed member).memberEvents group = (member.memberEvents group).map T.event := by
  rw [Placed.memberEvents, Placed.memberEvents, child?_placed]
  cases hc : member.child? .declarator with
  | none => rfl
  | some c =>
    simp only [Option.map_some, declaredName?_placed, declaresFunction_placed]
    cases hname : c.declaredName? with
    | none => rfl
    | some name =>
      have hmem := Placed.leaves_subset_of_child? hc (Placed.mem_leaves_of_declaredName? hname)
      simp only [Option.map_some, List.map_cons, List.map_nil, event, T.span_leaf (h name hmem)]
      split <;> rfl

/-- The events of a node are carried over with those of its children. -/
theorem nodeEvents_placed (around : Surroundings) (kind : NodeKind) (t : Placed)
    (parts : Placed.ChildEvents) (h : ∀ l ∈ t.leaves, T.Fits l) :
    Placed.nodeEvents (T.surroundings around) kind (T.placed t) (T.childEvents parts) =
      (Placed.nodeEvents around kind t parts).map T.event := by
  cases kind with
  | functionDef =>
    simp only [Placed.nodeEvents, first_childEvents, without_childEvents, childDeclaredName?_placed,
      otherEvents_map, within_map, List.map_append]
  | initDeclarator =>
    have hgroup : (T.surroundings around).group = around.group := rfl
    simp only [Placed.nodeEvents, hgroup]
    cases around.group with
    | none => exact T.joined_childEvents parts
    | some group =>
      simp only [first_childEvents, without_childEvents, T.memberEvents_placed group t h,
        List.map_append]
  | param =>
    simp only [Placed.nodeEvents, joined_childEvents, childDeclaredName?_placed, otherEvents_map,
      List.map_append]
  | enumerator =>
    simp only [Placed.nodeEvents, joined_childEvents, enumeratorName?_placed, otherEvents_map,
      List.map_append]
  | nameRef =>
    rw [Placed.nodeEvents, Placed.nodeEvents, firstToken?_placed]
    cases t.firstToken? <;> rfl
  | paramList =>
    -- the one place at which positions are compared
    have hparams : (T.surroundings around).definitionParams = some (T.move t.start) ↔
        around.definitionParams = some t.start := by
      change around.definitionParams.map T.move = _ ↔ _
      cases around.definitionParams with
      | none => simp
      | some n =>
        rw [Option.map_some, Option.some_inj, Option.some_inj]
        exact ⟨T.move_injective n t.start, congrArg T.move⟩
    simp only [Placed.nodeEvents, start_placed, hparams, joined_childEvents, within_map]
    split <;> rfl
  | _ => simp only [Placed.nodeEvents, ScopeKind.ofNode?, joined_childEvents, within_map]

mutual

/-- **The events of the tree carried over are the events, carried over.** -/
theorem eventsIn_placed (around : Surroundings) (t : Placed) (h : ∀ l ∈ t.leaves, T.Fits l) :
    (T.placed t).eventsIn (T.surroundings around) = (t.eventsIn around).map T.event := by
  cases t with
  | token start k => rfl
  | node start kind children =>
    have hchildren := childEvents_placed
      (Placed.childSurroundings around kind (.node start kind children)) children h
    have hnode := T.nodeEvents_placed around kind (.node start kind children)
      (Placed.childEvents (Placed.childSurroundings around kind (.node start kind children))
        children) h
    rw [← hchildren, ← childSurroundings_placed] at hnode
    rw [placed_node, Placed.eventsIn, Placed.eventsIn, ← hnode, placed_node]

theorem childEvents_placed (around : Surroundings) (ts : List Placed)
    (h : ∀ l ∈ Placed.leavesAll ts, T.Fits l) :
    Placed.childEvents (T.surroundings around) (ts.map T.placed) =
      T.childEvents (Placed.childEvents around ts) := by
  cases ts with
  | nil => rfl
  | cons t ts =>
    rw [Placed.leavesAll_cons, List.forall_mem_append] at h
    have hfirst := eventsIn_placed around t h.1
    have hrest := childEvents_placed around ts h.2
    rw [List.map_cons, Placed.childEvents, Placed.childEvents, hfirst, hrest, kind_placed]
    rfl

end

/-! ### Resolution -/

/-- A scope carried over. -/
def scope (s : Scope) : Scope :=
  ⟨s.kind, s.names.map fun (name, e) => (T.word name, T.entity e)⟩

/-- What is known, carried over. -/
def resolution (r : Resolution) : Resolution :=
  { scopes := r.scopes.map T.scope
    linked := r.linked.map fun (name, span) => (T.word name, T.span span)
    linkedUses := r.linkedUses.map T.word
    uses := r.uses.map T.span }

theorem beq_word (v w : Text) : (T.word v == T.word w) = (v == w) := by
  rw [Bool.eq_iff_iff, beq_iff_eq, beq_iff_eq]
  exact ⟨T.word_injective v w, congrArg T.word⟩

theorem find?_scope (s : Scope) (name : Text) :
    (T.scope s).find? (T.word name) = (s.find? name).map T.entity := by
  rw [Scope.find?, Scope.find?, scope]
  induction s.names with
  | nil => rfl
  | cons x names ih =>
    rw [List.map_cons, List.lookup_cons, List.lookup_cons, ih, beq_word]
    split <;> rfl

theorem find?_resolution (r : Resolution) (name : Text) :
    (T.resolution r).find? (T.word name) = (r.find? name).map T.entity := by
  rw [Resolution.find?, Resolution.find?, resolution]
  induction r.scopes with
  | nil => rfl
  | cons s scopes ih =>
    rw [List.map_cons, List.findSome?_cons, List.findSome?_cons, find?_scope, ih]
    cases s.find? name <;> rfl

/-- One step on an event carried over leads to what is known, carried over. -/
theorem step_event (r : Resolution) (e : Event) :
    (T.resolution r).step (T.event e) = T.resolution (r.step e) := by
  cases e with
  | opens kind => rfl
  | closes => simp [Resolution.step, resolution, event]
  | declares name entity =>
    simp only [Resolution.step, event, Resolution.declare, resolution, text_leaf,
      Resolution.mk.injEq, and_true]
    constructor
    · cases r.scopes <;> rfl
    · cases entity with
      | other => rfl
      | var decl linkage => cases linkage <;> rfl
  | uses name =>
    simp only [Resolution.step, event, Resolution.use, text_leaf, find?_resolution]
    cases r.find? name.text with
    | none => rfl
    | some entity =>
      cases entity with
      | other => rfl
      | var decl linkage => cases linkage <;> rfl

/-- All events carried over lead to what is known in the end, carried over. -/
theorem ofEvents_map (es : List Event) :
    Resolution.ofEvents (es.map T.event) = T.resolution (Resolution.ofEvents es) := by
  have hrun (r : Resolution) : (es.map T.event).foldl Resolution.step (T.resolution r) =
      T.resolution (es.foldl Resolution.step r) := by
    induction es generalizing r with
    | nil => rfl
    | cons e es ih => rw [List.map_cons, List.foldl_cons, List.foldl_cons, step_event, ih]
  exact hrun Resolution.initial

theorem references_resolution (r : Resolution) :
    (T.resolution r).references = r.references.map T.span := by
  have hcontains (name : Text) :
      (r.linkedUses.map T.word).contains (T.word name) = r.linkedUses.contains name := by
    rw [Bool.eq_iff_iff, List.contains_iff_mem, List.contains_iff_mem, List.mem_map]
    constructor
    · rintro ⟨w, hw, heq⟩
      rwa [← T.word_injective w name heq]
    · exact fun h => ⟨name, h, rfl⟩
  simp only [Resolution.references, resolution, List.map_append, List.filter_map, List.map_map,
    Function.comp_def, hcontains]

/-- **The same variables are used in the tree carried over.** -/
theorem references_placed (root : Placed) (h : ∀ l ∈ root.leaves, T.Fits l) :
    references (T.placed root) = (references root).map T.span := by
  have hevents : (T.placed root).events = root.events.map T.event :=
    T.eventsIn_placed ⟨none, none, none⟩ root h
  rw [references, references, hevents, ofEvents_map, references_resolution]

end Transfer

end Whittle
