import Mathlib.Data.List.Basic
import Whittle.Proofs.Declaration.Layout
import Whittle.Proofs.Name.Visibility

/-!
# The walk over the sites

The events of a program come from a walk over its sites. `Site.marks` lists what the walk does in
the order of the tree, with the sites in place of the names, and the events are read off it.

* `Mark`: what the walk does at a site.
* `Site.eventsIn_eq`: **the events of a tree are those of its marks.**
-/

namespace Whittle

/-- What the walk over a tree does with names. -/
inductive Mark where
  | opens (s : Site)
  | closes
  | declares (s : Site)
  | uses (s : Site)

namespace Site

/-- The kind of the scope that a site has. -/
def scopeKind (s : Site) : ScopeKind :=
  match s.node.kind with
  | .node .functionDef => .function
  | .node k => (ScopeKind.ofNode? k).getD .file
  | .token _ => .file

/-- What the name that a site declares stands for. -/
def entity? (s : Site) : Option (Leaf × Entity) :=
  s.declares?.map fun (name, kind, _) =>
    (name, if kind = .var then .var name.span s.linkage else .other)

end Site

/-- The events of a mark. -/
def Mark.events : Mark → List Event
  | .opens s => [.opens s.scopeKind]
  | .closes => [.closes]
  | .declares s => s.entity?.toList.map fun (name, entity) => .declares name entity
  | .uses s => s.node.firstToken?.toList.map .uses

namespace Site

/-- The marks before those of the children of a site. -/
def marksBefore (s : Site) : List Mark :=
  if s.isScope && !s.node.isNode .functionDef then [.opens s] else []

/-- The marks directly after those of a child of a site. -/
def marksAfter (s c : Site) : List Mark :=
  if s.node.isNode .functionDef && c.node.isNode .specifiers then [.declares s, .opens s]
  else if s.node.isNode .initDeclarator && c.node.isNode .declarator then [.declares s]
  else []

/-- The marks after those of the children of a site. -/
def marksEnd (s : Site) : List Mark :=
  if s.node.isNode .param || s.node.isNode .enumerator then [.declares s]
  else if s.node.isNode .nameRef then [.uses s]
  else if s.isScope then [.closes]
  else []

/-- What the walk does at and below a site. -/
def marks (s : Site) : List Mark :=
  s.marksBefore ++ s.children.attach.flatMap (fun c => c.1.marks ++ s.marksAfter c.1) ++ s.marksEnd
termination_by sizeOf s.node
decreasing_by exact sizeOf_lt_of_parent? (mem_children.1 c.2)

variable {s c : Site}

theorem marks_eq (s : Site) :
    s.marks = s.marksBefore ++ s.children.flatMap (fun c => c.marks ++ s.marksAfter c) ++
      s.marksEnd := by
  rw [marks]
  simp

@[simp] theorem marks_token (start : Nat) (t : Token) (above : List Crumb) :
    (Site.mk (.token start t) above).marks = [] := by
  rw [marks_eq]
  simp [marksBefore, marksEnd, children, isScope, Placed.kind, Placed.isNode]

theorem marks_of_not_isInner (h : s.node.isInner = false) : s.marks = [] := by
  obtain ⟨node, above⟩ := s
  cases node with
  | token start t => exact marks_token ..
  | node start kind children => cases h

/-! ### Parts after which a name is declared -/

/-- A member of a group starts with its declarator and a definition with its specifiers, and the
name is declared right after that part. -/
theorem exists_head {k part : NodeKind} (hreg : s.node.Regular) (hk : s.node.isNode k = true)
    (hpart : k = .functionDef ∧ part = .specifiers ∨ k = .initDeclarator ∧ part = .declarator) :
    ∃ L X R, s.children = L ++ X :: R ∧ (∀ c ∈ L, c.node.isInner = false) ∧
      X.node.isNode part = true ∧ (∀ c ∈ R, c.node.isNode part = false) ∧ s.point = X.path := by
  have key : ∃ l x r, s.node.children = l ++ x :: r ∧ (∀ c ∈ l, c.isTrivia = true) ∧
      x.isNode part = true ∧ ∀ c ∈ r, c.isNode part = false := by
    obtain ⟨node, above⟩ := s
    cases node with
    | token start t => simp [Placed.isNode, Placed.kind] at hk
    | node start kind children =>
    obtain rfl := Placed.isNode_node.1 hk
    obtain ⟨rfl, rfl⟩ | ⟨rfl, rfl⟩ := hpart
    · obtain ⟨l, x, r, rfl, hl, hx, hr⟩ := hreg.split_functionDef
      exact ⟨l, x, r, rfl, hl, hx, fun c hc => Placed.not_isNode_of_category (hr c hc) (by decide)⟩
    · obtain ⟨l, x, r, rfl, hl, hx, hr⟩ := hreg.split_initDeclarator
      exact ⟨l, x, r, rfl, hl, hx, fun c hc => Placed.not_isNode_of_category (hr c hc) (by decide)⟩
  obtain ⟨l, x, r, hnode, hl, hx, hr⟩ := key
  obtain ⟨L, X, R, hchildren, rfl, rfl, rfl⟩ := children_split hnode
  have hinner : ∀ c ∈ L, c.node.isInner = false := fun c hc =>
    Placed.not_isInner_of_isTrivia (hl c.node (List.mem_map_of_mem hc))
  refine ⟨L, X, R, hchildren, hinner, hx, fun c hc => hr _ (List.mem_map_of_mem hc), ?_⟩
  have hindex : s.node.children.findIdx (·.isNode part) = L.length := by
    have hnone : ¬ (L.map (·.node)).findIdx (·.isNode part) < (L.map (·.node)).length := by
      intro hlt
      obtain ⟨x, hmem, hpart⟩ := List.findIdx_lt_length.1 hlt
      obtain ⟨c, hc, rfl⟩ := List.mem_map.1 hmem
      have hfalse := hinner c hc
      rw [Placed.isInner_of_isNode hpart] at hfalse
      cases hfalse
    rw [hnode, List.findIdx_append, if_neg hnone, List.findIdx_cons, hx]
    simp
  rw [path_of_children hchildren, ← hindex, point]
  have hkind : s.node.kind = .node k := by simpa [Placed.isNode] using hk
  obtain ⟨rfl, rfl⟩ | ⟨rfl, rfl⟩ := hpart <;> rw [hkind]

end Site

/-! ### Events -/

/-- What the events of a part depend on, from what stands around it. -/
def Placed.surroundings (t : Placed) : List Crumb → Surroundings
  | [] => ⟨none, none, none⟩
  | c :: rest => childSurroundings ((c.around t).surroundings rest) c.kind (c.around t)

namespace Site

variable {s c : Site}

/-- What the events of a site depend on besides its node. -/
def surroundings (s : Site) : Surroundings := s.node.surroundings s.above

theorem surroundings_of_parent? (h : c.parent? = some s) {k : NodeKind}
    (hk : s.node.kind = .node k) :
    c.surroundings = Placed.childSurroundings s.surroundings k s.node := by
  obtain ⟨start, kind, l, r, hnode, habove⟩ := parent?_eq_some.1 h
  obtain ⟨node, above⟩ := s
  subst hnode
  cases hk
  simp [surroundings, habove, Placed.surroundings, Crumb.around]

theorem parent_surroundings (s : Site) : s.surroundings.parent = s.parentKind? := by
  obtain ⟨node, above⟩ := s
  cases above <;> rfl

theorem definitionParams_surroundings (s : Site) :
    s.surroundings.definitionParams = s.node.definitionParams? s.above := by
  obtain ⟨node, above⟩ := s
  induction above generalizing node with
  | nil => rfl
  | cons crumb above ih =>
    have hup := ih (crumb.around node)
    simp only [surroundings] at hup
    simp only [surroundings, Placed.surroundings, Placed.childSurroundings,
      Placed.definitionParams?, hup]

/-- What a member of a group declares is what its site declares. -/
theorem memberEvents_eq (h : c.parent? = some s) (hc : c.node.isNode .initDeclarator = true) :
    Placed.memberEvents (s.node.groupTraits s.parentKind?) c.node = Mark.events (.declares c) := by
  have hkind : c.node.kind = .node .initDeclarator := by simpa [Placed.isNode] using hc
  simp only [Placed.memberEvents, Mark.events, entity?, declares?, hkind, Option.pure_def,
    Option.bind_eq_bind]
  cases hdecl : c.node.child? .declarator with
  | none => simp
  | some declarator =>
    cases hname : declarator.declaredName? with
    | none => simp [hname]
    | some name =>
      simp only [hname, Option.bind_some, Option.map_some, Option.toList_some, List.map_cons,
        List.map_nil, memberKind, linkage, h, Placed.groupTraits]
      by_cases htypedef : (s.node.child? .specifiers).any (·.hasToken .kwTypedef) = true
      · simp [htypedef]
      by_cases hparam : s.parentKind? = some .functionDef
      · simp [htypedef, hparam]
      by_cases hfunction : declarator.declaresFunction = true
      · simp [htypedef, hparam, hfunction]
      · simp [htypedef, hparam, hfunction]

/-- The events of some sites, each with the kind of its node. -/
def parts (cs : List Site) : Placed.ChildEvents :=
  cs.map fun c => (c.node.kind, c.marks.flatMap Mark.events)

theorem joined_parts (cs : List Site) :
    (parts cs).joined = cs.flatMap fun c => c.marks.flatMap Mark.events := by
  simp [parts, Placed.ChildEvents.joined, List.flatMap_map]

variable {L R : List Site} {X : Site} {part : NodeKind}

theorem first_parts (hL : ∀ c ∈ L, c.node.isInner = false) (hX : X.node.isNode part = true) :
    (parts (L ++ X :: R)).first part = X.marks.flatMap Mark.events := by
  have hfind : (parts (L ++ X :: R)).find? (·.1 = .node part) =
      some (X.node.kind, X.marks.flatMap Mark.events) := by
    rw [List.find?_eq_some_iff_append]
    refine ⟨hX, parts L, parts R, by simp [parts], fun p hp => ?_⟩
    obtain ⟨c, hc, rfl⟩ := List.mem_map.1 hp
    have hpart := Placed.not_isNode_of_not_isInner part (hL c hc)
    simpa [Placed.isNode] using hpart
  simp [Placed.ChildEvents.first, hfind]

theorem without_parts (hL : ∀ c ∈ L, c.node.isInner = false) (hX : X.node.isNode part = true)
    (hR : ∀ c ∈ R, c.node.isNode part = false) :
    (parts (L ++ X :: R)).without part = R.flatMap fun c => c.marks.flatMap Mark.events := by
  have hfirst : (parts L).joined = [] := by
    rw [joined_parts, List.flatMap_eq_nil_iff]
    intro c hc
    simp [marks_of_not_isInner (hL c hc)]
  have hfilter : (parts (L ++ X :: R)).filter (·.1 ≠ .node part) = parts L ++ parts R := by
    have hkind : X.node.kind = .node part := by simpa [Placed.isNode] using hX
    have hkept : ∀ cs : List Site, (∀ c ∈ cs, c.node.isNode part = false) →
        (parts cs).filter (·.1 ≠ .node part) = parts cs := by
      intro cs hcs
      refine List.filter_eq_self.2 fun p hp => ?_
      obtain ⟨c, hc, rfl⟩ := List.mem_map.1 hp
      simpa [Placed.isNode] using hcs c hc
    have hsplit : parts (L ++ X :: R) =
        parts L ++ (X.node.kind, X.marks.flatMap Mark.events) :: parts R := by simp [parts]
    rw [hsplit, List.filter_append, List.filter_cons_of_neg (by simp [hkind]), hkept R hR,
      hkept L fun c hc => Placed.not_isNode_of_not_isInner part (hL c hc)]
  rw [Placed.ChildEvents.without, hfilter, Placed.ChildEvents.joined, List.flatMap_append]
  exact (congrArg (· ++ _) hfirst).trans (joined_parts R)

theorem marksAfter_of_not_isInner (h : c.node.isInner = false) : s.marksAfter c = [] := by
  simp [marksAfter, Placed.not_isNode_of_not_isInner _ h]

/-- Whether a name may be declared between the children of a site. -/
def hasHead (s : Site) : Bool := s.node.isNode .functionDef || s.node.isNode .initDeclarator

/-- Without names declared between its children, the marks of a site are those of its children, one
after the other. -/
theorem marks_of_plain (h : s.hasHead = false) :
    s.marks = s.marksBefore ++ s.children.flatMap marks ++ s.marksEnd := by
  obtain ⟨hdef, hmember⟩ := Bool.or_eq_false_iff.1 h
  rw [marks_eq]
  simp [marksAfter, hdef, hmember]

/-- If a name is declared after the first part of a site, the marks of the site are those of that
part, those of the declaration, and those of the other parts. -/
theorem marks_of_head (hchildren : s.children = L ++ X :: R)
    (hL : ∀ c ∈ L, c.node.isInner = false) (hafter : ∀ c ∈ R, s.marksAfter c = []) :
    s.marks = s.marksBefore ++ (X.marks ++ s.marksAfter X ++ R.flatMap marks) ++ s.marksEnd := by
  have hfirst : L.flatMap (fun c => c.marks ++ s.marksAfter c) = [] := by
    rw [List.flatMap_eq_nil_iff]
    intro c hc
    rw [marks_of_not_isInner (hL c hc), marksAfter_of_not_isInner (hL c hc), List.append_nil]
  have hrest : R.flatMap (fun c => c.marks ++ s.marksAfter c) = R.flatMap marks := by
    refine List.flatMap_congr fun c hc => ?_
    rw [hafter c hc, List.append_nil]
  rw [marks_eq, hchildren, List.flatMap_append, List.flatMap_cons, hfirst, hrest, List.nil_append]

/-- The marks of a definition: its name is declared and its scope opened after its specifiers. -/
theorem marks_of_functionDef (hreg : s.node.Regular) (h : s.node.isNode .functionDef = true) :
    ∃ L X R, s.children = L ++ X :: R ∧ (∀ c ∈ L, c.node.isInner = false) ∧
      X.node.isNode .specifiers = true ∧ (∀ c ∈ R, c.node.isNode .specifiers = false) ∧
      s.point = X.path ∧
      s.marks = X.marks ++ [.declares s, .opens s] ++ R.flatMap marks ++ [.closes] := by
  obtain ⟨L, X, R, hchildren, hL, hX, hR, hpoint⟩ := exists_head hreg h (.inl ⟨rfl, rfl⟩)
  obtain ⟨start, children, hnode⟩ := Placed.exists_of_isNode h
  have hafter : ∀ c ∈ R, s.marksAfter c = [] := fun c hc => by
    simp [marksAfter, hR c hc, hnode, Placed.isNode_eq_decide]
  refine ⟨L, X, R, hchildren, hL, hX, hR, hpoint, ?_⟩
  rw [marks_of_head hchildren hL hafter]
  simp [marksBefore, marksAfter, marksEnd, hX, hnode, isScope, Placed.kind,
    Placed.isNode_eq_decide]

/-- The marks of a member of a group: its name is declared after its declarator. -/
theorem marks_of_initDeclarator (hreg : s.node.Regular)
    (h : s.node.isNode .initDeclarator = true) :
    ∃ L X R, s.children = L ++ X :: R ∧ (∀ c ∈ L, c.node.isInner = false) ∧
      X.node.isNode .declarator = true ∧ (∀ c ∈ R, c.node.isNode .declarator = false) ∧
      s.point = X.path ∧
      s.marks = X.marks ++ [.declares s] ++ R.flatMap marks := by
  obtain ⟨L, X, R, hchildren, hL, hX, hR, hpoint⟩ := exists_head hreg h (.inr ⟨rfl, rfl⟩)
  obtain ⟨start, children, hnode⟩ := Placed.exists_of_isNode h
  have hafter : ∀ c ∈ R, s.marksAfter c = [] := fun c hc => by
    simp [marksAfter, hR c hc, hnode, Placed.isNode_eq_decide]
  refine ⟨L, X, R, hchildren, hL, hX, hR, hpoint, ?_⟩
  rw [marks_of_head hchildren hL hafter]
  simp [marksBefore, marksAfter, marksEnd, hX, hnode, isScope, Placed.kind,
    Placed.isNode_eq_decide]

/-! ### The events of marks -/

theorem childEvents_eq_map (around : Surroundings) (ts : List Placed) :
    Placed.childEvents around ts = ts.map fun t => (t.kind, t.eventsIn around) := by
  induction ts with
  | nil => rw [Placed.childEvents, List.map_nil]
  | cons t ts ih => rw [Placed.childEvents, ih, List.map_cons]

theorem eventsIn_of_kind {k : NodeKind} (hk : s.node.kind = .node k) :
    s.node.eventsIn s.surroundings = Placed.nodeEvents s.surroundings k s.node
      (Placed.childEvents (Placed.childSurroundings s.surroundings k s.node) s.node.children) := by
  cases hnode : s.node with
  | token start t => simp [hnode, Placed.kind] at hk
  | node start kind children =>
    obtain rfl : kind = k := by simpa [hnode, Placed.kind] using hk
    rw [Placed.eventsIn, Placed.children]

theorem childEvents_children {k : NodeKind} (hk : s.node.kind = .node k)
    (h : ∀ c : Site, c.parent? = some s →
      c.node.eventsIn c.surroundings = c.marks.flatMap Mark.events) :
    Placed.childEvents (Placed.childSurroundings s.surroundings k s.node) s.node.children =
      parts s.children := by
  rw [childEvents_eq_map, ← map_node_children, List.map_map]
  refine List.map_congr_left fun c hc => ?_
  have hparent := mem_children.1 hc
  rw [Function.comp_apply, ← surroundings_of_parent? hparent hk, h c hparent]

/-- The children of a node that holds tokens only are tokens. -/
theorem not_isInner_of_tokens (hreg : s.node.Regular) {k : NodeKind}
    (hk : s.node.isNode k = true) (hholds : k.holds = [.token]) (hc : c.parent? = some s) :
    c.node.isInner = false := by
  obtain ⟨start, children, hnode⟩ := Placed.exists_of_isNode hk
  obtain ⟨_, _, l, r, hnode', -⟩ := parent?_eq_some.1 hc
  by_contra hinner
  rw [hnode] at hreg hnode'
  obtain ⟨rfl, rfl, rfl⟩ := Placed.node.inj hnode'
  have hcategory := hreg.holds_inner (c := c.node) (by simp) (by simpa using hinner)
  rw [hholds, List.mem_singleton] at hcategory
  cases hnode'' : c.node with
  | token start t => simp [hnode''] at hinner
  | node start k' children =>
    rw [hnode'', Placed.category_node] at hcategory
    cases k' <;> cases hcategory

/-- A node that holds tokens only has no marks of children. -/
theorem flatMap_marks_of_tokens (hreg : s.node.Regular) {k : NodeKind}
    (hk : s.node.isNode k = true) (hholds : k.holds = [.token]) : s.children.flatMap marks = [] := by
  rw [List.flatMap_eq_nil_iff]
  intro c hc
  exact marks_of_not_isInner (not_isInner_of_tokens hreg hk hholds (mem_children.1 hc))

/-- What is declared as no variable. -/
theorem events_of_other {name : Option Leaf} (h : s.entity? = name.map (·, .other)) :
    Mark.events (.declares s) = Placed.otherEvents name := by
  cases name <;> simp [Mark.events, h, Placed.otherEvents]

theorem entity?_of_declarator {k : NodeKind} (hk : s.node.kind = .node k)
    (h : k = .functionDef ∨ k = .param) :
    s.entity? = s.node.childDeclaredName?.map (·, .other) := by
  obtain rfl | rfl := h
  · simp only [entity?, declares?, hk, Placed.childDeclaredName?, Option.bind_eq_bind]
    cases s.node.child? .declarator with
    | none => rfl
    | some d => cases h : d.declaredName? <;> simp [h]
  · simp only [entity?, declares?, hk, Placed.childDeclaredName?, Option.bind_eq_bind]
    cases s.node.child? .declarator with
    | none => rfl
    | some d => cases h : d.declaredName? <;> simp [h]

theorem entity?_of_enumerator (hk : s.node.kind = .node .enumerator) :
    s.entity? = ((s.node.child? .name).bind Placed.firstToken?).map (·, .other) := by
  simp only [entity?, declares?, hk, Option.bind_eq_bind]
  cases s.node.child? .name with
  | none => rfl
  | some d => cases h : d.firstToken? <;> simp [h]

/-- What a node without a head does with names. -/
theorem nodeEvents_of_plain (hreg : s.node.Regular) {k : NodeKind} (hk : s.node.kind = .node k)
    (hhead : s.hasHead = false) :
    Placed.nodeEvents s.surroundings k s.node (parts s.children) =
      s.marks.flatMap Mark.events := by
  have hisNode (k' : NodeKind) : s.node.isNode k' = decide (k = k') := by
    simp [Placed.isNode, hk]
  rw [marks_of_plain hhead, List.flatMap_append, List.flatMap_append, List.flatMap_assoc]
  simp only [hasHead, hisNode] at hhead
  cases k with
  | functionDef => cases hhead
  | initDeclarator => cases hhead
  | nameRef =>
    have hnone := flatMap_marks_of_tokens hreg (k := .nameRef) (by simp [hisNode]) rfl
    rw [← List.flatMap_assoc, hnone]
    simp [Placed.nodeEvents, marksBefore, marksEnd, isScope, hk, hisNode, Mark.events]
  | paramList =>
    simp only [Placed.nodeEvents, definitionParams_surroundings, joined_parts]
    by_cases hdef : s.node.definitionParams? s.above = some s.node.start
    · simp [marksBefore, marksEnd, isScope, hk, hisNode, hdef]
    · simp [marksBefore, marksEnd, isScope, hk, hisNode, hdef, Placed.within, Mark.events, scopeKind,
        ScopeKind.ofNode?]
  | param =>
    rw [Placed.nodeEvents, ← events_of_other (entity?_of_declarator hk (.inr rfl)), joined_parts]
    simp [marksBefore, marksEnd, isScope, hk, hisNode]
  | enumerator =>
    rw [Placed.nodeEvents, ← events_of_other (entity?_of_enumerator hk), joined_parts]
    simp [marksBefore, marksEnd, isScope, hk, hisNode]
  | _ =>
    simp [Placed.nodeEvents, marksBefore, marksEnd, isScope, hk, hisNode, joined_parts,
      ScopeKind.ofNode?, Placed.within, Mark.events, scopeKind]

theorem nodeEvents_of_functionDef (hreg : s.node.Regular)
    (hk : s.node.kind = .node .functionDef) :
    Placed.nodeEvents s.surroundings .functionDef s.node (parts s.children) =
      s.marks.flatMap Mark.events := by
  obtain ⟨L, X, R, hchildren, hL, hX, hR, -, hmarks⟩ :=
    marks_of_functionDef hreg (by simp [Placed.isNode, hk])
  rw [Placed.nodeEvents, hchildren, first_parts hL hX, without_parts hL hX hR,
    ← events_of_other (entity?_of_declarator hk (.inl rfl)), hmarks]
  simp [Placed.within, Mark.events, scopeKind, hk, List.flatMap_assoc]

theorem nodeEvents_of_initDeclarator (hreg : s.node.Regular)
    (hk : s.node.kind = .node .initDeclarator) {g : Site} (hparent : s.parent? = some g)
    (hg : g.node.kind = .node .declGroup) :
    Placed.nodeEvents s.surroundings .initDeclarator s.node (parts s.children) =
      s.marks.flatMap Mark.events := by
  have hmember : s.node.isNode .initDeclarator = true := by simp [Placed.isNode, hk]
  have hgroup : s.surroundings.group = some (g.node.groupTraits g.parentKind?) := by
    rw [surroundings_of_parent? hparent hg, ← parent_surroundings]
    rfl
  obtain ⟨L, X, R, hchildren, hL, hX, hR, -, hmarks⟩ := marks_of_initDeclarator hreg hmember
  simp only [Placed.nodeEvents, hgroup]
  rw [hchildren, first_parts hL hX, without_parts hL hX hR, memberEvents_eq hparent hmember, hmarks]
  simp [List.flatMap_assoc]

/-- **The events of a node are those of its marks.** -/
theorem eventsIn_eq {t : Text} (s : Site) (hs : s ∈ (parse t).root.sites) :
    s.node.eventsIn s.surroundings = s.marks.flatMap Mark.events := by
  induction s using Site.induction with
  | h s ih =>
  have hreg := Placed.regular_of_mem_subsites (s := ⟨_, []⟩) (regular_parse t) hs
  obtain ⟨k, hk⟩ := Placed.exists_kind (isInner_of_mem_subsites (s := ⟨_, []⟩) hs)
  have hchildren (c : Site) (hc : c.parent? = some s) :
      c.node.eventsIn c.surroundings = c.marks.flatMap Mark.events := by
    cases hinner : c.node.isInner with
    | true =>
      exact ih c hc (mem_sites_of_mem_subsites hs (mem_subsites_of_parent? hc hinner))
    | false =>
      obtain ⟨node, above⟩ := c
      cases node with
      | token start t => simp [Placed.eventsIn]
      | node start kind children => cases hinner
  rw [eventsIn_of_kind hk, childEvents_children hk hchildren]
  by_cases hdef : k = .functionDef
  · subst hdef
    exact nodeEvents_of_functionDef hreg hk
  by_cases hmember : k = .initDeclarator
  · subst hmember
    obtain ⟨g, hparent, hg⟩ := exists_group hs (by simp [Placed.isNode, hk])
    exact nodeEvents_of_initDeclarator hreg hk hparent (by simpa [Placed.isNode] using hg)
  · refine nodeEvents_of_plain hreg hk ?_
    simp [hasHead, Placed.isNode, hk, hdef, hmember]

end Site

end Whittle
