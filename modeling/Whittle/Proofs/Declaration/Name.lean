import Whittle.Declaration.Basic
import Whittle.Proofs.Tree.Regular

/-!
# Where declared names stand

The name that a declarator declares may lie deep within parentheses, but it stands before all
suffixes of the levels around it, and so before everything else that is declared below the
declarator.

* `Placed.Names`: a part holds a name, and what is declared below the part comes after the name.
* `Placed.names_of_declaredName?`: **this is so for declarators.**
* `Site.names_disjoint`: **the names that the sites of a tree declare do not overlap.**
* `Site.name_before_name`: the names of the members of groups stand in the order of their sites.
-/

namespace Whittle

/-- The kinds of nodes that may declare a name. -/
def NodeKind.isDeclaring : NodeKind → Bool
  | .initDeclarator | .param | .functionDef | .enumerator => true
  | _ => false

namespace Placed

variable {start : Nat} {kind : NodeKind} {children l r : List Placed} {c t : Placed} {name : Leaf}
  {above : List Crumb} {cats : List Category}

/-- Whether a part is a node that may declare a name. -/
def isDeclaring : Placed → Bool
  | .token _ _ => false
  | .node _ kind _ => kind.isDeclaring

/-! ### Parts of a node -/

theorem not_isNode_of_category {k : NodeKind} (h : c.isTrivia = true ∨ c.category ∈ cats)
    (hk : k.category ∉ cats) : c.isNode k = false := by
  by_contra hne
  have hnode : c.isNode k = true := by simpa using hne
  obtain h | h := h
  · simp [not_isTrivia_of_isInner (isInner_of_isNode hnode)] at h
  · exact hk (category_of_isNode hnode ▸ h)

/-- The first child of a kind, and what stands before and after it. -/
theorem child?_eq_some {k : NodeKind} (h : t.child? k = some c) :
    ∃ l r, t.children = l ++ c :: r ∧ c.isNode k = true ∧ ∀ x ∈ l, x.isNode k = false := by
  obtain ⟨hc, l, r, ht, hl⟩ := List.find?_eq_some_iff_append.1 h
  exact ⟨l, r, ht, hc, by simpa using hl⟩

theorem child?_of_children {k : NodeKind} (ht : t.children = l ++ c :: r)
    (hc : c.isNode k = true) (hl : ∀ x ∈ l, x.isNode k = false) : t.child? k = some c :=
  List.find?_eq_some_iff_append.2 ⟨hc, l, r, ht, by simpa using hl⟩

mutual

/-- The first token of a part starts where the part starts. -/
theorem firstToken?_span (t : Placed) (h : t.Snug) (hname : t.firstToken? = some name) :
    name.start = t.start ∧ name.start < name.span.stop ∧ name.span.stop ≤ t.stop := by
  cases t with
  | token start t =>
    rw [firstToken?, Option.some.injEq] at hname
    rw [Snug] at h
    subst hname
    exact ⟨rfl, by simp [Leaf.span, h], by simp [Leaf.span]⟩
  | node start kind children =>
    rw [firstToken?] at hname
    simpa using firstTokenOf?_span children (snug_node.1 h) hname

theorem firstTokenOf?_span {first : Nat} (ts : List Placed) (h : SnugFrom first ts)
    (hname : firstTokenOf? ts = some name) :
    name.start = first ∧ name.start < name.span.stop ∧ name.span.stop ≤ stopAll first ts := by
  cases ts with
  | nil => simp [firstTokenOf?] at hname
  | cons t ts =>
    rw [firstTokenOf?] at hname
    obtain ⟨hstart, ht, hts⟩ := snugFrom_cons.1 h
    obtain ⟨heq, hlt, hle⟩ := firstToken?_span t ht hname
    exact ⟨by omega, hlt, by simpa using Nat.le_trans hle (le_stopAll ts hts)⟩

end

/-- A node that holds tokens only has no other nodes below it. -/
theorem Regular.sitesUnder_of_tokens (h : (node start kind children).Regular)
    (hkind : kind.holds = [.token]) :
    (node start kind children).sitesUnder above = [⟨node start kind children, above⟩] := by
  rw [sitesUnder, List.cons.injEq]
  refine ⟨rfl, List.eq_nil_iff_forall_not_mem.2 fun s hs => ?_⟩
  obtain ⟨l, c, r, rfl, hc⟩ := mem_sitesAmong.1 hs
  cases c with
  | token start t => simp [sitesUnder] at hc
  | node start k children =>
    have hcat := h.holds_inner (c := node start k children) (by simp) rfl
    rw [hkind, List.mem_singleton] at hcat
    cases k <;> cases hcat

/-! ### Names of declarators -/

/-- Whether a part holds a name such that all that is declared below the part comes after it. -/
structure Names (c : Placed) (name : Leaf) : Prop where
  start_le : c.start ≤ name.start
  nonempty : name.start < name.span.stop
  stop_le : name.span.stop ≤ c.stop
  before : ∀ above, ∀ t ∈ c.sitesUnder above, t.node.isDeclaring = true →
    name.span.stop ≤ t.node.start

/-- The first token of a node without nodes. -/
theorem names_of_firstToken? (h : c.Regular) (hc : c.isNode .name = true)
    (hname : c.firstToken? = some name) : c.Names name := by
  cases c with
  | token start t => simp [isNode, Placed.kind] at hc
  | node start kind children =>
    obtain rfl := isNode_node.1 hc
    obtain ⟨heq, hlt, hle⟩ := firstToken?_span _ h.snug hname
    refine ⟨by omega, hlt, hle, fun above t ht hdecl => ?_⟩
    rw [h.sitesUnder_of_tokens rfl, List.mem_singleton] at ht
    subst ht
    cases hdecl

/-- Stars and attributes declare nothing. -/
theorem not_isDeclaring_of_prefix (h : c.Regular)
    (hcat : c.isTrivia = true ∨ c.category ∈ [.token, .part .attr]) :
    ∀ t ∈ c.sitesUnder above, t.node.isDeclaring = false := by
  intro t ht
  cases c with
  | token start t => simp [sitesUnder] at ht
  | node start kind children =>
    have hkind : kind = .attr := by
      cases kind <;> simp [NodeKind.category] at hcat <;> rfl
    subst hkind
    rw [h.sitesUnder_of_tokens rfl, List.mem_singleton] at ht
    subst ht
    rfl

/-- A name of a part is a name of the node around it, if nothing is declared before the part. -/
theorem Names.around (h : (node start kind (l ++ c :: r)).Regular) (hc : c.Names name)
    (hkind : kind.isDeclaring = false)
    (hl : ∀ x ∈ l, ∀ above, ∀ t ∈ x.sitesUnder above, t.node.isDeclaring = false) :
    (node start kind (l ++ c :: r)).Names name := by
  have hsnug := snug_node.1 h.snug
  obtain ⟨hstart, -, hstop⟩ := snugFrom_middle hsnug
  have hstart' := hc.start_le
  have hstop' := hc.stop_le
  refine ⟨by simp; omega, hc.nonempty, by simp; omega, fun above t ht hdecl => ?_⟩
  obtain rfl | ⟨l', x, r', hchildren, htx⟩ := mem_sitesUnder_node.1 ht
  · simp [isDeclaring, hkind] at hdecl
  have hx : x ∈ l ++ c :: r := by simp [hchildren]
  obtain hx | hx := List.mem_append.1 hx
  · simp [hl x hx _ t htx] at hdecl
  obtain rfl | hx := List.mem_cons.1 hx
  · exact hc.before _ t htx hdecl
  · -- after the part
    have hxstart := stop_le_of_snugFrom hsnug hx
    have hxsnug := (snugFrom_mem hsnug (t := x) (by simp [hx])).2.1
    have htstart : x.start ≤ t.node.start :=
      (Site.span_of_mem_subsites (s := ⟨x, _⟩) hxsnug htx).2.1
    omega

theorem nestedLevels_append (h : ∀ c ∈ l, c.isNode .nestedDeclarator = false) :
    nestedLevels (l ++ r) = nestedLevels r := by
  induction l with
  | nil => rfl
  | cons c l ih =>
    rw [List.forall_mem_cons] at h
    rw [List.cons_append, nestedLevels]
    · exact ih h.2
    · rintro start inner rfl
      simp [isNode, Placed.kind] at h

theorem innerLevels_append (hl : ∀ x ∈ l, x.isNode .declarator = false)
    (hc : c.isNode .declarator = true) :
    innerLevels (l ++ c :: r) = c.declaratorLevels := by
  induction l with
  | nil => simp [innerLevels, hc]
  | cons x l ih =>
    rw [List.forall_mem_cons] at hl
    simp [innerLevels, hl.1, ih hl.2]

/-- A declarator without inner parentheses declares the name among its parts. -/
theorem declaredName?_of_not_nested
    (h : ∀ c ∈ children, c.isNode .nestedDeclarator = false) :
    (node start kind children).declaredName? =
      ((node start kind children).child? .name).bind firstToken? := by
  have hlevels := nestedLevels_append (r := []) h
  rw [List.append_nil] at hlevels
  simp [declaredName?, declaratorLevels, hlevels, nestedLevels]

/-- A declarator with parentheses declares what the declarator within them declares. -/
theorem declaredName?_of_nested {start' : Nat} {l' r' : List Placed}
    (hl : ∀ x ∈ l, x.isNode .nestedDeclarator = false)
    (hl' : ∀ x ∈ l', x.isNode .declarator = false) (hc : c.isNode .declarator = true) :
    (node start kind (l ++ node start' .nestedDeclarator (l' ++ c :: r') :: r)).declaredName? =
      c.declaredName? := by
  cases c with
  | token start t => simp [isNode, Placed.kind] at hc
  | node start k children =>
    simp only [declaredName?, declaratorLevels, nestedLevels_append hl, nestedLevels,
      innerLevels_append hl' hc]
    cases nestedLevels children <;> rfl

/-- Whether parts may stand before the name or the parentheses of a declarator: trivia, stars and
attributes. -/
def IsHead (l : List Placed) : Prop :=
  ∀ c ∈ l, c.isTrivia = true ∨ c.category ∈ [.token, .part .attr]

/-- What declares a name stands directly below a declarator or within parentheses. -/
theorem declaredName?_cases (h : c.Regular) (hc : c.isNode .declarator = true)
    (hname : c.declaredName? = some name) :
    ∃ start l x r, c = node start .declarator (l ++ x :: r) ∧ IsHead l ∧
      ((x.isNode .name = true ∧ x.firstToken? = some name) ∨
        ∃ start' l' d r', x = node start' .nestedDeclarator (l' ++ d :: r') ∧ IsHead l' ∧
          d.isNode .declarator = true ∧ d.declaredName? = some name) := by
  cases c with
  | token start t => simp [isNode, Placed.kind] at hc
  | node start kind children =>
  obtain rfl := isNode_node.1 hc
  obtain habstract | ⟨l, x, r, rfl, hl, hx, hr⟩ := h.split_declarator
  · -- there is no name
    rw [declaredName?_of_not_nested fun c hc =>
      not_isNode_of_category (habstract c hc) (by decide)] at hname
    have hnone : (node start .declarator children).child? .name = none :=
      List.find?_eq_none.2 fun c hc => by
        simp [not_isNode_of_category (k := .name) (habstract c hc) (by decide)]
    simp [hnone] at hname
  refine ⟨start, l, x, r, rfl, hl, ?_⟩
  have hlnested : ∀ c ∈ l, c.isNode .nestedDeclarator = false := fun c hc =>
    not_isNode_of_category (hl c hc) (by decide)
  obtain hx | hx := hx
  · have hnested : ∀ c ∈ l ++ x :: r, c.isNode .nestedDeclarator = false := by
      intro c hc
      obtain hc | rfl | hc := (List.mem_append.1 hc).imp id List.mem_cons.1
      · exact hlnested c hc
      · exact not_isNode_of_category (.inr (List.mem_singleton.2 (category_of_isNode hx)))
          (by decide)
      · exact not_isNode_of_category (hr c hc) (by decide)
    rw [declaredName?_of_not_nested hnested, child?_of_children rfl hx fun c hc =>
      not_isNode_of_category (hl c hc) (by decide)] at hname
    exact .inl ⟨hx, hname⟩
  · cases x with
    | token start t => simp [isNode, Placed.kind] at hx
    | node start' kind inner =>
    obtain rfl := isNode_node.1 hx
    have hreg : (node start' .nestedDeclarator inner).Regular := h.child (by simp)
    obtain ⟨l', d, r', rfl, hl', hd, -⟩ := hreg.split_nestedDeclarator
    rw [declaredName?_of_nested hlnested
      (fun c hc => not_isNode_of_category (hl' c hc) (by decide)) hd] at hname
    exact .inr ⟨start', l', d, r', rfl, hl', hd, hname⟩

theorem sizeOf_lt_of_mem (h : c ∈ children) : sizeOf c < sizeOf (node start kind children) := by
  have := List.sizeOf_lt_of_mem h
  simp only [node.sizeOf_spec]
  omega

/-- **All that is declared below a declarator comes after the name it declares itself.** -/
theorem names_of_declaredName? (h : c.Regular) (hc : c.isNode .declarator = true)
    (hname : c.declaredName? = some name) : c.Names name := by
  -- the declarator within the parentheses of a declarator is smaller
  induction hsize : sizeOf c using Nat.strongRecOn generalizing c with
  | _ size ih =>
  obtain ⟨start, l, x, r, rfl, hl, hx⟩ := declaredName?_cases h hc hname
  have hxreg : x.Regular := h.child (by simp)
  refine Names.around h ?_ rfl fun c hc _ =>
    not_isDeclaring_of_prefix (h.child (by simp [hc])) (hl c hc)
  obtain ⟨hx, hname⟩ | ⟨start', l', d, r', rfl, hl', hd, hname⟩ := hx
  · exact names_of_firstToken? hxreg hx hname
  · have hdreg : d.Regular := hxreg.child (by simp)
    have hinner : sizeOf d < sizeOf (node start' .nestedDeclarator (l' ++ d :: r')) :=
      sizeOf_lt_of_mem (by simp)
    have houter : sizeOf (node start' .nestedDeclarator (l' ++ d :: r')) < size :=
      hsize ▸ sizeOf_lt_of_mem (by simp)
    refine Names.around hxreg (ih _ (by omega) hdreg hd hname rfl) rfl fun c hc _ => ?_
    exact not_isDeclaring_of_prefix (hxreg.child (by simp [hc])) (hl' c hc)

end Placed

namespace Site

variable {s t : Site} {name name' : Leaf} {kind kind' : DeclKind} {storage storage' : Storage}
  {root : Placed}

/-- What holds the name that a site declares: a declarator, or the name itself for an
enumerator. -/
def IsHolder (k : NodeKind) (c : Placed) (name : Leaf) : Prop :=
  (k ≠ .enumerator ∧ c.isNode .declarator = true ∧ c.declaredName? = some name) ∨
    (k = .enumerator ∧ c.isNode .name = true ∧ c.firstToken? = some name)

/-- A site that declares a name has a part that holds it, after parts of other kinds. -/
theorem exists_isHolder (h : s.declares? = some (name, kind, storage)) :
    ∃ start k l c r, s.node = .node start k (l ++ c :: r) ∧ k.isDeclaring = true ∧
      IsHolder k c name ∧ ∀ x ∈ l, x.kind ≠ c.kind := by
  obtain ⟨node, above⟩ := s
  cases node with
  | token start t => simp [declares?, Placed.kind] at h
  | node start k children =>
  have key : ∃ c, k.isDeclaring = true ∧ IsHolder k c name ∧
      ∃ k', c.isNode k' = true ∧ (Placed.node start k children).child? k' = some c := by
    cases k with
    | initDeclarator | param | functionDef =>
      simp only [declares?, Placed.kind, Option.pure_def, Option.bind_eq_bind,
        Option.bind_eq_some_iff, Option.some.injEq, Prod.mk.injEq] at h
      obtain ⟨c, hc, name, hname, rfl, -⟩ := h
      obtain ⟨-, -, -, hnode, -⟩ := Placed.child?_eq_some hc
      exact ⟨c, rfl, .inl ⟨by decide, hnode, hname⟩, _, hnode, hc⟩
    | enumerator =>
      simp only [declares?, Placed.kind, Option.pure_def, Option.bind_eq_bind,
        Option.bind_eq_some_iff, Option.some.injEq, Prod.mk.injEq] at h
      obtain ⟨c, hc, name, hname, rfl, -⟩ := h
      obtain ⟨-, -, -, hnode, -⟩ := Placed.child?_eq_some hc
      exact ⟨c, rfl, .inr ⟨rfl, hnode, hname⟩, _, hnode, hc⟩
    | _ => simp [declares?, Placed.kind] at h
  obtain ⟨c, hdecl, hholder, k', hk', hc⟩ := key
  obtain ⟨l, r, hchildren, -, hl⟩ := Placed.child?_eq_some hc
  refine ⟨start, k, l, c, r, congrArg _ hchildren, hdecl, hholder, fun x hx heq => ?_⟩
  have hne := hl x hx
  rw [Placed.isNode, heq] at hne
  rw [Placed.isNode] at hk'
  simp [hk'] at hne

theorem IsHolder.names {k : NodeKind} {c : Placed} (h : IsHolder k c name) (hc : c.Regular) :
    c.Names name := by
  obtain ⟨-, hnode, hname⟩ | ⟨-, hnode, hname⟩ := h
  · exact Placed.names_of_declaredName? hc hnode hname
  · exact Placed.names_of_firstToken? hc hnode hname

/-- A declared name lies within its site. -/
theorem name_within (hreg : s.node.Regular) (h : s.declares? = some (name, kind, storage)) :
    s.node.start ≤ name.start ∧ name.start < name.span.stop ∧ name.span.stop ≤ s.node.stop := by
  obtain ⟨start, k, l, c, r, hnode, -, hholder, -⟩ := exists_isHolder h
  rw [hnode] at hreg ⊢
  obtain ⟨hstart, -, hstop⟩ := Placed.snugFrom_middle (Placed.snug_node.1 hreg.snug)
  have hnames := hholder.names (hreg.child (by simp))
  have := hnames.start_le
  have := hnames.stop_le
  exact ⟨by simp; omega, hnames.nonempty, by simp; omega⟩

theorem isDeclaring_of_declares? (h : s.declares? = some (name, kind, storage)) :
    s.node.isDeclaring = true := by
  obtain ⟨start, k, l, c, r, hnode, hk, -⟩ := exists_isHolder h
  rw [hnode]
  exact hk

/-- A member of a group has nothing but trivia before its declarator. -/
theorem isTrivia_before_declarator {start : Nat} {l r : List Placed} {c : Placed}
    (h : (Placed.node start .initDeclarator (l ++ c :: r)).Regular)
    (hl : ∀ x ∈ l, x.isNode .declarator = false) : ∀ x ∈ l, x.isTrivia = true := by
  obtain ⟨l', d, r', hchildren, hl', hd, -⟩ := h.split_initDeclarator
  have hpre : l <+: l' ++ d :: r' := hchildren ▸ List.prefix_append _ _
  have hpre' : l' ++ [d] <+: l' ++ d :: r' := by simp
  have hdl : d ∉ l := fun hmem => by simp [hl d hmem] at hd
  intro x hx
  obtain hle | hle := List.prefix_or_prefix_of_prefix hpre hpre'
  · obtain heq | hle := List.prefix_concat_iff.1 hle
    · exact absurd (heq ▸ by simp) hdl
    · exact hl' x (hle.subset hx)
  · exact absurd (hle.subset (by simp)) hdl

/-- What is declared below a site that declares a name comes before or after that name, and after it
if the site is a member of a group. -/
theorem name_apart (hreg : s.node.Regular) (h : s.declares? = some (name, kind, storage))
    (ht : t ∈ s.subsites) (hne : t.path ≠ s.path) (hdecl : t.node.isDeclaring = true) :
    name.span.stop ≤ t.node.start ∨
      (s.node.isNode .initDeclarator = false ∧ t.node.stop ≤ name.start) := by
  obtain ⟨start, k, l, c, r, hnode, -, hholder, hl⟩ := exists_isHolder h
  obtain ⟨node, above⟩ := s
  subst hnode
  have hnames := hholder.names (hreg.child (by simp))
  have hsnug := Placed.snug_node.1 hreg.snug
  obtain rfl | ⟨l', x, r', hchildren, htx⟩ := Placed.mem_sitesUnder_node.1 ht
  · exact absurd rfl hne
  have hx : x ∈ l ++ c :: r := by simp [hchildren]
  have hxreg : x.Regular := hreg.child hx
  obtain ⟨-, hstart, hstop⟩ := span_of_mem_subsites (s := ⟨x, _⟩) hxreg.snug htx
  simp only at hstart hstop
  obtain hx | rfl | hx := (List.mem_append.1 hx).imp id List.mem_cons.1
  · -- before the part that holds the name: this cannot be in a member of a group
    obtain ⟨a, b, rfl⟩ := List.append_of_mem hx
    have hle := Placed.stop_le_of_snugFrom (l := a) (t := x) (u := c) (by simpa using hsnug)
      (r := b ++ c :: r) (by simp)
    have := hnames.start_le
    refine .inr ⟨?_, by omega⟩
    by_contra hmember
    obtain rfl : k = .initDeclarator := by simpa using hmember
    obtain ⟨-, hc, -⟩ | ⟨hk, -⟩ := hholder
    · have hxtrivia := isTrivia_before_declarator hreg (fun y hy => ?_) x hx
      · rw [Placed.not_isTrivia_of_isInner] at hxtrivia
        · cases hxtrivia
        · cases x with
          | token start t => simp [Placed.sitesUnder] at htx
          | node start k children => rfl
      · have hne := hl y hy
        simp only [Placed.isNode, decide_eq_true_eq] at hc
        simp [Placed.isNode, hc ▸ hne]
    · cases hk
  · exact .inl (hnames.before _ t htx hdecl)
  · have := Placed.stop_le_of_snugFrom hsnug hx
    have := hnames.stop_le
    exact .inl (by omega)

/-- **The names that the sites of a tree declare do not overlap.** -/
theorem names_disjoint (hroot : root.Regular) (hs : s ∈ root.sites) (ht : t ∈ root.sites)
    (hname : s.declares? = some (name, kind, storage))
    (hname' : t.declares? = some (name', kind', storage')) (hne : s ≠ t) :
    name.span.stop ≤ name'.start ∨ name'.span.stop ≤ name.start := by
  have hsreg := Placed.regular_of_mem_subsites (s := ⟨root, []⟩) hroot hs
  have htreg := Placed.regular_of_mem_subsites (s := ⟨root, []⟩) hroot ht
  have hsname := name_within hsreg hname
  have htname := name_within htreg hname'
  obtain rfl | (⟨hts, hpath⟩ | ⟨hle, -⟩) | (⟨hst, hpath⟩ | ⟨hle, -⟩) :=
    Placed.follows_total hroot.snug hs ht
  · exact absurd rfl hne
  · have := name_apart hsreg hname hts hpath (isDeclaring_of_declares? hname')
    omega
  · omega
  · have := name_apart htreg hname' hst hpath (isDeclaring_of_declares? hname)
    omega
  · omega

/-- The names of the members of groups stand in the order of their sites. -/
theorem name_before_name (hroot : root.Regular) (hs : s ∈ root.sites) (ht : t ∈ root.sites)
    (hname : s.declares? = some (name, kind, storage))
    (hname' : t.declares? = some (name', kind', storage'))
    (hmember : s.node.isNode .initDeclarator = true) (h : Placed.Follows t s) :
    name.span.stop ≤ name'.start := by
  have hsreg := Placed.regular_of_mem_subsites (s := ⟨root, []⟩) hroot hs
  have htreg := Placed.regular_of_mem_subsites (s := ⟨root, []⟩) hroot ht
  have hsname := name_within hsreg hname
  have htname := name_within htreg hname'
  obtain ⟨hts, hpath⟩ | ⟨hle, -⟩ := h
  · have := name_apart hsreg hname hts hpath (isDeclaring_of_declares? hname')
    simp only [hmember, Bool.true_eq_false, false_and, or_false] at this
    omega
  · omega

end Site

end Whittle
