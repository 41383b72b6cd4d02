import Whittle.Proofs.Declaration.Level
import Whittle.Proofs.Name.Resolution
import Whittle.Proofs.Removal.Safety

/-!
# What a removal takes along

A removal deletes a node with tokens beside it, and with the node everything that is declared below
it. Most of that cannot be used from outside: it belongs to scopes that go along. Only enumerators
are left behind, wherever an enumeration is defined below the node.

* `Site.Fills`: a span holds a node and tokens beside it, but no other node.
* `Declaration.Cut.fills`: **a cut holds the declaration or its group, and no other node.**
* `Site.declaring_below`: **what is declared below a group belongs to a scope below it, unless it is
  a member of the group or an enumerator.**
* `enumerator_of_sees_removed`: **of what goes with a removal, only enumerators can be used
  elsewhere.**
-/

namespace Whittle

namespace Site

variable {s w n c : Site} {root x : Placed} {range : Span}

/-! ### Spans that hold one node -/

/-- Whether a span holds a node and tokens beside it, but no other node. -/
structure Fills (w : Site) (range : Span) : Prop where
  start_le : range.start ≤ w.node.start
  le_stop : w.node.stop ≤ range.stop
  before : ∀ c ∈ w.before, c.isInner = true → c.stop ≤ range.start
  after : ∀ c ∈ w.after, c.isInner = true → range.stop ≤ c.start
  within : ∀ g, w.parent? = some g → g.node.start ≤ range.start ∧ range.stop ≤ g.node.stop

section

variable (hroot : root.Snug) (hs : s ∈ root.sites)

include hroot hs

/-- A node and its siblings lie within its parent. -/
theorem sibling_within (hx : x ∈ s.before.reverse ++ s.node :: s.after) {g : Site}
    (hg : s.parent? = some g) : g.node.start ≤ x.start ∧ x.stop ≤ g.node.stop := by
  obtain ⟨start, kind, l, r, hnode, habove⟩ := parent?_eq_some.1 hg
  have hsnug := (span_of_mem_subsites (s := ⟨root, []⟩) hroot (mem_sites_of_parent? hs hg)).1
  rw [hnode, Placed.snug_node] at hsnug
  have hmem : x ∈ l ++ s.node :: r := by simpa [before, after, habove] using hx
  obtain ⟨hstart, -, hstop⟩ := Placed.snugFrom_mem hsnug hmem
  rw [hnode]
  exact ⟨by simpa using hstart, by simpa using hstop⟩

/-- If the tokens before a node go along from one of them on, then all other nodes before it stay. -/
theorem stop_le_of_before {xs rest : List Placed} (h : s.before = xs ++ x :: rest)
    (hxs : ∀ y ∈ xs, y.isInner = false) (hx : x.isInner = false) :
    ∀ c ∈ s.before, c.isInner = true → c.stop ≤ x.start := by
  intro c hc hinner
  obtain ⟨first, hsnug⟩ := snug_siblings hroot hs
  rw [h, List.mem_append, List.mem_cons] at hc
  obtain hc | rfl | hc := hc
  · rw [hxs c hc] at hinner
    cases hinner
  · rw [hx] at hinner
    cases hinner
  · obtain ⟨l, r, rfl⟩ := List.append_of_mem hc
    rw [h] at hsnug
    simp only [List.reverse_append, List.reverse_cons, List.append_assoc, List.cons_append,
      List.nil_append] at hsnug
    exact Placed.stop_le_of_snugFrom hsnug (by simp)

/-- If the tokens after a node go along up to one of them, then all other nodes after it stay. -/
theorem le_start_of_after {xs rest : List Placed} (h : s.after = xs ++ x :: rest)
    (hxs : ∀ y ∈ xs, y.isInner = false) (hx : x.isInner = false) :
    ∀ c ∈ s.after, c.isInner = true → x.stop ≤ c.start := by
  intro c hc hinner
  obtain ⟨first, hsnug⟩ := snug_siblings hroot hs
  rw [h, List.mem_append, List.mem_cons] at hc
  obtain hc | rfl | hc := hc
  · rw [hxs c hc] at hinner
    cases hinner
  · rw [hx] at hinner
    cases hinner
  · have hsplit : s.before.reverse ++ s.node :: s.after =
        (s.before.reverse ++ s.node :: xs) ++ x :: rest := by simp [h]
    rw [hsplit] at hsnug
    exact Placed.stop_le_of_snugFrom hsnug hc

/-- A node fills the span that starts with one of the tokens before it and ends with it. -/
theorem fills_from {xs rest : List Placed} (h : s.before = xs ++ x :: rest)
    (hxs : ∀ y ∈ xs, y.isInner = false) (hx : x.isInner = false) :
    s.Fills ⟨x.start, s.node.stop⟩ := by
  have hmem : x ∈ s.before := by simp [h]
  refine ⟨?_, Nat.le_refl _, stop_le_of_before hroot hs h hxs hx,
    fun c hc _ => (le_start_of_mem_after hroot hs hc).1, fun g hg => ⟨?_, ?_⟩⟩
  · obtain ⟨hle, hle'⟩ := stop_le_of_mem_before hroot hs hmem
    exact Nat.le_trans hle hle'
  · exact (sibling_within hroot hs (by simp [hmem]) hg).1
  · exact (sibling_within hroot hs (by simp) hg).2

/-- A node fills its own span. -/
theorem fills_self : s.Fills ⟨s.node.start, s.node.stop⟩ :=
  ⟨Nat.le_refl _, Nat.le_refl _, fun c hc _ => (stop_le_of_mem_before hroot hs hc).2,
    fun c hc _ => (le_start_of_mem_after hroot hs hc).1,
    fun _ hg => sibling_within hroot hs (by simp) hg⟩

/-- A node fills the span that starts with it and ends with one of the tokens after it. -/
theorem fills_to {xs rest : List Placed} (h : s.after = xs ++ x :: rest)
    (hxs : ∀ y ∈ xs, y.isInner = false) (hx : x.isInner = false) :
    s.Fills ⟨s.node.start, x.stop⟩ := by
  have hmem : x ∈ s.after := by simp [h]
  refine ⟨Nat.le_refl _, ?_, fun c hc _ => (stop_le_of_mem_before hroot hs hc).2,
    le_start_of_after hroot hs h hxs hx, fun g hg => ⟨?_, ?_⟩⟩
  · obtain ⟨hle, hle'⟩ := le_start_of_mem_after hroot hs hmem
    exact Nat.le_trans hle hle'
  · exact (sibling_within hroot hs (by simp) hg).1
  · exact (sibling_within hroot hs (by simp [hmem]) hg).2

theorem fills_startWithBlanks : s.Fills ⟨s.startWithBlanks, s.node.stop⟩ := by
  unfold startWithBlanks
  split
  · rename_i blank rest hbefore
    split
    · rename_i hblank
      have hsplit : s.before = [] ++ blank :: rest := hbefore
      exact fills_from hroot hs hsplit (by simp)
        (Placed.not_isInner_of_isToken (Bool.and_eq_true_iff.1 hblank).1)
    · exact fills_self hroot hs
  · exact fills_self hroot hs

end

end Site

/-- **A cut holds the declaration or its group, and no other node.** -/
theorem Declaration.Cut.fills {target : Declaration} {group : DeclGroup} {range : Span}
    {root : Placed} (h : Cut target group range) (hroot : root.Snug)
    (htarget : target.site ∈ root.sites) (hgroup : group.site ∈ root.sites) :
    (group.isSingle = true ∧ group.site.Fills range) ∨ target.site.Fills range := by
  cases h with
  | group hsingle => exact .inl ⟨hsingle, Site.fills_startWithBlanks hroot hgroup⟩
  | sole => exact .inr (Site.fills_startWithBlanks hroot htarget)
  | first comma rest _ hcomma =>
    right
    obtain ⟨⟨trivia, hafter, htrivia⟩, htoken⟩ := Site.commaAfter?_eq_some hcomma
    have hnot := Placed.not_isInner_of_isToken htoken
    have hnots : ∀ y ∈ trivia, y.isInner = false := fun y hy =>
      Placed.not_isInner_of_isTrivia (htrivia y hy)
    cases hblank : rest.head?.filter (·.isToken .whitespace) with
    | none => exact Site.fills_to hroot htarget hafter hnots hnot
    | some blank =>
      obtain ⟨hhead, hwhite⟩ := Option.filter_eq_some_iff.1 hblank
      obtain ⟨rest, rfl⟩ := List.head?_eq_some_iff.1 hhead
      have hsplit : target.site.after = (trivia ++ [comma]) ++ blank :: rest := by simp [hafter]
      refine Site.fills_to hroot htarget hsplit (fun y hy => ?_)
        (Placed.not_isInner_of_isToken hwhite)
      obtain hy | hy := List.mem_append.1 hy
      · exact hnots y hy
      · rw [List.mem_singleton.1 hy]
        exact hnot
  | later comma _ hcomma =>
    right
    obtain ⟨hfind, htoken⟩ := Option.filter_eq_some_iff.1 hcomma
    obtain ⟨-, xs, rest, hbefore, hxs⟩ := List.find?_eq_some_iff_append.1 hfind
    exact Site.fills_from hroot htarget hbefore
      (fun y hy => Placed.not_isInner_of_isTrivia (by simpa using hxs y hy))
      (Placed.not_isInner_of_isToken htoken)

/-! ### What lies within such a span -/

namespace Site

variable {s w n c g : Site} {root : Placed} {range : Span} {t : Text}

/-- A node of tokens that starts within another one lies within it. -/
theorem mem_subsites_of_start (hroot : root.Snug) (hg : g ∈ root.sites) (hn : n ∈ root.sites)
    (hleaf : ∀ u ∈ n.subsites, u = n) (hstart : g.node.start ≤ n.node.start)
    (hstop : n.node.start < g.node.stop) (hlt : n.node.start < n.node.stop) : n ∈ g.subsites := by
  obtain rfl | (⟨hmem, -⟩ | ⟨hle, -⟩) | (⟨hmem, hne⟩ | ⟨hle, -⟩) :=
    Placed.follows_total hroot hg hn
  · exact mem_subsites_self (isInner_of_mem_subsites (s := ⟨root, []⟩) hn)
  · exact hmem
  · omega
  · exact absurd (congrArg path (hleaf g hmem)) hne
  · omega

/-- A node of tokens that starts within a span belongs to the node that fills the span. -/
theorem Fills.mem_subsites (h : w.Fills range) (hroot : root.Snug) (hw : w ∈ root.sites)
    (hn : n ∈ root.sites) (hleaf : ∀ u ∈ n.subsites, u = n) (hstart : range.start ≤ n.node.start)
    (hstop : n.node.start < range.stop) (hlt : n.node.start < n.node.stop) : n ∈ w.subsites := by
  cases hparent : w.parent? with
  | none =>
    have htop := eq_of_mem_subsites_of_path_eq (s := ⟨root, []⟩) hw
      (by simp [path, address, parent?_eq_none.1 hparent])
    rw [htop]
    exact hn
  | some g =>
    have hg := mem_sites_of_parent? hw hparent
    obtain ⟨hgstart, hgstop⟩ := h.within g hparent
    have hng := mem_subsites_of_start hroot hg hn hleaf (by omega) (by omega) hlt
    obtain ⟨rfl, -⟩ | ⟨c, hc, hnc⟩ := mem_subsites_iff.1 hng
    · -- the node of tokens would have the other one below it
      have hwinner := isInner_of_mem_subsites (s := ⟨root, []⟩) hw
      have heq := hleaf w (mem_subsites_of_parent? hparent hwinner)
      have hpath := path_of_parent? hparent
      rw [heq] at hpath
      simp at hpath
    · have hinner := isInner_of_subsites hnc
      have hcmem := mem_sites_of_mem_subsites hg (mem_subsites_of_parent? hc hinner)
      have hcsnug := (span_of_mem_subsites (s := ⟨root, []⟩) hroot hcmem).1
      obtain ⟨-, hcstart, hcstop⟩ := span_of_mem_subsites hcsnug hnc
      rcases Nat.lt_trichotomy c.before.length w.before.length with hlt' | heq | hgt
      · have hle := h.before c.node (mem_siblings hc hparent hlt').2 hinner
        omega
      · have hpath : c.path = w.path := by rw [path_of_parent? hc, path_of_parent? hparent, heq]
        exact Placed.eq_of_path_eq hroot hcmem hw hpath ▸ hnc
      · have hle := h.after c.node (mem_siblings hparent hc hgt).1 hinner
        omega

/-- The name of a declaration lies within a span only if the declaration does. -/
theorem Fills.mem_subsites_of_name {name : Leaf} {kind : DeclKind} {storage : Storage}
    (h : w.Fills range) (hroot : root.Regular) (hw : w ∈ root.sites) (hs : s ∈ root.sites)
    (hdeclares : s.declares? = some (name, kind, storage)) (hname : w.node.isNode .name = false)
    (hdecl : w.node.isNode .declarator = false) (hnested : w.node.isNode .nestedDeclarator = false)
    (hstart : range.start ≤ name.start) (hstop : name.span.stop ≤ range.stop) :
    s ∈ w.subsites := by
  obtain ⟨n, hnode, hfirst, hleads⟩ := exists_name hdeclares
  have hn := mem_sites_of_mem_subsites hs hleads.mem
  have hreg := Placed.regular_of_mem_subsites (s := ⟨root, []⟩) hroot hn
  obtain ⟨heq, hlt, hle⟩ := Placed.firstToken?_span n.node hreg.snug hfirst
  have hleaf : ∀ u ∈ n.subsites, u = n := by
    obtain ⟨start, children, hnode⟩ := Placed.exists_of_isNode hnode
    rw [hnode] at hreg
    intro u hu
    rw [subsites, hnode, hreg.sitesUnder_of_tokens rfl, List.mem_singleton, ← hnode] at hu
    exact hu
  refine hleads.around w ?_ hdecl hnested
    (h.mem_subsites hroot.snug hw hn hleaf (by omega) (by omega) (by omega))
  rintro rfl
  rw [hnode] at hname
  cases hname

end Site

/-! ### What is declared below a group -/

/-- What a group or a member of one may hold below its members without a scope in between. -/
def Category.inert : List Category :=
  [.token, .expression, .part .error, .part .specifiers, .part .tagSpecifier,
    .part .typeofSpecifier, .part .attr, .part .structBody, .part .enumBody, .part .fieldGroup,
    .part .enumerator, .part .declarator, .part .nestedDeclarator, .part .name, .part .arraySuffix,
    .part .paramList, .part .typeName, .part .initList, .part .designator, .part .argList,
    .part .compoundStmt]

theorem NodeKind.holds_inert {k : NodeKind} (h : k.category ∈ Category.inert)
    (hparams : k ≠ .paramList) (hblock : k ≠ .compoundStmt) : k.holds ⊆ Category.inert := by
  cases k <;> first
    | exact absurd h (by decide)
    | exact absurd rfl hparams
    | exact absurd rfl hblock
    | decide

theorem NodeKind.eq_enumerator_of_inert {k : NodeKind} (h : k.category ∈ Category.inert)
    (hdecl : k.isDeclaring = true) : k = .enumerator := by
  cases k <;> first
    | rfl
    | exact absurd h (by decide)
    | cases hdecl

namespace Site

variable {s w u c : Site} {t : Text}

/-- Whether a site is a group or a member of one. -/
def IsCuttable (w : Site) : Prop :=
  w.node.isNode .declGroup = true ∨ w.node.isNode .initDeclarator = true

theorem IsCuttable.not_isNode (h : w.IsCuttable) {k : NodeKind} (hgroup : k ≠ .declGroup)
    (hmember : k ≠ .initDeclarator) : w.node.isNode k = false :=
  h.elim (Placed.not_isNode_of_ne · hgroup.symm) (Placed.not_isNode_of_ne · hmember.symm)

/-- Below a group, every parameter list has a scope of its own. -/
theorem IsCuttable.isScope_of_params (h : w.IsCuttable) (hw : w ∈ (parse t).root.sites)
    (hu : u ∈ w.subsites) (hparams : u.node.isNode .paramList = true) : u.isScope = true := by
  by_contra hscope
  obtain ⟨f, c, hf, hdef, hparent, hdecl, hleads⟩ :=
    exists_definition (mem_sites_of_mem_subsites hw hu) hparams (by simpa using hscope)
  have hne {v : Site} {k : NodeKind} (hv : v.node.isNode k = true) (hgroup : k ≠ .declGroup)
      (hmember : k ≠ .initDeclarator) : v ≠ w := by
    rintro rfl
    rw [h.not_isNode hgroup hmember] at hv
    cases hv
  -- the definition, and with it the file, would lie below the group
  have hc := hleads.around w (hne hparams (by simp) (by simp)).symm
    (h.not_isNode (by simp) (by simp)) (h.not_isNode (by simp) (by simp)) hu
  have hfw := parent_mem_subsites hc (hne hdecl (by simp) (by simp)) hparent
  obtain ⟨g, k, hgparent, hg, hholds⟩ := exists_parent hf hdef (by simp)
  obtain rfl := NodeKind.eq_root_of_holds hholds
  have hgw := parent_mem_subsites hfw (hne hdef (by simp) (by simp)) hgparent
  have htop := (isNode_root_iff (mem_sites_of_parent? hf hgparent)).1 hg
  have hpath : w.path = [] := by
    have hunder := path_prefix_of_mem_subsites hgw
    have hgpath : g.path = [] := by simp [path, address, htop]
    rw [hgpath] at hunder
    exact List.prefix_nil.1 hunder
  have hroot := (isNode_root_iff hw).2 (by simpa [path, address] using hpath)
  rw [h.not_isNode (by simp) (by simp)] at hroot
  cases hroot

/-- Where a site stands below a group or a member of one: it is that one, a member of the group, part
of something inert, or in a scope that lies below. -/
inductive Below (w : Site) : Site → Prop
  | self : Below w w
  | member {u : Site} (hgroup : w.node.isNode .declGroup = true) (hparent : u.parent? = some w)
      (hmember : u.node.isNode .initDeclarator = true) : Below w u
  | inert {u : Site} (h : u.node.category ∈ Category.inert) : Below w u
  | inScope {u : Site} {σ : Path} (hσ : σ ∈ u.scopes) (h : w.path <+: σ) : Below w u

/-- Members of groups hold nothing but what is inert. -/
theorem Below.of_member (hk : u.node.isNode .initDeclarator = true) (hreg : u.node.Regular)
    (hc : c.parent? = some u) (hinner : c.node.isInner = true) : w.Below c := by
  obtain ⟨start, children, hnode⟩ := Placed.exists_of_isNode hk
  obtain ⟨_, _, l, r, hnode', -⟩ := parent?_eq_some.1 hc
  rw [hnode] at hreg hnode'
  obtain ⟨rfl, rfl, rfl⟩ := Placed.node.inj hnode'
  have hsub : NodeKind.initDeclarator.holds ⊆ Category.inert := by decide
  exact .inert (hsub (hreg.holds_inner (by simp) hinner))

/-- One step down. -/
theorem IsCuttable.below_step (h : w.IsCuttable) (hw : w ∈ (parse t).root.sites)
    (hu : u ∈ w.subsites) (hbelow : w.Below u) (hc : c.parent? = some u)
    (hinner : c.node.isInner = true) : w.Below c := by
  have hreg := Placed.regular_of_mem_subsites (s := ⟨_, []⟩) (regular_parse t)
    (mem_sites_of_mem_subsites hw hu)
  obtain ⟨start, kind, l, r, hnode, -⟩ := parent?_eq_some.1 hc
  have hholds : c.node.category ∈ kind.holds := by
    rw [hnode] at hreg
    exact hreg.holds_inner (by simp) hinner
  cases hbelow with
  | self =>
    obtain hgroup | hmember := h
    · obtain rfl : kind = .declGroup := by simpa [hnode] using hgroup
      simp only [NodeKind.holds, List.mem_cons, List.not_mem_nil, or_false] at hholds
      obtain hcat | hcat | hcat := hholds
      · exact .inert (by simp [hcat, Category.inert])
      · exact .inert (by simp [hcat, Category.inert])
      · exact .member hgroup hc (Placed.isNode_of_category hcat)
    · exact .of_member hmember hreg hc hinner
  | member _ _ hmember => exact .of_member hmember hreg hc hinner
  | inert hinert =>
    have hkind : u.node.isNode kind = true := by simp [hnode]
    have hscoped (hscope : u.isScope = true) (hdef : u.node.isNode .functionDef = false) :
        w.Below c := by
      refine .inScope (σ := u.path) ?_ (path_prefix_of_mem_subsites hu)
      simp [scopes_of_parent? hc, hscope, hdef]
    rw [hnode, Placed.category_node] at hinert
    by_cases hparams : kind = .paramList
    · subst hparams
      exact hscoped (h.isScope_of_params hw hu hkind) (Placed.not_isNode_of_ne hkind (by simp))
    by_cases hblock : kind = .compoundStmt
    · subst hblock
      exact hscoped (by simp [isScope, hnode, Placed.kind])
        (Placed.not_isNode_of_ne hkind (by simp))
    · exact .inert (NodeKind.holds_inert hinert hparams hblock hholds)
  | inScope hσ hunder =>
    refine .inScope ?_ hunder
    rw [scopes_of_parent? hc]
    split
    · exact List.mem_cons_of_mem _ hσ
    · exact hσ

/-- **What is declared below a group belongs to a scope below it, unless it is a member of the group
or an enumerator.** -/
theorem IsCuttable.below (h : w.IsCuttable) (hw : w ∈ (parse t).root.sites)
    (hu : u ∈ w.subsites) : w.Below u := by
  have key : ∀ u ∈ w.subsites, u ∈ w.subsites ∧ w.Below u := by
    refine subsites_induction (fun u c hu hc hinner => ⟨?_, ?_⟩)
      fun hinner => ⟨mem_subsites_self hinner, .self⟩
    · exact subsites_subset hu.1 (mem_subsites_of_parent? hc hinner)
    · exact h.below_step hw hu.1 hu.2 hc hinner
  exact (key u hu).2

end Site

/-- Of what is inert, only enumerators declare names. -/
theorem Site.isNode_of_inert {s : Site} (h : s.node.category ∈ Category.inert)
    (hdecl : s.node.isDeclaring = true) : s.node.isNode .enumerator = true := by
  obtain ⟨node, above⟩ := s
  cases node with
  | token start u => cases hdecl
  | node start k children =>
    rw [Placed.category_node] at h
    exact Placed.isNode_node.2 (NodeKind.eq_enumerator_of_inert h hdecl)

theorem Site.kind_of_enumerator {s : Site} {name : Leaf} {kind : DeclKind} {storage : Storage}
    (h : s.declares? = some (name, kind, storage)) (hk : s.node.isNode .enumerator = true) :
    kind = .enumerator := by
  obtain ⟨start, children, hnode⟩ := Placed.exists_of_isNode hk
  simp only [Site.declares?, hnode, Placed.kind, Option.pure_def, Option.bind_eq_bind,
    Option.bind_eq_some_iff, Option.some.injEq, Prod.mk.injEq] at h
  obtain ⟨-, -, -, -, -, rfl, -⟩ := h
  rfl

/-! ### What can be used from outside -/

section

variable {t : Text} {b d : Declaration} {g : DeclGroup} {w r : Site} {range : Span}

/-- What belongs to a scope below a node can be used only below that node. -/
theorem mem_subsites_of_sees (hw : w ∈ (parse t).root.sites) (hr : r ∈ (parse t).root.sites)
    (hsees : Sees (parse t).root r d) {σ : Path} (hσ : σ ∈ d.site.scopes) (hunder : w.path <+: σ) :
    r ∈ w.subsites := by
  refine Placed.mem_subsites_of_prefix (regular_parse t).snug hw hr ?_
  -- the scope of the declaration is the innermost one around it
  have hscope : σ <+: d.scope := by
    have hhead := Inventory.head?_scopes hsees.mem
    have hpairwise := d.site.pairwise_scopes
    obtain ⟨outer, hscopes⟩ := List.head?_eq_some_iff.1 hhead
    rw [hscopes, List.pairwise_cons] at hpairwise
    have hinner := Site.prefix_of_mem_scopes (s := d.site) (List.mem_of_mem_head? hhead)
    have houter := Site.prefix_of_mem_scopes hσ
    rw [hscopes, List.mem_cons] at hσ
    refine List.prefix_of_prefix_length_le houter hinner ?_
    obtain rfl | hσ := hσ
    · exact Nat.le_refl _
    · exact Nat.le_of_lt (hpairwise.1 σ hσ)
  exact (hunder.trans hscope).trans (Site.prefix_of_mem_scopes hsees.visible.scope)

/-- The only member of a group. -/
theorem Inventory.IsGroupOf.eq_of_isSingle (hg : IsGroupOf t g b) (hsingle : g.isSingle = true)
    (hb : b ∈ (Inventory.ofTree (parse t).root).declarations)
    (hd : d ∈ (Inventory.ofTree (parse t).root).declarations)
    (hparent : d.site.parent? = some g.site) (hmember : d.site.node.isNode .initDeclarator = true) :
    d = b := by
  have hid := hg.complete d hd hmember hparent
  obtain ⟨id, hmembers⟩ := List.length_eq_one_iff.1 (by simpa [DeclGroup.isSingle] using hsingle)
  have hbid := hg.id_mem
  rw [hmembers, List.mem_singleton] at hid hbid
  have heq := Inventory.declaration?_id hd
  rw [hid, ← hbid, Inventory.declaration?_id hb] at heq
  exact (Option.some.inj heq).symm

/-- Whether some removal takes a declaration along that is used after it and has no namesake. -/
def Inventory.leavesUse (root : Placed) : Bool :=
  (ofTree root).candidates.any fun b =>
    match (ofTree root).groupOf? b.id with
    | none => false
    | some g =>
      match b.removal g with
      | .error _ => false
      | .ok range => root.sites.any fun r =>
        decide (range.stop ≤ r.node.start) && r.node.isNode .nameRef &&
          (ofTree root).declarations.any fun d =>
            decide (range.start ≤ d.name.start) && decide (d.name.span.stop ≤ range.stop) &&
              decide (r.node.firstToken?.map (·.text) = some d.name.text) &&
              decide (d.scope ∈ r.scopes) && decide (d.site.point.Precedes r.path) &&
              (ofTree root).declarations.all fun d' =>
                decide (d'.name.text = d.name.text → d'.id = d.id)

theorem exists_of_leavesUse {root : Placed} (h : Inventory.leavesUse root = true) :
    ∃ b ∈ (Inventory.ofTree root).candidates, ∃ g range,
      (Inventory.ofTree root).groupOf? b.id = some g ∧ b.removal g = .ok range ∧
      ∃ r ∈ root.sites, range.stop ≤ r.node.start ∧ ∃ d, Sees root r d ∧
        range.start ≤ d.name.start ∧ d.name.span.stop ≤ range.stop := by
  obtain ⟨b, hb, h⟩ := List.any_eq_true.1 h
  split at h
  · cases h
  rename_i g hg
  split at h
  · cases h
  rename_i range hrange
  obtain ⟨r, hr, h⟩ := List.any_eq_true.1 h
  obtain ⟨hplace, h⟩ := Bool.and_eq_true_iff.1 h
  obtain ⟨d, hd, h⟩ := List.any_eq_true.1 h
  simp only [Bool.and_eq_true, decide_eq_true_eq, List.all_eq_true] at hplace h
  obtain ⟨⟨⟨⟨⟨hstart, hstop⟩, hname⟩, hscope⟩, hprecedes⟩, honly⟩ := h
  have huses : r.Uses d.name.text := ⟨hplace.2, hname⟩
  refine ⟨b, hb, g, range, hg, hrange, r, hr, hplace.1, d,
    ⟨hd, ⟨huses, hscope, hprecedes⟩, fun d' hd' hvisible => .inl ?_⟩, hstart, hstop⟩
  -- no other declaration has the name
  have hid := honly d' hd' (huses.unique hvisible.uses)
  have heq := Inventory.declaration?_id hd'
  rw [hid, Inventory.declaration?_id hd] at heq
  exact (Option.some.inj heq).symm

/-- **Of what goes with a removal, only enumerators can be used elsewhere.** -/
theorem enumerator_of_sees_removed (p : Program) (b : Declaration) (g : DeclGroup) (range : Span)
    (hb : b ∈ (Inventory.ofTree p.root).candidates)
    (hg : (Inventory.ofTree p.root).groupOf? b.id = some g) (hrange : b.removal g = .ok range)
    (r : Site) (hr : r ∈ p.root.sites)
    (houtside : ¬ (range.start ≤ r.node.start ∧ r.node.stop ≤ range.stop)) (d : Declaration)
    (hsees : Sees p.root r d) (hstart : range.start ≤ d.name.start)
    (hstop : d.name.span.stop ≤ range.stop) : d.kind = .enumerator := by
  obtain ⟨t, root, rfl, hsound⟩ := p
  obtain ⟨hmem, hcandidate⟩ := List.mem_filter.1 hb
  rw [Declaration.isCandidate, Bool.and_eq_true, decide_eq_true_eq, Bool.not_eq_true'] at hcandidate
  obtain ⟨hvar, hunused⟩ := hcandidate
  obtain ⟨hbsite, hbdeclares, -⟩ := Inventory.mem_declarations hmem
  have hbmember := Inventory.isNode_of_var (hvar ▸ hbdeclares)
  obtain ⟨g', hg', hof⟩ := Inventory.exists_isGroupOf hmem hbmember
  obtain rfl := Option.some.inj (hg.symm.trans hg')
  obtain ⟨hgsite, hgnode⟩ := List.mem_filter.1 hof.site_mem
  obtain ⟨hdsite, hddeclares, -⟩ := Inventory.mem_declarations hsees.mem
  have hnotb : d ≠ b := by
    rintro rfl
    rw [isReferenced_of_sees hr hsees hvar] at hunused
    cases hunused
  -- whichever node goes, the declaration lies below it
  have key {w : Site} (hw : w ∈ (parse t).root.sites) (hcut : w.IsCuttable) (hfills : w.Fills range)
      (hself : d.site ≠ w)
      (hmember : d.site.parent? = some w → d.site.node.isNode .initDeclarator = true → False) :
      d.kind = .enumerator := by
    have hbelow := hcut.below hw (hfills.mem_subsites_of_name (regular_parse t) hw hdsite hddeclares
      (hcut.not_isNode (by simp) (by simp)) (hcut.not_isNode (by simp) (by simp))
      (hcut.not_isNode (by simp) (by simp)) hstart hstop)
    have hdecl := Site.isDeclaring_of_declares? hddeclares
    cases hbelow with
    | self => exact absurd rfl hself
    | member _ hparent hnode => exact absurd hnode fun hnode => hmember hparent hnode
    | inert hinert => exact Site.kind_of_enumerator hddeclares (Site.isNode_of_inert hinert hdecl)
    | inScope hσ hunder =>
      have hrw := mem_subsites_of_sees hw hr hsees hσ hunder
      have hwsnug := (Site.span_of_mem_subsites (s := ⟨_, []⟩) (regular_parse t).snug hw).1
      obtain ⟨-, hrstart, hrstop⟩ := Site.span_of_mem_subsites hwsnug hrw
      have := hfills.start_le
      have := hfills.le_stop
      exact absurd ⟨by omega, by omega⟩ houtside
  obtain ⟨hsingle, hfills⟩ | hfills :=
    (Declaration.cut_of_removal hrange).2.fills (regular_parse t).snug hbsite hgsite
  · refine key hgsite (.inl hgnode) hfills ?_ ?_
    · rintro heq
      have hdecl := Site.isDeclaring_of_declares? hddeclares
      rw [heq, Site.isDeclaring_of_isNode hgnode] at hdecl
      cases hdecl
    · intro hparent hmember
      exact hnotb (hof.eq_of_isSingle hsingle hmem hsees.mem hparent hmember)
  · refine key hbsite (.inr hbmember) hfills ?_ ?_
    · intro heq
      exact hnotb (Inventory.eq_of_site_eq (regular_parse t).snug hsees.mem hmem heq)
    · intro hparent hmember
      obtain ⟨g', hparent', hnode⟩ := exists_group hdsite hmember
      obtain rfl := Option.some.inj (hparent.symm.trans hparent')
      rw [Placed.not_isNode_of_ne hbmember (by simp)] at hnode
      cases hnode

end

/-- An enumeration that is defined in an initializer and used in the next declaration. -/
theorem enumerator_of_sees_removed_sizeof :
    let p := Program.ofText "int x = sizeof(enum \x7bA\x7d); int y = A;".toList (by decide +kernel)
    ∃ b ∈ (Inventory.ofTree p.root).candidates, ∃ g range,
      (Inventory.ofTree p.root).groupOf? b.id = some g ∧ b.removal g = .ok range ∧
      ∃ r ∈ p.root.sites, ∃ d, Sees p.root r d ∧ range.start ≤ d.name.start ∧
        d.name.span.stop ≤ range.stop ∧ d.kind = .enumerator := by
  intro p
  have hleaves : Inventory.leavesUse p.root = true := by decide +kernel
  obtain ⟨b, hb, g, range, hg, hrange, r, hr, hafter, d, hsees, hstart, hstop⟩ :=
    exists_of_leavesUse hleaves
  have hsnug := (Site.span_of_mem_subsites (s := ⟨p.root, []⟩) p.regular.snug hr).1
  obtain ⟨leaf, hleaf, -⟩ := Option.map_eq_some_iff.1 hsees.visible.uses.2
  have hspan := Placed.firstToken?_span _ hsnug hleaf
  exact ⟨b, hb, g, range, hg, hrange, r, hr, d, hsees, hstart, hstop,
    enumerator_of_sees_removed p b g range hb hg hrange r hr (by omega) d hsees hstart hstop⟩

/-- An enumeration that a `typeof` defines goes with the variable of that type, although the rest
still uses it. -/
theorem removal_takes_enumerator :
    let p := Program.ofText "typeof(enum \x7bA\x7d) x; int y = A;".toList (by decide +kernel)
    ∃ b ∈ (Inventory.ofTree p.root).candidates, ∃ g range,
      (Inventory.ofTree p.root).groupOf? b.id = some g ∧ b.removal g = .ok range ∧
      ∃ r ∈ p.root.sites, range.stop ≤ r.node.start ∧ ∃ d, Sees p.root r d ∧
        range.start ≤ d.name.start ∧ d.name.span.stop ≤ range.stop := by
  intro p
  exact exists_of_leavesUse (by decide +kernel)

end Whittle
