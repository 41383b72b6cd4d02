import Whittle.Proofs.Grammar.Nesting
import Whittle.Proofs.Tree.Leaves

/-!
# Brackets of texts without errors

* `Placed.tokenKinds`: what stands directly below a node.
* `Placed.outerKinds`: what stands outside attributes, from left to right.
* `well_bracketed`: **a text without errors is well bracketed.**
-/

namespace Whittle

open Grammar Shape Bracketed

namespace Placed

/-- The kinds of the significant tokens directly below a node. -/
def tokenKinds (t : Placed) : List TokenKind :=
  (t.children.filterMap significantToken?).map (·.kind)

/-- The kinds of the significant tokens of a part. -/
def leafKinds (t : Placed) : List TokenKind :=
  (t.leaves.filter fun l => !l.token.isTrivia).map (·.token.kind)

mutual

/-- The kinds of the significant tokens of a part that are in no attribute. -/
def outerKinds : Placed → List TokenKind
  | .token _ t => if t.isTrivia then [] else [t.kind]
  | .node _ kind children => if kind = .attr then [] else outerKindsAll children

/-- The kinds of the significant tokens of some parts that are in no attribute. -/
def outerKindsAll : List Placed → List TokenKind
  | [] => []
  | t :: ts => t.outerKinds ++ outerKindsAll ts

end

theorem kinds_shapesAll (ts : List Placed) :
    kinds (shapesAll ts) = (ts.filterMap significantToken?).map (·.kind) := by
  induction ts with
  | nil => simp [shapesAll]
  | cons t ts ih =>
    rw [shapesAll, kinds_append, ih]
    cases t with
    | token start t => cases ht : t.isTrivia <;> simp [shapes, Token.shapes, significantToken?, ht]
    | node start kind children =>
      rw [List.filterMap_cons_none rfl]
      simp [shapes]

/-- In a part that holds only tokens these are all its leaves. -/
theorem leafKinds_of_verbatim {ts : List Placed} {ks : List TokenKind}
    (h : shapesAll ts = ks.map .leaf) :
    ((leavesAll ts).filter fun l => !l.token.isTrivia).map (·.token.kind) = ks := by
  induction ts generalizing ks with
  | nil =>
    cases ks with
    | nil => simp
    | cons k ks => simp [shapesAll] at h
  | cons t ts ih =>
    cases t with
    | token start t =>
      cases ht : t.isTrivia with
      | true =>
        rw [shapesAll, shapes, Token.shapes, if_pos ht, List.nil_append] at h
        simpa [ht] using ih h
      | false =>
        rw [shapesAll, shapes, Token.shapes, ht] at h
        cases ks with
        | nil => simp at h
        | cons k ks =>
          obtain ⟨rfl, htail⟩ : t.kind = k ∧ shapesAll ts = ks.map .leaf := by simpa using h
          simpa [ht] using ih htail
    | node start kind children => cases ks <;> simp [shapesAll, shapes] at h

mutual

/-- What stands in a node closes what it opens. -/
theorem scan_outerKinds (t : Placed) (h : AllOf Enclosed t.shapes) (st : List TokenKind) :
    scan brackets st t.outerKinds = scan brackets st (kinds t.shapes) := by
  cases t with
  | token start t =>
    cases ht : t.isTrivia <;> simp [outerKinds, shapes, Token.shapes, ht]
  | node start kind children =>
    rw [shapes, allOf_cons, all_node] at h
    rw [outerKinds, shapes, kinds_node, kinds_nil]
    split
    · rfl
    · next hkind =>
      have hnested : Nested [] (shapesAll children) := by
        have henclosed := h.1.1
        rwa [Enclosed, if_neg hkind] at henclosed
      rw [scan_outerKindsAll children h.1.2 st]
      exact scan_frame hnested.1 st

theorem scan_outerKindsAll (ts : List Placed) (h : AllOf Enclosed (shapesAll ts))
    (st : List TokenKind) :
    scan brackets st (outerKindsAll ts) = scan brackets st (kinds (shapesAll ts)) := by
  cases ts with
  | nil => simp [outerKindsAll, shapesAll]
  | cons t ts =>
    rw [shapesAll, allOf_append] at h
    rw [outerKindsAll, shapesAll, kinds_append, scan_append, scan_append, scan_outerKinds t h.1]
    congr 1
    funext st'
    exact scan_outerKindsAll ts h.2 st'

end

mutual

/-- A token of a part stands directly below one of its nodes. -/
theorem exists_sitesUnder_of_mem_leaves (above : List Crumb) (t : Placed) (ht : t.isInner = true)
    {l : Leaf} (h : l ∈ t.leaves) :
    ∃ s ∈ t.sitesUnder above, .token l.start l.token ∈ s.node.children := by
  cases t with
  | token start t => cases ht
  | node start kind children =>
    rw [sitesUnder]
    rw [leaves_node] at h
    obtain hchild | ⟨s, hs, hchild⟩ :=
      exists_sitesAmong_of_mem_leaves start kind above [] children h
    · exact ⟨_, List.mem_cons_self, hchild⟩
    · exact ⟨s, List.mem_cons_of_mem _ hs, hchild⟩

theorem exists_sitesAmong_of_mem_leaves (start : Nat) (kind : NodeKind) (above : List Crumb)
    (before ts : List Placed) {l : Leaf} (h : l ∈ leavesAll ts) :
    .token l.start l.token ∈ ts ∨
      ∃ s ∈ sitesAmong start kind above before ts, .token l.start l.token ∈ s.node.children := by
  cases ts with
  | nil => simp at h
  | cons t ts =>
    rw [sitesAmong]
    rw [leavesAll_cons, List.mem_append] at h
    obtain h | h := h
    · cases t with
      | token start t =>
        obtain rfl : l = ⟨start, t⟩ := by simpa using h
        exact .inl List.mem_cons_self
      | node start' kind' children =>
        obtain ⟨s, hs, hchild⟩ := exists_sitesUnder_of_mem_leaves _ _ rfl h
        exact .inr ⟨s, List.mem_append_left _ hs, hchild⟩
    · obtain hchild | ⟨s, hs, hchild⟩ :=
        exists_sitesAmong_of_mem_leaves start kind above (t :: before) ts h
      · exact .inl (List.mem_cons_of_mem _ hchild)
      · exact .inr ⟨s, List.mem_append_right _ hs, hchild⟩

end

end Placed

/-- The brackets of a text without errors are matched in every node. -/
theorem enclosed_parse {t : Text} (h : (parse t).errors = []) :
    AllOf Enclosed (parse t).root.shapes := by
  have hfaults : faults (Symbol.ofTokens (Token.significant (tokens t))) = [] := by
    simpa [parse] using h
  obtain ⟨hroot, hbelow⟩ := enclosed_skeletons hfaults
  rw [Parsed.root, Tree.shapes_place, parse, Tree.shapes, (weave_parse t).1, allOf_cons, all_node]
  exact ⟨⟨hroot, hbelow⟩, allOf_nil⟩

theorem enclosed_site {t : Text} (h : (parse t).errors = []) :
    ∀ s ∈ (parse t).root.sites, ∃ start kind children,
      s.node = .node start kind children ∧ Enclosed kind (Placed.shapesAll children) := by
  have hshapes : ∀ s ∈ (parse t).root.sites, AllOf Enclosed s.node.shapes := by
    refine Placed.sites_induction (fun u c hu hc _ => ?_) fun _ => enclosed_parse h
    obtain ⟨start, kind, l, r, hnode, -⟩ := Site.parent?_eq_some.1 hc
    rw [hnode, Placed.shapes, allOf_cons, all_node] at hu
    exact Placed.allOf_of_mem hu.1.2 (by simp)
  intro s hs
  have hinner := Site.isInner_of_mem_subsites (s := ⟨(parse t).root, []⟩) hs
  have henclosed := hshapes s hs
  cases hnode : s.node with
  | token start t => simp [hnode] at hinner
  | node start kind children =>
    rw [hnode, Placed.shapes, allOf_cons, all_node] at henclosed
    exact ⟨start, kind, children, rfl, henclosed.1.1⟩

/-- **A text without errors is well bracketed.** Directly below each node that is no attribute,
parentheses, brackets and braces are matched, and so are those of the whole text outside
attributes. Within an attribute parentheses are matched, and only there a token can be unknown. -/
theorem well_bracketed (t : Text) (h : (parse t).errors = []) :
    (∀ s ∈ (parse t).root.sites, s.node.isNode .attr = false →
      Bracketed brackets s.node.tokenKinds) ∧
    Bracketed brackets (parse t).root.outerKinds ∧
    (∀ s ∈ (parse t).root.sites, s.node.isNode .attr = true →
      Bracketed parentheses s.node.leafKinds) ∧
    ∀ l ∈ (parse t).root.leaves, l.token.kind = .stray →
      ∃ s ∈ (parse t).root.sites, s.node.isNode .attr = true ∧ l ∈ s.node.leaves := by
  refine ⟨fun s hs hattr => ?_, ?_, fun s hs hattr => ?_, fun l hl hstray => ?_⟩
  · obtain ⟨start, kind, children, hnode, henclosed⟩ := enclosed_site h s hs
    have hkind : kind ≠ .attr := by simpa [hnode, ← Bool.not_eq_true] using hattr
    rw [Enclosed, if_neg hkind, Nested, Placed.kinds_shapesAll] at henclosed
    rw [hnode]
    exact .of_scan henclosed.1
  · refine .of_scan ?_
    rw [Placed.scan_outerKinds _ (enclosed_parse h)]
    rfl
  · obtain ⟨start, kind, children, hnode, henclosed⟩ := enclosed_site h s hs
    have hkind : kind = .attr := by simpa [hnode] using hattr
    rw [Enclosed, if_pos hkind] at henclosed
    rw [hnode, Placed.leafKinds, Placed.leaves_node, Placed.leafKinds_of_verbatim henclosed.1]
    exact .of_scan henclosed.2
  · obtain ⟨s, hs, hchild⟩ := Placed.exists_sitesUnder_of_mem_leaves [] (parse t).root rfl hl
    obtain ⟨start, kind, children, hnode, henclosed⟩ := enclosed_site h s hs
    rw [hnode] at hchild
    refine ⟨s, hs, ?_, ?_⟩
    · rw [hnode, Placed.isNode_node]
      by_contra hkind
      rw [Enclosed, if_neg hkind, Nested, Placed.kinds_shapesAll] at henclosed
      refine henclosed.2 (List.mem_map.2 ⟨l.token, List.mem_filterMap.2 ⟨_, hchild, ?_⟩, hstray⟩)
      simp [Placed.significantToken?, Token.isTrivia, hstray, TokenKind.isTrivia]
    · rw [hnode, Placed.leaves_node]
      obtain ⟨left, right, rfl⟩ := List.append_of_mem hchild
      simp [Placed.leavesAll_append]

/-- An unknown token in an attribute is no error, with brackets of all kinds around it. -/
theorem well_bracketed_attribute :
    let t := "int f(int a[2]) __attribute__((x(@[))) \x7b return (a[0]); \x7d".toList
    (parse t).errors = [] ∧ Bracketed brackets (parse t).root.outerKinds ∧
      ∃ l ∈ (parse t).root.leaves, l.token.kind = .stray ∧
        ∃ s ∈ (parse t).root.sites, s.node.isNode .attr = true ∧ l ∈ s.node.leaves ∧
          Bracketed parentheses s.node.leafKinds := by
  intro t
  have herrors : (parse t).errors = [] := by decide +kernel
  obtain ⟨-, houter, hparens, hstray⟩ := well_bracketed t herrors
  have hunknown : (parse t).root.leaves.any (·.token.kind = .stray) = true := by decide +kernel
  obtain ⟨l, hl, hkind⟩ := List.any_eq_true.1 hunknown
  have hkind : l.token.kind = .stray := of_decide_eq_true hkind
  obtain ⟨s, hs, hattr, hmem⟩ := hstray l hl hkind
  exact ⟨herrors, houter, l, hl, hkind, s, hs, hattr, hmem, hparens s hs hattr⟩

end Whittle
