import Whittle.Proofs.Declaration.Layout
import Whittle.Proofs.Name.Visibility

/-!
# The levels of a declarator in the tree

A declarator leads to the name it declares and to the parameters of the function it declares through
further declarators only. So whatever else has the name within it has all of the declaration within
it.

* `Site.Leads`: a site leads to one below it through declarators only.
* `Site.exists_name`: **a declaration leads to its name.**
* `Site.exists_definition`: **a parameter list without a scope of its own is that of the definition
  around it.**
-/

namespace Whittle

namespace Placed

variable {level : Placed} {ts : List Placed}

theorem mem_innerLevels (h : level ∈ innerLevels ts) :
    ∃ d ∈ ts, d.isNode .declarator = true ∧ level ∈ d.declaratorLevels := by
  induction ts with
  | nil => cases h
  | cons t ts ih =>
    rw [innerLevels] at h
    split at h
    · rename_i ht
      exact ⟨t, List.mem_cons_self, ht, h⟩
    · obtain ⟨d, hd, hnode, hlevel⟩ := ih h
      exact ⟨d, List.mem_cons_of_mem t hd, hnode, hlevel⟩

theorem mem_nestedLevels (h : level ∈ nestedLevels ts) :
    ∃ x ∈ ts, x.isNode .nestedDeclarator = true ∧
      ∃ d ∈ x.children, d.isNode .declarator = true ∧ level ∈ d.declaratorLevels := by
  induction ts with
  | nil => cases h
  | cons t ts ih =>
    unfold nestedLevels at h
    split at h
    · cases h
    · rename_i start inner rest heq
      obtain ⟨rfl, rfl⟩ := List.cons.inj heq
      exact ⟨_, List.mem_cons_self, rfl, mem_innerLevels h⟩
    · rename_i u rest _ heq
      obtain ⟨rfl, rfl⟩ := List.cons.inj heq
      obtain ⟨x, hx, hnode, hinner⟩ := ih h
      exact ⟨x, List.mem_cons_of_mem t hx, hnode, hinner⟩

end Placed

namespace Site

variable {s c x t w : Site} {level p : Placed}

/-- The parts of a node are sites. -/
theorem exists_child (h : p ∈ s.node.children) : ∃ c : Site, c.parent? = some s ∧ c.node = p := by
  rw [← map_node_children, List.mem_map] at h
  obtain ⟨c, hc, hnode⟩ := h
  exact ⟨c, mem_children.1 hc, hnode⟩

/-- Whether a site leads to one below it through declarators only: any other node around the lower
one is around the upper one. -/
structure Leads (s t : Site) : Prop where
  mem : t ∈ s.subsites
  around : ∀ w : Site, w ≠ t → w.node.isNode .declarator = false →
    w.node.isNode .nestedDeclarator = false → t ∈ w.subsites → s ∈ w.subsites

namespace Leads

theorem refl (h : s.node.isInner = true) : s.Leads s := ⟨mem_subsites_self h, fun _ _ _ _ h => h⟩

theorem child (hc : c.parent? = some s) (hinner : c.node.isInner = true) : s.Leads c :=
  ⟨mem_subsites_of_parent? hc hinner, fun _ hne _ _ hmem => parent_mem_subsites hmem hne.symm hc⟩

theorem trans (h : s.Leads c)
    (hc : c.node.isNode .declarator = true ∨ c.node.isNode .nestedDeclarator = true)
    (h' : c.Leads t) : s.Leads t := by
  refine ⟨subsites_subset h.mem h'.mem, fun w hne hdecl hnested hmem => ?_⟩
  refine h.around w ?_ hdecl hnested (h'.around w hne hdecl hnested hmem)
  rintro rfl
  obtain hc | hc := hc
  · rw [hdecl] at hc
    cases hc
  · rw [hnested] at hc
    cases hc

/-- A declarator leads to each of its levels. -/
theorem exists_level (hc : c.node.isNode .declarator = true)
    (hlevel : level ∈ c.node.declaratorLevels) :
    ∃ l : Site, l.node = level ∧ l.node.isNode .declarator = true ∧ c.Leads l := by
  -- the next level is a part of a part
  induction hsize : sizeOf c.node using Nat.strongRecOn generalizing c with
  | _ size ih =>
  obtain ⟨start, children, hnode⟩ := Placed.exists_of_isNode hc
  rw [hnode, Placed.declaratorLevels, List.mem_append, List.mem_singleton] at hlevel
  obtain hlevel | rfl := hlevel
  · obtain ⟨x, hx, hnested, d, hd, hdecl, hlevel⟩ := Placed.mem_nestedLevels hlevel
    obtain ⟨x, hxparent, rfl⟩ := exists_child (s := c) (by simpa [hnode, Placed.children] using hx)
    obtain ⟨d, hdparent, rfl⟩ := exists_child hd
    have hsmaller : sizeOf d.node < size :=
      hsize ▸ Nat.lt_trans (sizeOf_lt_of_parent? hdparent) (sizeOf_lt_of_parent? hxparent)
    obtain ⟨l, hl, hldecl, hleads⟩ := ih _ hsmaller hdecl hlevel rfl
    have hinner := child hxparent (Placed.isInner_of_isNode hnested)
    have hnext := child hdparent (Placed.isInner_of_isNode hdecl)
    exact ⟨l, hl, hldecl, (hinner.trans (.inr hnested) hnext).trans (.inl hdecl) hleads⟩
  · exact ⟨c, hnode, hc, refl (Placed.isInner_of_isNode hc)⟩

/-- A declarator leads to the parts of its levels. -/
theorem exists_part {k : NodeKind} (hc : c.node.isNode .declarator = true)
    (hlevel : level ∈ c.node.declaratorLevels) (hp : p ∈ level.children) (hk : p.isNode k = true) :
    ∃ t : Site, t.node = p ∧ c.Leads t := by
  obtain ⟨l, rfl, hdecl, hleads⟩ := exists_level hc hlevel
  obtain ⟨t, hparent, rfl⟩ := exists_child hp
  exact ⟨t, rfl, hleads.trans (.inl hdecl) (child hparent (Placed.isInner_of_isNode hk))⟩

end Leads

/-- **A declaration leads to its name.** -/
theorem exists_name {name : Leaf} {kind : DeclKind} {storage : Storage}
    (h : s.declares? = some (name, kind, storage)) :
    ∃ n : Site, n.node.isNode .name = true ∧ n.node.firstToken? = some name ∧ s.Leads n := by
  obtain ⟨start, k, l, c, r, hnode, -, hholder, -⟩ := exists_isHolder h
  obtain ⟨c, hparent, rfl⟩ := exists_child (s := s) (p := c) (by simp [hnode, Placed.children])
  obtain ⟨-, hdecl, hname⟩ | ⟨-, hname, hfirst⟩ := hholder
  · simp only [Placed.declaredName?, Option.bind_eq_bind, Option.bind_eq_some_iff] at hname
    obtain ⟨level, hlevel, n, hn, hfirst⟩ := hname
    obtain ⟨_, _, hchildren, hn, -⟩ := Placed.child?_eq_some hn
    obtain ⟨n, rfl, hleads⟩ :=
      Leads.exists_part hdecl (List.mem_of_head? hlevel) (p := n) (by simp [hchildren]) hn
    exact ⟨n, hn, hfirst,
      (Leads.child hparent (Placed.isInner_of_isNode hdecl)).trans (.inl hdecl) hleads⟩
  · exact ⟨c, hname, hfirst, Leads.child hparent (Placed.isInner_of_isNode hname)⟩

/-- A declarator of a function leads to the parameters. -/
theorem exists_params (hc : c.node.isNode .declarator = true)
    (h : c.node.functionParams? = some p) :
    p.isNode .paramList = true ∧ ∃ t : Site, t.node = p ∧ c.Leads t := by
  unfold Placed.functionParams? at h
  split at h
  · rename_i params hderivation
    obtain rfl := Option.some.inj h
    obtain ⟨level, hlevel, hfirst⟩ := List.exists_of_findSome?_eq_some hderivation
    have hpart : params ∈ level.children ∧ params.isNode .paramList = true := by
      rw [Placed.levelDerivation?, Option.or_eq_some_iff] at hfirst
      obtain hsuffix | ⟨-, hstar⟩ := hfirst
      · obtain ⟨x, hx, hsuffix⟩ := List.exists_of_findSome?_eq_some hsuffix
        unfold Placed.suffix? at hsuffix
        split at hsuffix
        · obtain rfl := Derivation.function.inj (Option.some.inj hsuffix)
          exact ⟨hx, rfl⟩
        · cases hsuffix
        · cases hsuffix
      · split at hstar
        · cases hstar
        · cases hstar
    exact ⟨hpart.2, Leads.exists_part hc hlevel hpart.1 hpart.2⟩
  · cases h

/-! ### Parameters of definitions -/

/-- Where the parameter list of the definition around a site starts. -/
theorem exists_of_definitionParams? {root : Placed} {n : Nat} (hs : s ∈ root.sites)
    (h : s.node.definitionParams? s.above = some n) :
    ∃ f ∈ root.sites, f.node.isNode .functionDef = true ∧
      ∃ c p, f.node.child? .declarator = some c ∧ c.functionParams? = some p ∧ p.start = n := by
  obtain ⟨node, above⟩ := s
  induction above generalizing node with
  | nil => cases h
  | cons crumb above ih =>
    have hup : Site.mk (crumb.around node) above ∈ root.sites := mem_sites_of_parent? hs rfl
    rw [Placed.definitionParams?] at h
    split at h
    · rename_i hkind
      rw [Option.map_eq_some_iff] at h
      obtain ⟨p, hp, hstart⟩ := h
      obtain ⟨c, hc, hparams⟩ := Option.bind_eq_some_iff.1 hp
      refine ⟨_, hup, ?_, c, p, hc, hparams, hstart⟩
      simp [Crumb.around, Placed.isNode, Placed.kind, hkind]
    · exact ih _ hup h

/-- Whether a node starts with a token. -/
def StartsWithToken (s : Site) : Prop := ∃ x rest, s.node.children = x :: rest ∧ x.isInner = false

/-- The first token of a node stands before all nodes below it. -/
theorem StartsWithToken.exists_stop (hs : s.StartsWithToken) (hsnug : s.node.Snug) :
    ∃ stop, s.node.start < stop ∧ stop ≤ s.node.stop ∧
      ∀ c ∈ s.node.children, c.isInner = true → stop ≤ c.start := by
  obtain ⟨x, rest, hchildren, hx⟩ := hs
  cases hnode : s.node with
  | token start u => simp [hnode, Placed.children] at hchildren
  | node start kind children =>
  rw [hnode, Placed.children] at hchildren
  rw [hnode, hchildren, Placed.snug_node, Placed.snugFrom_cons] at hsnug
  obtain ⟨hstart, hxsnug, hrest⟩ := hsnug
  cases x with
  | node start kind children => cases hx
  | token first u =>
    have hsize : 0 < u.size := hxsnug
    rw [Placed.start] at hstart
    subst hstart
    rw [hchildren]
    refine ⟨first + u.size, by simp; omega, ?_, fun c hc hinner => ?_⟩
    · simpa using Placed.le_stopAll rest hrest
    · obtain rfl | hc := List.mem_cons.1 hc
      · cases hinner
      · simpa using (Placed.snugFrom_mem hrest hc).1

/-- Nodes that start with a token are told apart by where they start. -/
theorem eq_of_start_eq {root : Placed} (hroot : root.Snug) (hs : s ∈ root.sites)
    (ht : t ∈ root.sites) (hstoken : s.StartsWithToken) (httoken : t.StartsWithToken)
    (h : s.node.start = t.node.start) : s = t := by
  have hsnug {u : Site} (hu : u ∈ root.sites) : u.node.Snug :=
    (span_of_mem_subsites (s := ⟨root, []⟩) hroot hu).1
  -- neither lies below the other one or before it
  have hbelow {u v : Site} (hu : u ∈ root.sites) (htoken : u.StartsWithToken)
      (hv : v ∈ u.subsites) (hne : v.path ≠ u.path) : u.node.start < v.node.start := by
    obtain ⟨rfl, -⟩ | ⟨c, hc, hvc⟩ := mem_subsites_iff.1 hv
    · exact absurd rfl hne
    obtain ⟨stop, hlt, -, hle⟩ := htoken.exists_stop (hsnug hu)
    obtain ⟨start, kind, l, r, hnode, -⟩ := parent?_eq_some.1 hc
    have hinner := isInner_of_subsites hvc
    have hcsnug := (span_of_mem_subsites (hsnug hu) (mem_subsites_of_parent? hc hinner)).1
    have hstart := hle c.node (by simp [hnode, Placed.children]) hinner
    have hvstart := (span_of_mem_subsites hcsnug hvc).2.1
    omega
  have hnot {u v : Site} (hu : u ∈ root.sites) (htoken : u.StartsWithToken)
      (heq : u.node.start = v.node.start) : ¬ Placed.Follows v u := by
    rintro (⟨hv, hne⟩ | ⟨hle, -⟩)
    · have := hbelow hu htoken hv hne
      omega
    · obtain ⟨stop, hlt, hstop, -⟩ := htoken.exists_stop (hsnug hu)
      omega
  obtain rfl | hfollows | hfollows := Placed.follows_total hroot hs ht
  · rfl
  · exact absurd hfollows (hnot hs hstoken h)
  · exact absurd hfollows (hnot ht httoken h.symm)

/-- Parameter lists are told apart by where they start. -/
theorem params_eq_of_start_eq {t : Text} {u : Site} (hs : s ∈ (parse t).root.sites)
    (hu : u ∈ (parse t).root.sites) (hparams : s.node.isNode .paramList = true)
    (huparams : u.node.isNode .paramList = true) (h : s.node.start = u.node.start) : s = u := by
  have hfirst {v : Site} (hv : v ∈ (parse t).root.sites) (hk : v.node.isNode .paramList = true) :
      v.StartsWithToken := by
    have hreg := Placed.regular_of_mem_subsites (s := ⟨_, []⟩) (regular_parse t) hv
    obtain ⟨start, children, hnode⟩ := Placed.exists_of_isNode hk
    rw [hnode] at hreg
    obtain ⟨x, rest, hchildren, hx⟩ := hreg.paramList_first
    exact ⟨x, rest, by rw [hnode, Placed.children, hchildren], hx⟩
  exact eq_of_start_eq (regular_parse t).snug hs hu (hfirst hs hparams) (hfirst hu huparams) h

/-- **A parameter list without a scope of its own is that of the definition around it.** -/
theorem exists_definition {t : Text} (hs : s ∈ (parse t).root.sites)
    (hparams : s.node.isNode .paramList = true) (hscope : s.isScope = false) :
    ∃ f c : Site, f ∈ (parse t).root.sites ∧ f.node.isNode .functionDef = true ∧
      c.parent? = some f ∧ c.node.isNode .declarator = true ∧ c.Leads s := by
  obtain ⟨start, children, hnode⟩ := Placed.exists_of_isNode hparams
  have hstart : s.node.definitionParams? s.above = some s.node.start := by
    simpa [isScope, hnode, Placed.kind] using hscope
  obtain ⟨f, hf, hdef, c, p, hc, hp, hpstart⟩ := exists_of_definitionParams? hs hstart
  obtain ⟨_, _, hchildren, hcdecl, -⟩ := Placed.child?_eq_some hc
  obtain ⟨c, hparent, rfl⟩ := exists_child (s := f) (p := c) (by simp [hchildren])
  obtain ⟨hpnode, u, rfl, hleads⟩ := exists_params hcdecl hp
  have hu : u ∈ (parse t).root.sites := mem_sites_of_mem_subsites hf
    (subsites_subset_of_parent? hparent hleads.mem)
  obtain rfl := params_eq_of_start_eq hs hu hparams hpnode hpstart.symm
  exact ⟨f, c, hf, hdef, hparent, hcdecl, hleads⟩

end Site

end Whittle
