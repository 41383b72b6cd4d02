import Mathlib.Data.List.Basic
import Whittle.Proofs.Name.Exports

/-!
# Names of types follow the scopes

The scopes that the grammar keeps hold, at every part of the tree, exactly the declarations before
the part that belong to the scopes around it. So the grammar takes a name for that of a type if
its visible declaration is a typedef, and only then.

* `DeclaredBefore`: the declarations of a scope that stand before a place.
* `Covers`: whether the names of some scopes are those declared before a place.
* `abides`: **at every part some names cover the scopes around it, and the part uses names as
  they say.**
* `typedef_follows_scopes`: the names that are taken for those of types, and those that are not.
-/

namespace Whittle

open Grammar Names Site

/-! ### Parts of sketches -/

namespace Sketch

variable {st : Setting} {σ : List Names} {k : NodeKind} {x y : Sketch} {xs ys zs : List Sketch}
  {b : Bool}

theorem memberAgrees_part (h : MemberAgrees b σ (xs ++ x :: ys)) :
    x.Agrees (bring (memberEntries b xs) σ) .plain := by
  induction xs generalizing σ with
  | nil =>
    rw [List.nil_append, MemberAgrees] at h
    simpa [memberEntries] using h.1
  | cons z xs ih =>
    rw [List.cons_append, MemberAgrees] at h
    rw [memberEntries]
    obtain ⟨-, h⟩ := h
    by_cases hz : z.isNode .declarator = true
    · rw [if_pos hz, agreesAll_append, agreesAll_cons, bring_bring] at h
      rw [if_pos hz, List.append_assoc]
      exact h.2.1
    · rw [if_neg hz] at h
      rw [if_neg hz, ← bring_bring]
      exact ih h

/-- A part that has no scope of its own agrees with what the node has left behind so far. -/
theorem agrees_part (hscope : k.role ≠ .scope) (hdefinition : k.role ≠ .definition)
    (h : (node k (xs ++ x :: ys)).Agrees σ st) :
    x.Agrees (bring (leftEntries st k (xs ++ x :: ys) xs) σ) (.below k (xs ++ x :: ys)) := by
  rw [Agrees] at h
  obtain ⟨-, h⟩ := h
  cases hr : k.role with
  | scope => exact absurd hr hscope
  | definition => exact absurd hr hdefinition
  | member =>
    simp only [hr] at h
    simp only [leftEntries, hr]
    rw [Setting.below_eq_plain (by simp [hr]) (by simp [hr])]
    exact memberAgrees_part h
  | param =>
    simp only [hr] at h
    simp only [leftEntries, hr]
    rw [Setting.below_eq_plain (by simp [hr]) (by simp [hr])]
    exact memberAgrees_part h
  | enumerator =>
    simp only [hr, agreesAll_append, agreesAll_cons] at h
    simp only [leftEntries, hr]
    exact h.2.1
  | plain =>
    simp only [hr, agreesAll_append, agreesAll_cons] at h
    simp only [leftEntries, hr]
    exact h.2.1

/-- A part of a node with a scope agrees with what the parts before it have left in the scope. -/
theorem agrees_part_scope (hscope : k.role = .scope) (h : (node k (xs ++ x :: ys)).Agrees σ st) :
    x.Agrees (entriesAll (.below k (xs ++ x :: ys)) xs :: σ) (.below k (xs ++ x :: ys)) := by
  rw [Agrees] at h
  simp only [hscope, agreesAll_append, agreesAll_cons, bring, List.append_nil] at h
  exact h.2.2.1

/-- Up to its declarator a definition has no scope of its own. -/
theorem agrees_part_head (hxs : ∀ x ∈ xs, x.isNode .declarator = false)
    (h : (node .functionDef (xs ++ x :: ys)).Agrees σ st) :
    x.Agrees (bring (headEntries xs) σ) .plain := by
  rw [Agrees] at h
  have hparts : DefinitionAgrees σ (xs ++ x :: ys) := h.2
  rw [headEntries_of_forall hxs]
  clear h
  induction xs generalizing σ with
  | nil =>
    rw [List.nil_append, DefinitionAgrees] at hparts
    simpa using hparts.1
  | cons z xs ih =>
    obtain ⟨hz, hxs⟩ := List.forall_mem_cons.1 hxs
    rw [List.cons_append, DefinitionAgrees, if_neg (by simp [hz])] at hparts
    have hx := ih hxs hparts.2
    rwa [bring_bring, ← entriesAll_cons] at hx

/-- What follows the declarator of a definition has a scope that starts with the parameters. -/
theorem agrees_part_body (hxs : ∀ x ∈ xs, x.isNode .declarator = false)
    (hy : y.isNode .declarator = true)
    (h : (node .functionDef (xs ++ y :: (zs ++ x :: ys))).Agrees σ st) :
    x.Agrees ((entriesAll .plain zs ++ y.paramNames?.getD []) ::
      bring (headEntries (xs ++ y :: zs)) σ) .plain := by
  rw [Agrees] at h
  have hparts : DefinitionAgrees σ (xs ++ y :: (zs ++ x :: ys)) := h.2
  obtain ⟨-, hbody⟩ := (definitionAgrees_append hxs hy).1 hparts
  rw [agreesAll_append, agreesAll_cons] at hbody
  rw [headEntries_append hxs hy]
  exact hbody.2.1

end Sketch

/-! ### Declarations before a place -/

/-- Whether a site declares a name of a scope before a place. -/
structure DeclaredBefore (root : Placed) (τ p : Path) (d : Site) : Prop where
  mem : d ∈ root.sites
  declares : d.declares?.isSome = true
  belongs : d.BelongsTo root τ
  before : d.declaredAfter.Precedes p

/-- Whether the names of some scopes are those declared before a place. -/
inductive Covers (names : List Text) (root : Placed) (p : Path) : List Path → List Names → Prop
  | nil : Covers names root p [] []
  | cons {τ : Path} {τs : List Path} {es : Names} {σ : List Names}
      (hτ : Describes names (DeclaredBefore root τ p) es) (hτs : Covers names root p τs σ) :
      Covers names root p (τ :: τs) (es :: σ)

section

variable {t : Text} {s c d f p X : Site} {L R : List Site} {τ : Path} {k : NodeKind}

theorem prefix_of_concat_prefix_declaredAfter {q : Path} {i : Nat}
    (h : q ++ [i] <+: d.declaredAfter) : q <+: d.path := by
  have hle := h.length_le
  have hlength := d.length_declaredAfter_le
  rw [List.length_append, List.length_singleton] at hle
  exact List.prefix_of_prefix_length_le ((List.prefix_append q [i]).trans h)
    d.path_prefix_declaredAfter (by omega)

/-- What is enclosed by a node lies in a part that the node encloses. -/
theorem exists_enclosed_child {root : Placed} (hroot : root.Snug) (hs : s ∈ root.sites)
    (hf : f ∈ root.sites) (h : f.path ∈ s.enclosing) :
    ∃ c : Site, c.parent? = some f ∧ s ∈ c.subsites ∧ c.enclosing = f.path :: f.enclosing := by
  obtain ⟨hpre, hlt⟩ := of_mem_enclosing h
  have hmem := Placed.mem_subsites_of_prefix hroot hf hs hpre
  obtain ⟨rfl, -⟩ | ⟨c, hc, hsc⟩ := mem_subsites_iff.1 hmem
  · omega
  refine ⟨c, hc, hsc, (enclosing_cases hc).resolve_left fun heq => ?_⟩
  obtain ⟨inner, henclosing, hinner⟩ := enclosing_of_mem_subsites hsc
  rw [henclosing, heq, List.mem_append] at h
  obtain h | h := h
  · have hle := (hinner _ h).length_le
    rw [path_of_parent? hc, List.length_append, List.length_singleton] at hle
    omega
  · have := (of_mem_enclosing h).2
    omega

/-- The parameter list that belongs to a declarator lies below it. -/
theorem exists_ownParams {q : Placed} (hX : X.node.isNode .declarator = true)
    (h : X.node.ownParams? = some q) :
    q.isNode .paramList = true ∧ ∃ p ∈ X.subsites, p.node = q := by
  obtain ⟨level, hlevel, hfirst⟩ := List.exists_of_findSome?_eq_some h
  obtain ⟨hfind, hparams⟩ := Option.filter_eq_some_iff.1 hfirst
  obtain ⟨p, hp, hleads⟩ := Leads.exists_part hX hlevel (List.mem_of_find?_eq_some hfind) hparams
  exact ⟨hparams, p, hleads.mem, hp⟩

/-- The parameter list that belongs to a definition is that of its declarator. -/
theorem Site.IsOwnParams.eq_of_parted (hf : f ∈ (parse t).root.sites) (h : f.IsOwnParams p)
    (hparted : f.Parted L X R) (hd : d ∈ X.subsites) (hnode : X.node.ownParams? = some d.node) :
    p = d := by
  have heq : p.node = d.node := by
    have := h.eq
    rw [hparted.child?, Option.bind_some, hnode] at this
    exact (Option.some.inj this).symm
  have hparams := (exists_ownParams hparted.declarator hnode).1
  have hds := mem_sites_of_mem_subsites hf (subsites_subset_of_parent? hparted.parent? hd)
  exact params_eq_of_start_eq (mem_sites_of_mem_subsites hf h.mem) hds (heq ▸ hparams) hparams
    (by rw [heq])

theorem Site.IsOwnParams.mem_declarator (hf : f ∈ (parse t).root.sites) (h : f.IsOwnParams p)
    (hparted : f.Parted L X R) : p ∈ X.subsites := by
  have hparams := h.eq
  rw [hparted.child?, Option.bind_some] at hparams
  obtain ⟨-, d, hd, hnode⟩ := exists_ownParams hparted.declarator hparams
  obtain rfl := h.eq_of_parted hf hparted hd (hnode ▸ hparams)
  exact hd

/-- What a definition encloses holds none of its parameters. -/
theorem not_mem_ownParams (hs : s ∈ (parse t).root.sites) (hf : f ∈ (parse t).root.sites)
    (hτ : f.path ∈ s.enclosing) (h : f.IsOwnParams p) (hd : d ∈ s.subsites)
    (hhead : d.enclosing.head? = some p.path) : False := by
  obtain ⟨Y, hY, hsY, hYenclosing⟩ := exists_enclosed_child (regular_parse t).snug hs hf hτ
  obtain ⟨L, X, R, hparted, hXenclosing, -⟩ := split_definition hf h.isDefinition
  have hpX := h.mem_declarator hf hparted
  have hX := hparted.parent?
  have hXpre : X.path <+: d.path :=
    (path_prefix_of_mem_subsites hpX).trans (of_mem_enclosing (List.mem_of_head? hhead)).1
  have hYpre : Y.path <+: d.path := path_prefix_of_mem_subsites (subsites_subset hsY hd)
  have hlength : X.path.length = Y.path.length := by
    rw [path_of_parent? hX, path_of_parent? hY, List.length_append, List.length_append]
    rfl
  have hpath : X.path = Y.path :=
    (List.prefix_of_prefix_length_le hXpre hYpre (by omega)).eq_of_length hlength
  obtain rfl := eq_of_parent?_of_path_eq hX hY hpath
  have := congrArg List.length (hXenclosing.symm.trans hYenclosing)
  rw [List.length_cons] at this
  omega

/-- What a part of a node leaves behind is what the sketch says. -/
theorem describes_part (hs : s ∈ (parse t).root.sites) (hk : s.node.isNode k = true)
    (hc : c.parent? = some s) :
    Describes (spellings t) c.Exports
      (Sketch.entriesAll (.below k (Placed.sketchAll (spellings t) s.node.children))
        (c.node.sketch (spellings t))) := by
  rw [← setting_of_parent? hc hk]
  refine describes_exports c ?_
  cases hinner : c.node.isInner with
  | false => exact .inr rfl
  | true => exact .inl (mem_sites_of_mem_subsites hs (mem_subsites_of_parent? hc hinner))

/-- From a node to one of its parts, the scopes around the node gain what the node has left behind
so far. -/
theorem declaredBefore_part (hs : s ∈ (parse t).root.sites) (hchildren : s.children = L ++ c :: R)
    (hτ : τ ∈ s.enclosing) : DeclaredBefore (parse t).root τ c.path d ↔
      DeclaredBefore (parse t).root τ s.path d ∨
        s.enclosing.head? = some τ ∧ s.Left L d := by
  have hsnug := (regular_parse t).snug
  have hpath := path_of_children hchildren
  constructor
  · rintro ⟨hmem, hdeclares, hbelongs, hbefore⟩
    rw [hpath, Path.precedes_concat] at hbefore
    obtain hbefore | ⟨j, hj, hpre⟩ := hbefore
    · exact .inl ⟨hmem, hdeclares, hbelongs, hbefore⟩
    · -- the declaration is completed within the node
      right
      have hd := Placed.mem_subsites_of_prefix hsnug hs hmem
        (prefix_of_concat_prefix_declaredAfter hpre)
      have hafter : ∃ u ∈ L, u.path <+: d.declaredAfter := by
        obtain ⟨L₁, u, L₂, hL, hlength⟩ : ∃ L₁ u L₂, L = L₁ ++ u :: L₂ ∧ L₁.length = j :=
          ⟨L.take j, L[j], L.drop (j + 1), by simp, by simp; omega⟩
        have hu := path_of_children (s := s) (L := L₁) (t := u) (R := L₂ ++ c :: R)
          (by simp [hchildren, hL])
        rw [hlength] at hu
        exact ⟨u, by simp [hL], hu ▸ hpre⟩
      obtain hhead | ⟨f, hf, p, hp, rfl, hhead⟩ := hbelongs
      · have henclosing := enclosing_eq_of_head? hd hhead hτ
        exact ⟨henclosing ▸ hhead, hd, hdeclares, henclosing, hafter⟩
      · exact (not_mem_ownParams hs hf hτ hp hd hhead).elim
  · rintro (⟨hmem, hdeclares, hbelongs, hbefore⟩ | ⟨hhead, hleft⟩)
    · refine ⟨hmem, hdeclares, hbelongs, hbefore.extend List.prefix_rfl ?_⟩
      rw [hpath]
      exact List.prefix_append _ _
    · obtain ⟨u, hu, hpre⟩ := hleft.after
      refine ⟨mem_sites_of_mem_subsites hs hleft.mem, hleft.declares, .inl ?_, ?_⟩
      · rw [hleft.enclosing, hhead]
      · exact (precedes_of_children hchildren u hu c List.mem_cons_self).extend hpre List.prefix_rfl

/-! ### The scope of a node -/

/-- What belongs to the scope that a node makes is left behind by a part that the node encloses. -/
theorem exists_exports_of_head? (hs : s ∈ (parse t).root.sites) (hd : d ∈ (parse t).root.sites)
    (hdeclares : d.declares?.isSome = true) (hhead : d.enclosing.head? = some s.path) :
    ∃ u : Site, u.parent? = some s ∧ u.enclosing = s.path :: s.enclosing ∧ u.Exports d := by
  obtain ⟨u, hu, hdu, henclosing⟩ :=
    exists_enclosed_child (regular_parse t).snug hd hs (List.mem_of_head? hhead)
  exact ⟨u, hu, henclosing, hdu, hdeclares, enclosing_eq_of_head? hdu hhead (by simp [henclosing])⟩

theorem precedes_iff_mem {u : Site} (hchildren : s.children = L ++ c :: R)
    (hu : u.parent? = some s) (hd : d ∈ u.subsites) :
    d.declaredAfter.Precedes c.path ↔ u ∈ L := by
  have hpre := (path_prefix_of_mem_subsites hd).trans d.path_prefix_declaredAfter
  constructor
  · intro hprec
    have hmem : u ∈ L ++ c :: R := hchildren ▸ mem_children.2 hu
    obtain hmem | hmem := List.mem_append.1 hmem
    · exact hmem
    · obtain rfl | hmem := List.mem_cons.1 hmem
      · exact absurd hpre hprec.not_prefix.2
      · have hafter := precedes_of_children (s := s) (L := L ++ [c]) (R := R) (by simp [hchildren])
          c (by simp) u hmem
        exact absurd hprec.endsBefore (hafter.extend List.prefix_rfl hpre).endsBefore.asymm
  · intro hmem
    exact (precedes_of_children hchildren u hmem c List.mem_cons_self).extend hpre List.prefix_rfl

/-- A node with a scope has in it what its parts have left behind. -/
theorem declaredBefore_scope (hs : s ∈ (parse t).root.sites) (hk : s.node.isNode k = true)
    (hscope : k.role = .scope) (hchildren : s.children = L ++ c :: R) :
    DeclaredBefore (parse t).root s.path c.path d ↔ ∃ u ∈ L, u.Exports d := by
  constructor
  · rintro ⟨hmem, hdeclares, hhead | ⟨f, hf, p, hp, hpath, -⟩, hbefore⟩
    · obtain ⟨u, hu, -, hexports⟩ := exists_exports_of_head? hs hmem hdeclares hhead
      exact ⟨u, (precedes_iff_mem hchildren hu hexports.mem).1 hbefore, hexports⟩
    · obtain rfl := Placed.eq_of_path_eq (regular_parse t).snug hf hs hpath
      have hdef := hp.isDefinition
      simp only [Placed.isNode, decide_eq_true_eq] at hk hdef
      rw [hk] at hdef
      cases hdef
      cases hscope
  · rintro ⟨u, hu, hexports⟩
    have hparent : u.parent? = some s := mem_children.1 (by simp [hchildren, hu])
    refine ⟨mem_sites_of_mem_subsites hs (subsites_subset_of_parent? hparent hexports.mem),
      hexports.declares, .inl ?_, (precedes_iff_mem hchildren hparent hexports.mem).2 hu⟩
    rw [hexports.enclosing, enclosing_of_scope hk hscope hparent]
    rfl

/-- Whether a site declares a name in the parameter list of a definition. -/
structure IsParamOf (f d : Site) : Prop where
  declares : d.declares?.isSome = true
  within : ∃ p, f.IsOwnParams p ∧ d.enclosing.head? = some p.path ∧ d ∈ p.subsites

/-- What follows the declarator of a definition sees the parameters, and what was declared since. -/
theorem declaredBefore_definition (hs : s ∈ (parse t).root.sites)
    (hk : s.node.isNode .functionDef = true) {L₂ : List Site}
    (hparted : s.Parted L X (L₂ ++ c :: R)) (hX : X.enclosing = s.enclosing)
    (hL : ∀ u ∈ L, u.enclosing = s.enclosing ∨ u.node.isTrivia = true)
    (hL₂ : ∀ u ∈ L₂, u.enclosing = s.path :: s.enclosing) :
    DeclaredBefore (parse t).root s.path c.path d ↔
      IsParamOf s d ∨ ∃ u ∈ L₂, u.Exports d := by
  have hsnug := (regular_parse t).snug
  have hchildren : s.children = (L ++ X :: L₂) ++ c :: R := by simp [hparted.children]
  have hXc := precedes_of_children hchildren X (by simp) c (by simp)
  constructor
  · rintro ⟨hmem, hdeclares, hhead | ⟨f, hf, p, hp, hpath, hhead⟩, hbefore⟩
    · right
      obtain ⟨u, hu, henclosing, hexports⟩ := exists_exports_of_head? hs hmem hdeclares hhead
      refine ⟨u, ?_, hexports⟩
      -- the parts up to the declarator are not enclosed
      have hne : u.enclosing ≠ s.enclosing := fun heq => by
        have := congrArg List.length (henclosing.symm.trans heq)
        rw [List.length_cons] at this
        omega
      have hmem := (precedes_iff_mem hchildren hu hexports.mem).1 hbefore
      simp only [List.mem_append, List.mem_cons] at hmem
      obtain hmem | rfl | hmem := hmem
      · have htrivia := (hL u hmem).resolve_left hne
        have hinner := isInner_of_subsites hexports.mem
        rw [Placed.not_isInner_of_isTrivia htrivia] at hinner
        cases hinner
      · exact absurd hX hne
      · exact hmem
    · obtain rfl := Placed.eq_of_path_eq hsnug hf hs hpath
      have hps := mem_sites_of_mem_subsites hf hp.mem
      refine .inl ⟨hdeclares, p, hp, hhead, ?_⟩
      exact Placed.mem_subsites_of_prefix hsnug hps hmem
        (of_mem_enclosing (List.mem_of_head? hhead)).1
  · rintro (⟨hdeclares, p, hp, hhead, hd⟩ | ⟨u, hu, hexports⟩)
    · have hps := mem_sites_of_mem_subsites hs hp.mem
      refine ⟨mem_sites_of_mem_subsites hps hd, hdeclares, .inr ⟨s, hs, p, hp, rfl, hhead⟩, ?_⟩
      have hpX := hp.mem_declarator hs hparted
      have hpre := path_prefix_of_mem_subsites (subsites_subset hpX hd)
      exact hXc.extend (hpre.trans d.path_prefix_declaredAfter) List.prefix_rfl
    · have hu' : u.parent? = some s := mem_children.1 (by simp [hchildren, hu])
      refine ⟨mem_sites_of_mem_subsites hs (subsites_subset_of_parent? hu' hexports.mem),
        hexports.declares, .inl ?_, (precedes_iff_mem hchildren hu' hexports.mem).2 (by simp [hu])⟩
      rw [hexports.enclosing, hL₂ u hu]
      rfl

/-- The parameters of a definition are what the sketch of its declarator says. -/
theorem describes_params (hs : s ∈ (parse t).root.sites) (hk : s.node.isNode .functionDef = true)
    (hparted : s.Parted L X R) :
    Describes (spellings t) (IsParamOf s)
      ((Sketch.node .declarator
        (Placed.sketchAll (spellings t) X.node.children)).paramNames?.getD []) := by
  have hsketch : (Sketch.node .declarator
      (Placed.sketchAll (spellings t) X.node.children)).ownParams? =
      X.node.ownParams?.map fun p => Placed.sketchAll (spellings t) p.children := by
    obtain ⟨start, cs, hnode⟩ := Placed.exists_of_isNode hparted.declarator
    rw [hnode, Placed.children]
    exact Placed.ownParams?_sketch (spellings t) start .declarator cs
  rw [Sketch.paramNames?, hsketch]
  cases hparams : X.node.ownParams? with
  | none =>
    refine Describes.empty fun d hd => ?_
    obtain ⟨p, hp, -⟩ := hd.within
    have heq := hp.eq
    rw [hparted.child?, Option.bind_some, hparams] at heq
    cases heq
  | some q =>
    obtain ⟨hq, p, hp, rfl⟩ := exists_ownParams hparted.declarator hparams
    have hpf := subsites_subset_of_parent? hparted.parent? hp
    have hps := mem_sites_of_mem_subsites hs hpf
    have hparts := describes_parts p.precedes_children fun u hu =>
      describes_part hps hq (mem_children.1 hu)
    rw [map_node_children] at hparts
    refine hparts.congr fun d => ⟨?_, ?_⟩
    · rintro ⟨hdeclares, p', hp', hhead, hd⟩
      obtain rfl := hp'.eq_of_parted hs hparted hp hparams
      obtain ⟨u, hu, -, hexports⟩ :=
        exists_exports_of_head? hps (mem_sites_of_mem_subsites hps hd) hdeclares hhead
      exact ⟨u, mem_children.2 hu, hexports⟩
    · rintro ⟨u, hu, hexports⟩
      have hown : s.IsOwnParams p := ⟨hpf, hk, by rw [hparted.child?, Option.bind_some, hparams]⟩
      refine ⟨hexports.declares, p, hown, ?_,
        subsites_subset_of_parent? (mem_children.1 hu) hexports.mem⟩
      rw [hexports.enclosing, enclosing_of_scope hq rfl (mem_children.1 hu)]
      rfl

/-! ### Scopes along the tree -/

theorem Covers.congr {names : List Text} {root : Placed} {p p' : Path} {τs : List Path}
    {σ : List Names} (h : Covers names root p τs σ)
    (heq : ∀ τ ∈ τs, ∀ d, DeclaredBefore root τ p' d ↔ DeclaredBefore root τ p d) :
    Covers names root p' τs σ := by
  induction h with
  | nil => exact .nil
  | cons hτ _ ih =>
    rw [List.forall_mem_cons] at heq
    exact .cons (hτ.congr heq.1) (ih heq.2)

/-- From a node to one of its parts, the innermost scope around the node gains names. -/
theorem covers_outer {σ : List Names} (hs : s ∈ (parse t).root.sites)
    (hk : s.node.isNode k = true) (hchildren : s.children = L ++ c :: R)
    (h : Covers (spellings t) (parse t).root s.path s.enclosing σ) :
    Covers (spellings t) (parse t).root c.path s.enclosing
      (bring (Sketch.leftEntries (s.setting (spellings t)) k
        (Placed.sketchAll (spellings t) s.node.children)
        (Placed.sketchAll (spellings t) (L.map (·.node)))) σ) := by
  have hleft := describes_left hs hk hchildren fun u hu => by
    have hu : u.parent? = some s := mem_children.1 (by simp [hchildren, hu])
    rw [setting_of_parent? hu hk]
    exact describes_part hs hk hu
  have hpart {τ : Path} (hτ : τ ∈ s.enclosing) (d : Site) :=
    declaredBefore_part (d := d) hs hchildren hτ
  have horder := s.pairwise_enclosing
  generalize s.enclosing = τs at h hpart horder
  cases h with
  | nil => exact .nil
  | cons hτ hτs =>
    rename_i τ τs es σ
    rw [List.pairwise_cons] at horder
    refine .cons ((hτ.append hleft fun d d' hd hd' => ?_).congr fun d => ?_)
      (hτs.congr fun τ' hτ' d => ?_)
    · have hpre := (path_prefix_of_mem_subsites hd'.mem).trans d'.path_prefix_declaredAfter
      exact (hd.before.extend List.prefix_rfl hpre).endsBefore
    · simpa using hpart List.mem_cons_self d
    · -- only the innermost scope gains names
      have hne : τ ≠ τ' := fun heq => by
        have := horder.1 τ' hτ'
        rw [heq] at this
        omega
      simpa [hne] using hpart (List.mem_cons_of_mem τ hτ') d

/-- Whether the names in a part are used as the declarations before it say. -/
def Site.Abides (t : Text) (s : Site) : Prop :=
  ∃ σ, Covers (spellings t) (parse t).root s.path s.enclosing σ ∧
    ∀ x ∈ s.node.sketch (spellings t), x.Agrees σ (s.setting (spellings t))

theorem exists_sketch (names : List Text) {c : Placed} (h : c.isTrivia = false) :
    ∃ x, c.sketch names = [x] := by
  cases c with
  | token start u => exact ⟨_, by rw [Placed.sketch_token, Token.sketch, if_neg (by simpa using h)]⟩
  | node start k cs => exact ⟨_, Placed.sketch_node ..⟩

theorem sketchAll_children {names : List Text} {x : Sketch} (hchildren : s.children = L ++ c :: R)
    (hx : c.node.sketch names = [x]) :
    Placed.sketchAll names s.node.children = Placed.sketchAll names (L.map (·.node)) ++
      x :: Placed.sketchAll names (R.map (·.node)) := by
  rw [← map_node_children, hchildren, List.map_append, List.map_cons, Placed.sketchAll_append,
    Placed.sketchAll_cons, hx, List.singleton_append]

/-- The parts of a definition abide by the declarations before them. -/
theorem abides_definition_part (hs : s ∈ (parse t).root.sites)
    (hk : s.node.isNode .functionDef = true) (hc : c.parent? = some s)
    (hsignificant : c.node.isTrivia = false) (h : s.Abides t) : c.Abides t := by
  obtain ⟨σ, hcovers, hagrees⟩ := h
  obtain ⟨L, R, hchildren⟩ := List.append_of_mem (mem_children.2 hc)
  obtain ⟨x, hx⟩ := exists_sketch (spellings t) hsignificant
  obtain ⟨L₀, X, R₀, hparted, hX, hL₀, hR₀⟩ := split_definition hs hk
  have houter := covers_outer hs hk hchildren hcovers
  rw [Placed.sketch_of_isNode hk, List.forall_mem_singleton, sketchAll_children hchildren hx]
    at hagrees
  unfold Abides
  rw [hx, setting_of_parent? hc hk]
  simp only [List.forall_mem_singleton]
  have hcases : (L <+: L₀ ∧ (c ∈ L₀ ∨ c = X)) ∨ ∃ L₂, L = L₀ ++ X :: L₂ ∧ R₀ = L₂ ++ c :: R := by
    obtain ⟨a, rfl, ha⟩ | ⟨a, rfl, ha⟩ :=
      List.append_eq_append_iff.1 (hchildren.symm.trans hparted.children)
    · cases a with
      | nil => exact .inl ⟨by simp, .inr (List.cons.inj ha).1⟩
      | cons y a =>
        obtain ⟨rfl, -⟩ := List.cons.inj ha
        exact .inl ⟨List.prefix_append _ _, .inl (by simp)⟩
    · cases a with
      | nil => exact .inl ⟨by simp, .inr (List.cons.inj ha).1.symm⟩
      | cons y a =>
        obtain ⟨rfl, rfl⟩ := List.cons.inj ha
        exact .inr ⟨a, rfl, rfl⟩
  obtain ⟨hpre, hmem⟩ | ⟨L₂, rfl, rfl⟩ := hcases
  · -- up to the declarator nothing is enclosed
    have henclosing : c.enclosing = s.enclosing := by
      obtain hmem | rfl := hmem
      · exact (hL₀ c hmem).resolve_right (by simp [hsignificant])
      · exact hX
    have hfirst (u : Site) (hu : u ∈ L) := hparted.first u (hpre.subset hu)
    refine ⟨_, ?_, Sketch.agrees_part_head (Placed.not_isNode_sketchAll (by simpa using hfirst))
      hagrees⟩
    rw [henclosing]
    exact houter
  · have henclosing : c.enclosing = s.path :: s.enclosing := hR₀ c (by simp)
    have hbefore : Placed.sketchAll (spellings t) ((L₀ ++ X :: L₂).map (·.node)) =
        Placed.sketchAll (spellings t) (L₀.map (·.node)) ++
          .node .declarator (Placed.sketchAll (spellings t) X.node.children) ::
            Placed.sketchAll (spellings t) (L₂.map (·.node)) := by
      rw [List.map_append, List.map_cons, Placed.sketchAll_append, Placed.sketchAll_cons,
        hparted.sketch, List.singleton_append]
    rw [hbefore] at hagrees houter
    rw [List.append_assoc, List.cons_append] at hagrees
    refine ⟨_, ?_, Sketch.agrees_part_body
      (Placed.not_isNode_sketchAll (by simpa using hparted.first)) (by simp [Sketch.isNode])
      hagrees⟩
    rw [henclosing]
    refine .cons ?_ houter
    -- the parameters come first, then what was declared since
    have hparams := describes_params hs hk hparted
    have horder := s.precedes_children
    rw [hchildren, List.pairwise_append, List.append_cons, List.pairwise_append] at horder
    have hsince := describes_parts horder.1.2.1 fun u hu =>
      describes_part hs hk (mem_children.1 (by simp [hchildren, hu]))
    refine (hparams.append hsince ?_).congr fun d =>
      declaredBefore_definition hs hk hparted hX hL₀ fun u hu => hR₀ u (by simp [hu])
    rintro d d' ⟨-, p, hp, -, hd⟩ ⟨u, hu, hd'⟩
    have hpX := hp.mem_declarator hs hparted
    exact declaredAfter_endsBefore (horder.1.2.2 X (by simp) u hu) (subsites_subset hpX hd) hd'.mem

/-- The parts of a node that abides by the declarations before it abide by those before them. -/
theorem abides_part (hs : s ∈ (parse t).root.sites) (hc : c.parent? = some s)
    (hsignificant : c.node.isTrivia = false) (h : s.Abides t) : c.Abides t := by
  obtain ⟨k, hk⟩ := exists_isNode_of_parent? hc
  by_cases hdefinition : k.role = .definition
  · obtain rfl : k = .functionDef := by cases k <;> first | rfl | cases hdefinition
    exact abides_definition_part hs hk hc hsignificant h
  obtain ⟨σ, hcovers, hagrees⟩ := h
  obtain ⟨L, R, hchildren⟩ := List.append_of_mem (mem_children.2 hc)
  obtain ⟨x, hx⟩ := exists_sketch (spellings t) hsignificant
  have hparts := sketchAll_children hchildren hx
  have houter := covers_outer hs hk hchildren hcovers
  rw [Placed.sketch_of_isNode hk, List.forall_mem_singleton] at hagrees
  unfold Abides
  rw [hx, setting_of_parent? hc hk]
  simp only [List.forall_mem_singleton]
  rw [hparts] at hagrees houter ⊢
  by_cases hscope : k.role = .scope
  · refine ⟨_, ?_, Sketch.agrees_part_scope hscope hagrees⟩
    rw [enclosing_of_scope hk hscope hc]
    have hleft : Sketch.leftEntries (s.setting (spellings t)) k
        (Placed.sketchAll (spellings t) (L.map (·.node)) ++
          x :: Placed.sketchAll (spellings t) (R.map (·.node)))
        (Placed.sketchAll (spellings t) (L.map (·.node))) = [] := by
      simp only [Sketch.leftEntries, hscope]
    rw [hleft, bring_nil] at houter
    refine .cons ?_ houter
    have horder := s.precedes_children
    rw [hchildren, List.pairwise_append] at horder
    rw [← hparts]
    refine (describes_parts horder.1 fun u hu => ?_).congr
      fun d => declaredBefore_scope hs hk hscope hchildren
    exact describes_part hs hk (mem_children.1 (by simp [hchildren, hu]))
  · refine ⟨_, ?_, Sketch.agrees_part hscope hdefinition hagrees⟩
    rw [enclosing_of_role hk hscope hdefinition hc]
    exact houter

/-- **At every site the scopes of the grammar are the declarations before it.** -/
theorem abides (hs : s ∈ (parse t).root.sites) : s.Abides t := by
  have key : ∀ s ∈ (parse t).root.sites, s ∈ (parse t).root.sites ∧ s.Abides t := by
    refine Placed.sites_induction (fun s c hs hc hinner => ⟨?_, ?_⟩) fun hinner => ⟨?_, [], ?_, ?_⟩
    · exact mem_sites_of_mem_subsites hs.1 (mem_subsites_of_parent? hc hinner)
    · exact abides_part hs.1 hc (Placed.not_isTrivia_of_isInner hinner) hs.2
    · exact mem_subsites_self hinner
    · exact .nil
    · intro x hx
      have hagrees := agrees_root t
      obtain ⟨xs, ys, hsplit⟩ := List.append_of_mem hx
      rw [hsplit, Sketch.agreesAll_append, Sketch.agreesAll_cons] at hagrees
      exact hagrees.2.1
  exact (key s hs).2

/-! ### Looking names up -/

/-- What is found for a name is its latest declaration. -/
theorem Describes.exists_of_find? {names : List Text} {D : Site → Prop} {es : Names} {n : Nat}
    {b : Bool} (h : Describes names D es) (hfind : es.find? n = some b) :
    ∃ d, D d ∧ d.recorded? names = some (n, b) ∧ ∀ d' b', D d' → d'.recorded? names = some (n, b') →
      d' = d ∨ d'.declaredAfter.EndsBefore d.declaredAfter := by
  obtain ⟨ds, hmem, hpair, hmap⟩ := h
  obtain rfl : (· ∈ ds) = D := funext fun d => propext (hmem d)
  clear hmem
  induction ds generalizing es with
  | nil =>
    rw [List.map_nil, eq_comm, List.map_eq_nil_iff] at hmap
    rw [hmap] at hfind
    cases hfind
  | cons d ds ih =>
    cases es with
    | nil => cases hmap
    | cons e es =>
      rw [List.map_cons, List.map_cons, List.cons.injEq] at hmap
      rw [List.pairwise_cons] at hpair
      obtain ⟨m, c⟩ := e
      by_cases hm : n = m
      · subst hm
        rw [Names.find?, List.lookup_cons_self, Option.some.injEq] at hfind
        subst hfind
        refine ⟨d, List.mem_cons_self, hmap.1, fun d' b' hd' _ => ?_⟩
        obtain rfl | hd' := List.mem_cons.1 hd'
        · exact .inl rfl
        · exact .inr (hpair.1 d' hd')
      · have hlookup : Names.find? es n = some b := by
          rw [Names.find?, List.lookup_cons, beq_eq_false_iff_ne.2 hm] at hfind
          exact hfind
        obtain ⟨d₀, hd₀, hrecorded, hlatest⟩ := ih hlookup hpair.2 hmap.2
        refine ⟨d₀, List.mem_cons_of_mem d hd₀, hrecorded, fun d' b' hd' hrecorded' => ?_⟩
        obtain rfl | hd' := List.mem_cons.1 hd'
        · rw [hmap.1, Option.some.injEq, Prod.mk.injEq] at hrecorded'
          exact absurd hrecorded'.1.symm hm
        · exact hlatest d' b' hd' hrecorded'

theorem Describes.not_recorded {names : List Text} {D : Site → Prop} {es : Names} {n : Nat}
    (h : Describes names D es) (hfind : es.find? n = none) {d : Site} (hd : D d) (b : Bool) :
    d.recorded? names ≠ some (n, b) := by
  obtain ⟨ds, hmem, -, hmap⟩ := h
  intro hrecorded
  have hentry : some (n, b) ∈ es.map some := by
    rw [← hmap, ← hrecorded]
    exact List.mem_map_of_mem ((hmem d).2 hd)
  have := List.lookup_eq_none_iff.1 hfind (n, b) (by simpa using hentry)
  simp at this

/-- What is found for a name is found in the innermost scope that declares it. -/
theorem Covers.exists_of_find? {names : List Text} {root : Placed} {p : Path} {τs : List Path}
    {σ : List Names} {n : Nat} {b : Bool} (h : Covers names root p τs σ)
    (hfind : σ.findSome? (·.find? n) = some b) :
    ∃ inner τ outer es, τs = inner ++ τ :: outer ∧
      (∀ τ' ∈ inner, ∀ d b', DeclaredBefore root τ' p d → d.recorded? names ≠ some (n, b')) ∧
      Describes names (DeclaredBefore root τ p) es ∧ es.find? n = some b := by
  induction h with
  | nil => cases hfind
  | @cons τ τs es σ hτ _ ih =>
    rw [List.findSome?_cons] at hfind
    cases hes : es.find? n with
    | some b' =>
      rw [hes] at hfind
      exact ⟨[], τ, τs, es, rfl, by simp, hτ, hes.trans hfind⟩
    | none =>
      rw [hes] at hfind
      obtain ⟨inner, τ', outer, es', rfl, hinner, hrest⟩ := ih hfind
      refine ⟨τ :: inner, τ', outer, es', rfl, ?_, hrest⟩
      rw [List.forall_mem_cons]
      exact ⟨fun d b' hd => hτ.not_recorded hes hd b', hinner⟩

theorem Covers.not_recorded {names : List Text} {root : Placed} {p : Path} {τs : List Path}
    {σ : List Names} {n : Nat} (h : Covers names root p τs σ)
    (hfind : σ.findSome? (·.find? n) = none) :
    ∀ τ ∈ τs, ∀ d b, DeclaredBefore root τ p d → d.recorded? names ≠ some (n, b) := by
  induction h with
  | nil => simp
  | cons hτ _ ih =>
    rw [List.findSome?_cons] at hfind
    split at hfind
    · cases hfind
    · next hes =>
      rw [List.forall_mem_cons]
      exact ⟨fun d b hd => hτ.not_recorded hes hd b, ih hfind⟩

end

section

variable {t : Text} {r s x y : Site} {d : Declaration} {name : Text}

theorem recorded?_of_mem (hd : d ∈ (Inventory.ofTree (parse t).root).declarations)
    (names : List Text) :
    d.site.recorded? names = some (names.idxOf d.name.text, decide (d.kind = .typedefName)) := by
  rw [recorded?, (Inventory.mem_declarations hd).2.1]
  rfl

/-- Only a member of a group declares the name of a type. -/
theorem isTypedef_iff_kind (hd : d ∈ (Inventory.ofTree (parse t).root).declarations) :
    d.IsTypedef ↔ d.kind = .typedefName := by
  have hdeclares := (Inventory.mem_declarations hd).2.1
  obtain ⟨k, hk⟩ : ∃ k, d.site.node.kind = .node k :=
    Placed.exists_kind (isInner_of_mem_subsites (s := ⟨_, []⟩) (Inventory.mem_declarations hd).1)
  have hmember : d.IsTypedef ↔ k = .initDeclarator ∧ d.site.isTypedef = true := by
    constructor
    · intro h
      exact ⟨by simpa [Placed.isNode, hk] using h.member, h.specified⟩
    · rintro ⟨heq, h⟩
      exact ⟨by simpa [Placed.isNode, hk] using heq, h⟩
  rw [hmember]
  rw [declares?, hk] at hdeclares
  cases k with
  | initDeclarator =>
    obtain ⟨x, -, hx⟩ := Option.bind_eq_some_iff.1 hdeclares
    obtain ⟨name, -, hname⟩ := Option.bind_eq_some_iff.1 hx
    obtain ⟨-, hkind, -⟩ : name = d.name ∧ d.site.memberKind x = d.kind ∧ _ := by simpa using hname
    rw [← hkind, memberKind_eq_typedefName]
    simp
  | param =>
    obtain ⟨x, -, hx⟩ := Option.bind_eq_some_iff.1 hdeclares
    obtain ⟨name, -, hname⟩ := Option.bind_eq_some_iff.1 hx
    obtain ⟨-, hkind, -⟩ : name = d.name ∧ DeclKind.param = d.kind ∧ _ := by simpa using hname
    simp [← hkind]
  | functionDef =>
    obtain ⟨x, -, hx⟩ := Option.bind_eq_some_iff.1 hdeclares
    obtain ⟨name, -, hname⟩ := Option.bind_eq_some_iff.1 hx
    obtain ⟨-, hkind, -⟩ : name = d.name ∧ DeclKind.function = d.kind ∧ _ := by simpa using hname
    simp [← hkind]
  | enumerator =>
    obtain ⟨x, -, hx⟩ := Option.bind_eq_some_iff.1 hdeclares
    obtain ⟨name, -, hname⟩ := Option.bind_eq_some_iff.1 hx
    obtain ⟨-, hkind, -⟩ : name = d.name ∧ DeclKind.enumerator = d.kind ∧ _ := by simpa using hname
    simp [← hkind]
  | _ => cases hdeclares

/-- A known declaration is among those that the scopes describe. -/
theorem Declaration.Known.declaredBefore {τ : Path} (h : d.Known (parse t).root name r τ) :
    DeclaredBefore (parse t).root τ r.path d.site := by
  obtain ⟨hsite, hdeclares, -⟩ := Inventory.mem_declarations h.mem
  exact ⟨hsite, by rw [hdeclares]; rfl, h.belongs, h.before⟩

/-- **What the scopes say of a name is what its visible declaration is.** -/
theorem isTypedef_iff_denotes {σ : List Names}
    (h : Covers (spellings t) (parse t).root r.path r.enclosing σ) :
    Names.isTypedef σ ((spellings t).idxOf name) = true ↔
      ∃ d, Denotes (parse t).root name r d ∧ d.IsTypedef := by
  have hknown {d : Declaration} {τ : Path} (hd : d.Known (parse t).root name r τ) :
      d.site.recorded? (spellings t) =
        some ((spellings t).idxOf name, decide (d.kind = .typedefName)) := by
    rw [recorded?_of_mem hd.mem, hd.named]
  unfold Names.isTypedef
  cases hfind : σ.findSome? (·.find? ((spellings t).idxOf name)) with
  | none =>
    refine ⟨fun h => absurd h (by simp), ?_⟩
    rintro ⟨d, ⟨τ, hd, -⟩, -⟩
    exact absurd (hknown hd) (h.not_recorded hfind τ hd.scope d.site _ hd.declaredBefore)
  | some b =>
    obtain ⟨inner, τ, outer, es, hτs, hinner, hdescribes, hes⟩ := h.exists_of_find? hfind
    obtain ⟨s, hs, hrecorded, hlatest⟩ := hdescribes.exists_of_find? hes
    -- the site that was found declares the name
    obtain ⟨⟨leaf, kind, storage⟩, hdeclares⟩ := Option.isSome_iff_exists.1 hs.declares
    obtain ⟨d, hd, rfl, rfl, rfl, -⟩ := Inventory.exists_mem_declarations hs.mem hdeclares
    rw [recorded?_of_mem hd, Option.some.injEq, Prod.mk.injEq] at hrecorded
    have hnamed : d.name.text = name :=
      (List.idxOf_inj (name_mem_spellings hs.mem hdeclares)).1 hrecorded.1
    have hscope : τ ∈ r.enclosing := by simp [hτs]
    have hdenotes : Denotes (parse t).root name r d := by
      refine ⟨τ, ⟨hd, hnamed, hs.before, hscope, hs.belongs⟩, fun d' τ' hd' => ?_⟩
      have hmem : τ' ∈ inner ++ τ :: outer := hτs ▸ hd'.scope
      have horder := r.pairwise_enclosing
      rw [hτs, List.pairwise_append, List.pairwise_cons] at horder
      obtain hmem | hmem := List.mem_append.1 hmem
      · exact absurd (hknown hd') (hinner τ' hmem d'.site _ hd'.declaredBefore)
      · obtain rfl | hmem := List.mem_cons.1 hmem
        · refine .inr ⟨rfl, ?_⟩
          obtain heq | hends := hlatest d'.site _ hd'.declaredBefore (hknown hd')
          · exact .inl (Inventory.eq_of_site_eq (regular_parse t).snug hd'.mem hd heq)
          · exact .inr hends
        · exact .inl (horder.2.1.1 τ' hmem)
    have hkind : b = true ↔ d.IsTypedef := by
      rw [isTypedef_iff_kind hd, ← hrecorded.2, decide_eq_true_iff]
    rw [Option.getD_some, hkind]
    refine ⟨fun h => ⟨d, hdenotes, h⟩, fun ⟨d', hd', h⟩ => ?_⟩
    rwa [denotes_unique hdenotes hd']

/-! ### First tokens -/

/-- A declaration is known at the first part of a node if it is known at the node. -/
theorem known_first_iff {root : Placed} {τ : Path} (hy : y.parent? = some x)
    (hfirst : y.before = []) : d.Known root name y τ ↔ d.Known root name x τ := by
  have hpath : y.path = x.path ++ [0] := by rw [path_of_parent? hy, hfirst, List.length_nil]
  have hbefore : d.site.declaredAfter.Precedes y.path ↔ d.site.declaredAfter.Precedes x.path := by
    rw [hpath, Path.precedes_concat]
    simp
  constructor
  · rintro ⟨hmem, hnamed, hprec, hscope, hbelongs⟩
    rw [hbefore] at hprec
    refine ⟨hmem, hnamed, hprec, ?_, hbelongs⟩
    obtain heq | heq := enclosing_cases hy
    · exact heq ▸ hscope
    · rw [heq] at hscope
      obtain rfl | hscope := List.mem_cons.1 hscope
      · -- what is in the scope of the node comes later
        have hpre : x.path <+: d.site.path := by
          obtain hhead | ⟨f, -, p, hp, hf, hhead⟩ := hbelongs
          · exact (of_mem_enclosing (List.mem_of_head? hhead)).1
          · rw [← hf]
            exact (path_prefix_of_mem_subsites hp.mem).trans
              (of_mem_enclosing (List.mem_of_head? hhead)).1
        exact absurd (hpre.trans d.site.path_prefix_declaredAfter) hprec.not_prefix.2
      · exact hscope
  · rintro ⟨hmem, hnamed, hprec, hscope, hbelongs⟩
    refine ⟨hmem, hnamed, hbefore.2 hprec, ?_, hbelongs⟩
    obtain heq | heq := enclosing_cases hy
    · exact heq ▸ hscope
    · rw [heq]
      exact List.mem_cons_of_mem _ hscope

/-- A name denotes the same at a node and at its first token. -/
theorem denotes_begins_iff {root : Placed} (h : s.Begins x) :
    Denotes root name x d ↔ Denotes root name s d := by
  induction h with
  | self => exact Iff.rfl
  | first _ hy hfirst ih =>
    rw [← ih]
    unfold Denotes
    simp only [known_first_iff hy hfirst]

theorem firstToken?_of_begins (h : s.Begins x) : x.node.firstToken? = s.node.firstToken? := by
  induction h with
  | self => rfl
  | @first x y _ hy hfirst ih =>
    obtain ⟨start, kind, l, r, hnode, habove⟩ := parent?_eq_some.1 hy
    have hl : l = [] := by simpa [before, habove] using hfirst
    rw [← ih, hnode, hl, List.nil_append, Placed.firstToken?, Placed.firstTokenOf?]

end

/-- **Names of types follow the scopes.** A name among specifiers denotes a typedef, and the name
that a statement in a block begins with does not. -/
theorem typedef_follows_scopes (t : Text) :
    (∀ s ∈ (parse t).root.sites, s.node.isNode .specifiers = true →
      ∀ x : Site, x.parent? = some s → ∀ start u, x.node = .token start u → u.kind = .identifier →
        ∃ d, Denotes (parse t).root u.text x d ∧ d.IsTypedef) ∧
    ∀ s ∈ (parse t).root.sites, s.node.isNode .exprStmt = true →
      s.parentKind? = some .compoundStmt →
      ∀ x, s.Begins x → ∀ start u, x.node = .token start u → u.kind = .identifier →
        ∀ d, Denotes (parse t).root u.text x d → ¬ d.IsTypedef := by
  constructor
  · intro s hs hk x hx start u hnode hident
    have hsignificant : x.node.isTrivia = false := by
      rw [hnode, Placed.isTrivia_token, Token.isTrivia, hident]
      rfl
    obtain ⟨σ, hcovers, hagrees⟩ := abides_part hs hx hsignificant (abides hs)
    rw [setting_of_parent? hx hk, hnode, Placed.sketch_token, Token.sketch,
      if_neg (by simpa [hnode] using hsignificant), List.forall_mem_singleton,
      Sketch.agrees_leaf] at hagrees
    refine (isTypedef_iff_denotes hcovers).1 ?_
    simpa [Symbol.ofToken, hident] using hagrees rfl hident
  · intro s hs hk hparent x hx start u hnode hident d hd htypedef
    have hfirst : s.node.firstToken? = some ⟨start, u⟩ := by
      rw [← firstToken?_of_begins hx, hnode]
      rfl
    have hsignificant : u.isTrivia = false := by
      rw [Token.isTrivia, hident]
      rfl
    have hsetting : s.setting (spellings t) = .block := by
      unfold parentKind? at hparent
      unfold setting
      cases habove : s.above with
      | nil => simp [habove] at hparent
      | cons crumb above =>
        have hkind : crumb.kind = .compoundStmt := by simpa [habove] using hparent
        show Setting.below crumb.kind _ = .block
        rw [hkind, Setting.below]
    obtain ⟨σ, hcovers, hagrees⟩ := abides hs
    obtain ⟨first, cs, hs⟩ := Placed.exists_of_isNode hk
    rw [hs] at hfirst hagrees
    rw [hsetting, Placed.sketch_node, List.forall_mem_singleton, Sketch.Agrees] at hagrees
    have hbegin := hagrees.1 _ (Placed.head?_symbols_sketchAll (spellings t) cs hfirst hsignificant)
    have hnot := hbegin.statement rfl rfl hident
    have htype := (isTypedef_iff_denotes hcovers).2 ⟨d, (denotes_begins_iff hx).1 hd, htypedef⟩
    rw [show (Symbol.ofToken (spellings t) u).name = (spellings t).idxOf u.text by
      simp [Symbol.ofToken, hident]] at hnot
    rw [hnot] at htype
    cases htype

/-- A typedef that a parameter shadows in the body. -/
theorem typedef_follows_scopes_shadowed :
    let t : Text := "typedef int T; T f(T T) \x7b T; \x7d".toList
    (∃ s ∈ (parse t).root.sites, s.node.isNode .specifiers = true ∧
      ∃ x : Site, x.parent? = some s ∧ ∃ start u, x.node = .token start u ∧ u.kind = .identifier ∧
        ∃ d, Denotes (parse t).root u.text x d ∧ d.IsTypedef) ∧
    ∃ s ∈ (parse t).root.sites, s.node.isNode .exprStmt = true ∧
      s.parentKind? = some .compoundStmt ∧
      ∃ x, s.Begins x ∧ ∃ start u, x.node = .token start u ∧ u.kind = .identifier ∧
        ∀ d, Denotes (parse t).root u.text x d → ¬ d.IsTypedef := by
  intro t
  obtain ⟨hspecifiers, hstatement⟩ := typedef_follows_scopes t
  have htoken {x : Site} (h : x.node.isToken .identifier = true) :
      ∃ start u, x.node = .token start u ∧ u.kind = .identifier := by
    cases hnode : x.node with
    | node start k cs => simp [hnode, Placed.isToken, Placed.kind] at h
    | token start u => exact ⟨start, u, rfl, by simpa [hnode, Placed.isToken, Placed.kind] using h⟩
  constructor
  · have hfound : (parse t).root.sites.any (fun s => s.node.isNode .specifiers &&
        s.children.any fun x => x.node.isToken .identifier) = true := by decide +kernel
    simp only [List.any_eq_true, Bool.and_eq_true] at hfound
    obtain ⟨s, hs, hk, x, hx, hident⟩ := hfound
    obtain ⟨start, u, hnode, hkind⟩ := htoken hident
    have hparent := mem_children.1 hx
    exact ⟨s, hs, hk, x, hparent, start, u, hnode, hkind,
      hspecifiers s hs hk x hparent start u hnode hkind⟩
  · have hfound : (parse t).root.sites.any (fun s => s.node.isNode .exprStmt &&
        decide (s.parentKind? = some .compoundStmt) && s.children.any fun y => y.before.isEmpty &&
          y.children.any fun x => x.before.isEmpty && x.node.isToken .identifier) = true := by
      decide +kernel
    simp only [List.any_eq_true, Bool.and_eq_true, decide_eq_true_eq, List.isEmpty_iff] at hfound
    obtain ⟨s, hs, ⟨hk, hparent⟩, y, hy, hyfirst, x, hx, hxfirst, hident⟩ := hfound
    obtain ⟨start, u, hnode, hkind⟩ := htoken hident
    have hbegins : s.Begins x :=
      .first (.first .self (mem_children.1 hy) hyfirst) (mem_children.1 hx) hxfirst
    exact ⟨s, hs, hk, hparent, x, hbegins, start, u, hnode, hkind,
      hstatement s hs hk hparent x hbegins start u hnode hkind⟩

end Whittle
