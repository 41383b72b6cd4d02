import Whittle.Proofs.Declaration.Level

/-!
# What a name denotes where it is read

While a text is read, a name already means something, and the grammar depends on it. The scopes are
those of C at that moment: a parameter list has a scope even where a function is defined, and what
follows the declarator of a definition also sees the names in its parameter list.

* `Site.enclosing`: the scopes that enclose a site, the innermost first.
* `Site.declaredAfter`: the part after which the name that a site declares is known.
* `Site.BelongsTo`: whether a declaration belongs to a scope.
* `Denotes`: **a name denotes its latest declaration before in the innermost scope that has one.**
* `denotes_unique`: a name denotes at most one declaration.
-/

namespace Whittle

/-- The parameter list that belongs to a declarator: the first suffix of the innermost level whose
first suffix is a parameter list. -/
def Placed.ownParams? (declarator : Placed) : Option Placed :=
  declarator.declaratorLevels.findSome? fun level =>
    (level.children.find? (·.suffix?.isSome)).filter (·.isNode .paramList)

/-- Whether a part of a node stands in a scope that the node makes. A function definition makes one
for what follows its declarator. -/
def NodeKind.encloses (k : NodeKind) (part : Placed) : Bool :=
  match k with
  | .root | .compoundStmt | .forStmt | .paramList => true
  | .functionDef => !(part.isNode .specifiers || part.isNode .declarator)
  | _ => false

/-- The scopes that enclose a part, the innermost first. A scope is known by its path. -/
def Placed.enclosingScopes (t : Placed) : List Crumb → List Path
  | [] => []
  | c :: rest =>
    if c.kind.encloses t then
      Site.path ⟨c.around t, rest⟩ :: (c.around t).enclosingScopes rest
    else (c.around t).enclosingScopes rest

namespace Site

/-- The scopes that enclose a site, the innermost first. -/
def enclosing (s : Site) : List Path := s.node.enclosingScopes s.above

/-- The part after which the name of a site is known: the declarator of a member of a group, of a
parameter and of a definition, and all of an enumerator. -/
def declaredAfter (s : Site) : Path :=
  match s.node.kind with
  | .node .initDeclarator | .node .param | .node .functionDef =>
    s.path ++ [s.node.children.findIdx (·.isNode .declarator)]
  | _ => s.path

/-- Whether a site is the parameter list that belongs to a function definition. -/
structure IsOwnParams (f p : Site) : Prop where
  mem : p ∈ f.subsites
  isDefinition : f.node.isNode .functionDef = true
  eq : (f.node.child? .declarator).bind Placed.ownParams? = some p.node

/-- Whether the name of a site belongs to a scope: the scope is the innermost one around the site,
or that of a definition in whose parameter list the site stands. -/
def BelongsTo (root : Placed) (s : Site) (σ : Path) : Prop :=
  s.enclosing.head? = some σ ∨
    ∃ f ∈ root.sites, ∃ p, f.IsOwnParams p ∧ f.path = σ ∧ s.enclosing.head? = some p.path

/-- Whether a member of a group declares the name of a type: the specifiers of the group hold
`typedef`. -/
def isTypedef (s : Site) : Bool :=
  (s.parent?.bind (·.node.child? .specifiers)).any (·.hasToken .kwTypedef)

/-- Whether a part of a site comes first in it, at any depth. -/
inductive Begins (s : Site) : Site → Prop
  | self : s.Begins s
  | first {x y : Site} (hx : s.Begins x) (hy : y.parent? = some x) (hfirst : y.before = []) :
      s.Begins y

end Site

/-- Whether a declaration declares the name of a type: it is a member of a group whose specifiers
hold `typedef`. -/
structure Declaration.IsTypedef (d : Declaration) : Prop where
  member : d.site.node.isNode .initDeclarator = true
  specified : d.site.isTypedef = true

/-- Whether a declaration of a name stands before a site and belongs to a scope that encloses the
site. -/
structure Declaration.Known (root : Placed) (d : Declaration) (name : Text) (r : Site) (σ : Path) :
    Prop where
  mem : d ∈ (Inventory.ofTree root).declarations
  named : d.name.text = name
  before : d.site.declaredAfter.Precedes r.path
  scope : σ ∈ r.enclosing
  belongs : d.site.BelongsTo root σ

/-- **What a name denotes at a site:** its latest declaration before the site in the innermost scope
that has one. -/
def Denotes (root : Placed) (name : Text) (r : Site) (d : Declaration) : Prop :=
  ∃ σ, d.Known root name r σ ∧ ∀ d' σ', d'.Known root name r σ' →
    σ'.length < σ.length ∨
      σ' = σ ∧ (d' = d ∨ d'.site.declaredAfter.EndsBefore d.site.declaredAfter)

/-- A name denotes at most one declaration. -/
theorem denotes_unique {root : Placed} {name : Text} {r : Site} {d d' : Declaration}
    (h : Denotes root name r d) (h' : Denotes root name r d') : d = d' := by
  obtain ⟨σ, hknown, hlatest⟩ := h
  obtain ⟨σ', hknown', hlatest'⟩ := h'
  obtain hlt | ⟨rfl, heq | hends⟩ := hlatest d' σ' hknown'
  · obtain hlt' | ⟨rfl, -⟩ := hlatest' d σ hknown
    · omega
    · omega
  · exact heq.symm
  · obtain hlt | ⟨-, heq | hends'⟩ := hlatest' d σ' hknown
    · omega
    · exact heq
    · exact absurd hends' hends.asymm

/-! ### Paths -/

namespace Path

/-- What comes before a part comes before the node around it, or lies in a part further left. -/
theorem precedes_concat {p q : Path} {i : Nat} :
    Precedes p (q ++ [i]) ↔ Precedes p q ∨ ∃ j < i, q ++ [j] <+: p := by
  induction q generalizing p with
  | nil =>
    cases p with
    | nil => simp [Precedes]
    | cons m p => simp [Precedes, List.cons_prefix_cons]
  | cons k q ih =>
    cases p with
    | nil => simp [Precedes]
    | cons m p =>
      simp only [List.cons_append, Precedes, ih, List.cons_prefix_cons]
      constructor
      · rintro (hlt | ⟨rfl, hprec | ⟨j, hj, hpre⟩⟩)
        · exact .inl (.inl hlt)
        · exact .inl (.inr ⟨rfl, hprec⟩)
        · exact .inr ⟨j, hj, rfl, hpre⟩
      · rintro ((hlt | ⟨rfl, hprec⟩) | ⟨j, hj, rfl, hpre⟩)
        · exact .inl hlt
        · exact .inr ⟨rfl, .inl hprec⟩
        · exact .inr ⟨rfl, .inr ⟨j, hj, hpre⟩⟩

theorem Precedes.extend {p p' q q' : Path} (h : Precedes p q) (hp : p <+: p') (hq : q <+: q') :
    Precedes p' q' := by
  obtain ⟨a, rfl⟩ := hp
  obtain ⟨b, rfl⟩ := hq
  fun_induction Precedes p q with
  | case1 i p j q ih => exact h.imp id (And.imp id ih)
  | case2 => exact h.elim

end Path

/-! ### Enclosing scopes -/

namespace Site

variable {s t c f p d : Site} {σ : Path} {root : Placed}

theorem enclosing_of_parent? (h : c.parent? = some s) {k : NodeKind} (hk : s.node.isNode k = true) :
    c.enclosing = if k.encloses c.node then s.path :: s.enclosing else s.enclosing := by
  obtain ⟨start, kind, l, r, hnode, habove⟩ := parent?_eq_some.1 h
  obtain ⟨node, above⟩ := s
  subst hnode
  obtain rfl := Placed.isNode_node.1 hk
  simp [enclosing, habove, Placed.enclosingScopes, Crumb.around]

theorem exists_isNode_of_parent? (h : c.parent? = some s) : ∃ k, s.node.isNode k = true := by
  obtain ⟨start, kind, l, r, hnode, -⟩ := parent?_eq_some.1 h
  exact ⟨kind, by rw [hnode]; exact Placed.isNode_node.2 rfl⟩

/-- A part is enclosed by the scopes around the node above it, and perhaps by that of the node. -/
theorem enclosing_cases (h : c.parent? = some s) :
    c.enclosing = s.enclosing ∨ c.enclosing = s.path :: s.enclosing := by
  obtain ⟨k, hk⟩ := exists_isNode_of_parent? h
  rw [enclosing_of_parent? h hk]
  split
  · exact .inr rfl
  · exact .inl rfl

/-- The scopes that enclose a site lie strictly above it. -/
theorem of_mem_enclosing (h : σ ∈ s.enclosing) : σ <+: s.path ∧ σ.length < s.path.length := by
  obtain ⟨node, above⟩ := s
  induction above generalizing node with
  | nil => simp [enclosing, Placed.enclosingScopes] at h
  | cons crumb above ih =>
    have hparent : (Site.mk node (crumb :: above)).parent? = some ⟨crumb.around node, above⟩ := rfl
    have hpath := path_of_parent? hparent
    have hself : Site.path ⟨crumb.around node, above⟩ <+: Site.path ⟨node, crumb :: above⟩ := by
      rw [hpath]
      exact List.prefix_append _ _
    have hlength : (Site.path ⟨crumb.around node, above⟩).length <
        (Site.path ⟨node, crumb :: above⟩).length := by
      rw [hpath, List.length_append, List.length_singleton]
      exact Nat.lt_succ_self _
    have hmem : σ = Site.path ⟨crumb.around node, above⟩ ∨
        σ ∈ Site.enclosing ⟨crumb.around node, above⟩ := by
      obtain heq | heq := enclosing_cases hparent
      · exact .inr (heq ▸ h)
      · rw [heq] at h
        exact List.mem_cons.1 h
    obtain rfl | hmem := hmem
    · exact ⟨hself, hlength⟩
    · obtain ⟨hpre, hlt⟩ := ih _ hmem
      exact ⟨hpre.trans hself, Nat.lt_trans hlt hlength⟩

/-- The scopes that enclose a site get shorter outwards. -/
theorem pairwise_enclosing (s : Site) : s.enclosing.Pairwise fun σ τ => τ.length < σ.length := by
  obtain ⟨node, above⟩ := s
  induction above generalizing node with
  | nil => simp [enclosing, Placed.enclosingScopes]
  | cons crumb above ih =>
    have hparent : (Site.mk node (crumb :: above)).parent? = some ⟨crumb.around node, above⟩ := rfl
    obtain heq | heq := enclosing_cases hparent
    · rw [heq]
      exact ih _
    · rw [heq]
      exact List.pairwise_cons.2 ⟨fun τ hτ => (of_mem_enclosing hτ).2, ih _⟩

/-- A site is enclosed by the scopes around any site above it, and by scopes in between. -/
theorem enclosing_of_mem_subsites (h : t ∈ s.subsites) :
    ∃ inner, t.enclosing = inner ++ s.enclosing ∧ ∀ σ ∈ inner, s.path <+: σ := by
  have key : ∀ t ∈ s.subsites, s.path <+: t.path ∧
      ∃ inner, t.enclosing = inner ++ s.enclosing ∧ ∀ σ ∈ inner, s.path <+: σ := by
    refine subsites_induction (fun u c hu hc _ => ⟨?_, ?_⟩)
      (fun _ => ⟨List.prefix_rfl, [], rfl, by simp⟩)
    · rw [path_of_parent? hc]
      exact hu.1.trans (List.prefix_append _ _)
    · obtain ⟨inner, henclosing, hinner⟩ := hu.2
      obtain heq | heq := enclosing_cases hc
      · exact ⟨inner, heq.trans henclosing, hinner⟩
      · exact ⟨u.path :: inner, by rw [heq, henclosing]; rfl, by simpa [hu.1] using hinner⟩
  exact (key t h).2

/-- A scope around a site that is not around one above it lies at or below that one. -/
theorem enclosing_eq_of_head? {τ : Path} (h : t ∈ s.subsites) (ht : t.enclosing.head? = some τ)
    (hτ : τ ∈ s.enclosing) : t.enclosing = s.enclosing := by
  obtain ⟨inner, henclosing, hinner⟩ := enclosing_of_mem_subsites h
  cases inner with
  | nil => exact henclosing
  | cons σ inner =>
    rw [henclosing, List.cons_append, List.head?_cons, Option.some.injEq] at ht
    subst ht
    have hle := (hinner σ List.mem_cons_self).length_le
    have hlt := (of_mem_enclosing hτ).2
    omega

/-! ### Where names are declared -/

theorem path_prefix_declaredAfter (s : Site) : s.path <+: s.declaredAfter := by
  unfold declaredAfter
  split
  · exact List.prefix_append _ _
  · exact List.prefix_append _ _
  · exact List.prefix_append _ _
  · exact List.prefix_rfl

/-- What is declared below a part that comes first is declared first. -/
theorem declaredAfter_endsBefore {c c' d d' : Site} (hprec : c.path.Precedes c'.path)
    (hd : d ∈ c.subsites) (hd' : d' ∈ c'.subsites) :
    d.declaredAfter.EndsBefore d'.declaredAfter :=
  (hprec.extend ((path_prefix_of_mem_subsites hd).trans d.path_prefix_declaredAfter)
    ((path_prefix_of_mem_subsites hd').trans d'.path_prefix_declaredAfter)).endsBefore

end Site

end Whittle
