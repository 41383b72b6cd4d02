import Whittle.Proofs.Declaration.Inventory

/-!
# What a use of a name sees

The scoping rule of C, said of the sites of a tree and without a walk over it.

* `Site.scopes`: the scopes around a site, the innermost first. A scope is known by its path.
* `Site.point`: the part after which the name that a site declares is declared.
* `Declaration.Visible`: a declaration is visible at a use of its name if it is declared before in a
  scope around the use.
* `Sees`: **a use sees the latest visible declaration in the innermost scope that has one.**
* `sees_unique`: a use sees at most one declaration.
-/

namespace Whittle

/-- The node that a step down starts from. -/
def Crumb.around (c : Crumb) (t : Placed) : Placed :=
  .node c.start c.kind (c.before.reverse ++ t :: c.after)

/-- Where the parameter list starts that belongs to the function definition around a part. -/
def Placed.definitionParams? (t : Placed) : List Crumb → Option Nat
  | [] => none
  | c :: rest =>
    if c.kind = .functionDef then
      (((c.around t).child? .declarator).bind functionParams?).map (·.start)
    else (c.around t).definitionParams? rest

namespace Site

/-- Whether a node has a scope of its own: the file, a function definition, a block, a `for` loop,
and a parameter list, unless it is that of a definition. -/
def isScope (s : Site) : Bool :=
  match s.node.kind with
  | .node .root | .node .functionDef | .node .compoundStmt | .node .forStmt => true
  | .node .paramList => s.node.definitionParams? s.above ≠ some s.node.start
  | _ => false

end Site

/-- The scopes around a part, the innermost first. The specifiers of a function definition do not
belong to its scope. -/
def Placed.scopesAround (t : Placed) : List Crumb → List Path
  | [] => []
  | c :: rest =>
    let up : Site := ⟨c.around t, rest⟩
    if up.isScope && !(c.kind = .functionDef && t.isNode .specifiers) then
      up.path :: (c.around t).scopesAround rest
    else (c.around t).scopesAround rest

namespace Site

/-- The scopes around a site, the innermost first. -/
def scopes (s : Site) : List Path := s.node.scopesAround s.above

/-- The part after which the name of a site is declared: the declarator of a member of a group, the
specifiers of a function definition, and all of a parameter or an enumerator. -/
def point (s : Site) : Path :=
  match s.node.kind with
  | .node .initDeclarator => s.path ++ [s.node.children.findIdx (·.isNode .declarator)]
  | .node .functionDef => s.path ++ [s.node.children.findIdx (·.isNode .specifiers)]
  | _ => s.path

/-- Whether a member of a group has linkage: the group stands at the top of the file or is
`extern`. -/
def linkage (s : Site) : Bool :=
  match s.parent? with
  | none => false
  | some group =>
    group.parentKind? = some .root ||
      (group.node.child? .specifiers).any (·.hasToken .kwExtern)

/-- Whether a site is a use of a name. -/
def Uses (s : Site) (name : Text) : Prop :=
  s.node.isNode .nameRef = true ∧ s.node.firstToken?.map (·.text) = some name

end Site

namespace Declaration

/-- The scope that a name belongs to. -/
def scope (d : Declaration) : Path := d.site.scopes.headD []

/-- Whether a declaration is visible at a use of its name. -/
structure Visible (d : Declaration) (r : Site) : Prop where
  uses : r.Uses d.name.text
  scope : d.scope ∈ r.scopes
  earlier : d.site.point.Precedes r.path

/-- Whether a declaration gives way to another visible one: it is that one, or it belongs to a scope
further out, or to the same scope and is declared earlier. -/
def YieldsTo (d d' : Declaration) : Prop :=
  d = d' ∨ d.scope.length < d'.scope.length ∨
    d.scope = d'.scope ∧ d.site.point.EndsBefore d'.site.point

end Declaration

/-- **Whether a use sees a declaration:** the latest visible one in the innermost scope that has
one. -/
structure Sees (root : Placed) (r : Site) (d : Declaration) : Prop where
  mem : d ∈ (Inventory.ofTree root).declarations
  visible : d.Visible r
  latest : ∀ d' ∈ (Inventory.ofTree root).declarations, d'.Visible r → d'.YieldsTo d

/-- A use sees at most one declaration. -/
theorem sees_unique {root : Placed} {r : Site} {d d' : Declaration} (h : Sees root r d)
    (h' : Sees root r d') : d = d' := by
  obtain rfl | hlt | ⟨heq, hends⟩ := h.latest d' h'.mem h'.visible
  · rfl
  · obtain rfl | hlt' | ⟨heq', -⟩ := h'.latest d h.mem h.visible
    · rfl
    · omega
    · rw [heq'] at hlt
      omega
  · obtain rfl | hlt' | ⟨-, hends'⟩ := h'.latest d h.mem h.visible
    · rfl
    · rw [heq] at hlt'
      omega
    · exact absurd hends' hends.asymm

/-! ### Scopes of sites -/

namespace Site

variable {s t c : Site} {σ : Path}

theorem scopes_of_parent? (h : c.parent? = some s) :
    c.scopes = if s.isScope && !(s.node.isNode .functionDef && c.node.isNode .specifiers) then
      s.path :: s.scopes else s.scopes := by
  obtain ⟨start, kind, l, r, hnode, habove⟩ := parent?_eq_some.1 h
  obtain ⟨node, above⟩ := s
  subst hnode
  simp [scopes, habove, Placed.scopesAround, Crumb.around, Placed.isNode, Placed.kind]

/-- The scopes around a site lie strictly above it. -/
theorem length_lt_of_mem_scopes (h : σ ∈ s.scopes) : σ.length < s.path.length := by
  obtain ⟨node, above⟩ := s
  induction above generalizing node with
  | nil => simp [scopes, Placed.scopesAround] at h
  | cons crumb above ih =>
    have hparent : (Site.mk node (crumb :: above)).parent? = some ⟨crumb.around node, above⟩ := rfl
    have hpath := path_of_parent? hparent
    rw [hpath, List.length_append, List.length_singleton]
    rw [scopes_of_parent? hparent] at h
    split at h
    · obtain rfl | h := List.mem_cons.1 h
      · exact Nat.lt_succ_self _
      · exact Nat.lt_succ_of_lt (ih _ h)
    · exact Nat.lt_succ_of_lt (ih _ h)

/-- The scopes around a site get shorter outwards. -/
theorem pairwise_scopes (s : Site) : s.scopes.Pairwise fun σ τ => τ.length < σ.length := by
  obtain ⟨node, above⟩ := s
  induction above generalizing node with
  | nil => simp [scopes, Placed.scopesAround]
  | cons crumb above ih =>
    have hparent : (Site.mk node (crumb :: above)).parent? = some ⟨crumb.around node, above⟩ := rfl
    rw [scopes_of_parent? hparent]
    split
    · exact List.pairwise_cons.2 ⟨fun τ => length_lt_of_mem_scopes, ih _⟩
    · exact ih _

/-- Around a site lie the scopes around any site above it, and scopes in between. -/
theorem scopes_of_mem_subsites (h : t ∈ s.subsites) :
    ∃ inner, t.scopes = inner ++ s.scopes ∧ ∀ σ ∈ inner, s.path <+: σ := by
  have key : ∀ t ∈ s.subsites, s.path <+: t.path ∧
      ∃ inner, t.scopes = inner ++ s.scopes ∧ ∀ σ ∈ inner, s.path <+: σ := by
    refine subsites_induction (fun u c hu hc _ => ⟨?_, ?_⟩)
      (fun _ => ⟨List.prefix_rfl, [], rfl, by simp⟩)
    · rw [path_of_parent? hc]
      exact hu.1.trans (List.prefix_append _ _)
    · obtain ⟨inner, hscopes, hinner⟩ := hu.2
      rw [scopes_of_parent? hc]
      split
      · exact ⟨u.path :: inner, by simp [hscopes], by simpa [hu.1] using hinner⟩
      · exact ⟨inner, hscopes, hinner⟩
  exact (key t h).2

end Site

end Whittle
