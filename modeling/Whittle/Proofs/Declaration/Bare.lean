import Whittle.Proofs.Declaration.Level
import Whittle.Proofs.Tree.Bare

/-!
# Declarations of bare trees

What a site declares can be read off the bare tree: the same name at its moved position, of the same
kind and in the same storage.

* `Placed.derivation?_bare`: a declarator derives its name into the same thing.
* `Site.declaredName?_bare`: **a declarator declares the same name.**
* `Site.declares?_bare`: **a site declares the same.**
-/

namespace Whittle

/-- A derivation with its parameters in the bare tree. -/
def Derivation.bare (f : Nat → Nat) : Derivation → Derivation
  | .pointer => .pointer
  | .array => .array
  | .function params => .function (params.bare f)

/-! ### Declarators -/

namespace Placed

mutual

theorem declaratorLevels_bare (f : Nat → Nat) (t : Placed) :
    (t.bare f).declaratorLevels = t.declaratorLevels.map (bare f) := by
  cases t with
  | token start t => rfl
  | node start kind children =>
    rw [bare_node, declaratorLevels, declaratorLevels, nestedLevels_bareAll f children,
      List.map_append]
    rfl

theorem nestedLevels_bareAll (f : Nat → Nat) (ts : List Placed) :
    nestedLevels (bareAll f ts) = (nestedLevels ts).map (bare f) := by
  cases ts with
  | nil => rfl
  | cons t ts =>
    cases t with
    | token start t =>
      have hrest := nestedLevels_bareAll f ts
      have hskip : nestedLevels (token start t :: ts) = nestedLevels ts := by
        rw [nestedLevels]
        simp
      rw [bareAll, bare_token, hskip, ← hrest]
      split
      · rfl
      · rw [nestedLevels]
        simp
    | node start kind children =>
      have hrest := nestedLevels_bareAll f ts
      rw [bareAll_cons ts rfl, bare_node]
      by_cases hkind : kind = .nestedDeclarator
      · subst hkind
        exact innerLevels_bareAll f children
      · rw [nestedLevels, nestedLevels, hrest] <;> simp [hkind]

theorem innerLevels_bareAll (f : Nat → Nat) (ts : List Placed) :
    innerLevels (bareAll f ts) = (innerLevels ts).map (bare f) := by
  cases ts with
  | nil => rfl
  | cons t ts =>
    have hrest := innerLevels_bareAll f ts
    cases h : t.isTrivia with
    | true =>
      have hnode : t.isNode .declarator = false :=
        not_isNode_of_not_isInner _ (not_isInner_of_isTrivia h)
      rw [bareAll_cons_of_trivia ts h, hrest, innerLevels, hnode, if_neg Bool.false_ne_true]
    | false =>
      rw [bareAll_cons ts h, innerLevels, innerLevels, isNode_bare, hrest,
        declaratorLevels_bare f t]
      split <;> rfl

end

theorem suffix?_bare (f : Nat → Nat) (t : Placed) :
    (t.bare f).suffix? = t.suffix?.map (Derivation.bare f) := by
  cases t with
  | token start t => rfl
  | node start kind children => cases kind <;> rfl

theorem levelDerivation?_bare (f : Nat → Nat) (level : Placed) :
    (level.bare f).levelDerivation? = level.levelDerivation?.map (Derivation.bare f) := by
  have hsuffix : (bareAll f level.children).findSome? suffix? =
      (level.children.findSome? suffix?).map (Derivation.bare f) := by
    refine findSome?_bareAll level.children (suffix?_bare f) fun t ht => ?_
    cases t with
    | token start t => rfl
    | node start kind children => cases ht
  rw [levelDerivation?, levelDerivation?, children_bare, hsuffix, hasToken_bare f level rfl]
  cases level.children.findSome? suffix? with
  | some d => rfl
  | none => cases level.hasToken .star <;> rfl

/-- A declarator derives its name into the same thing in the bare tree. -/
theorem derivation?_bare (f : Nat → Nat) (declarator : Placed) :
    (declarator.bare f).derivation? = declarator.derivation?.map (Derivation.bare f) := by
  rw [derivation?, derivation?, declaratorLevels_bare]
  induction declarator.declaratorLevels with
  | nil => rfl
  | cons level levels ih =>
    rw [List.map_cons, List.findSome?_cons, List.findSome?_cons, levelDerivation?_bare, ih]
    cases level.levelDerivation? <;> rfl

theorem functionParams?_bare (f : Nat → Nat) (declarator : Placed) :
    (declarator.bare f).functionParams? = declarator.functionParams?.map (bare f) := by
  rw [functionParams?, functionParams?, derivation?_bare]
  cases declarator.derivation? with
  | none => rfl
  | some d => cases d <;> rfl

theorem declaresFunction_bare (f : Nat → Nat) (declarator : Placed) :
    (declarator.bare f).declaresFunction = declarator.declaresFunction := by
  simp [declaresFunction, functionParams?_bare]

/-- The specifiers of a group hold the same keywords in the bare tree. -/
theorem specified_bare (f : Nat → Nat) (group : Placed) {k : TokenKind} (hk : k.isTrivia = false) :
    ((group.bare f).child? .specifiers).any (·.hasToken k) =
      (group.child? .specifiers).any (·.hasToken k) := by
  rw [child?_bare]
  cases group.child? .specifiers with
  | none => rfl
  | some specifiers => exact hasToken_bare f specifiers hk

end Placed

/-! ### Names -/

section

variable {t : Text} {s : Site} {c : Placed}

/-- The nodes of all kinds but one do not begin with trivia. -/
theorem trimmed_of_isNode (hs : s ∈ (parse t).root.sites) {k : NodeKind}
    (hk : s.node.isNode k = true) (hroot : k ≠ .root) : s.node.Trimmed := by
  refine trimmed_of_above hs fun habove => ?_
  have hkind := (isNode_root_iff hs).2 habove
  simp only [Placed.isNode, decide_eq_true_eq] at hk hkind
  rw [hk] at hkind
  exact hroot (Kind.node.inj hkind)

namespace Site

/-- The first child of a kind is a site of the same tree. -/
theorem exists_of_child? (hs : s ∈ (parse t).root.sites) {k : NodeKind}
    (hc : s.node.child? k = some c) :
    ∃ u ∈ (parse t).root.sites, u.node = c ∧ u.node.isNode k = true := by
  obtain ⟨l, r, hchildren, hk, -⟩ := Placed.child?_eq_some hc
  obtain ⟨u, hparent, rfl⟩ := exists_child (s := s) (p := c) (by simp [hchildren])
  have hu := mem_subsites_of_parent? hparent (Placed.isInner_of_isNode hk)
  exact ⟨u, mem_sites_of_mem_subsites hs hu, rfl, hk⟩

theorem firstToken?_child_bare (f : Nat → Nat) (hs : s ∈ (parse t).root.sites) :
    ((s.node.bare f).child? .name).bind Placed.firstToken? =
      ((s.node.child? .name).bind Placed.firstToken?).map (Leaf.move f) := by
  rw [Placed.child?_bare]
  cases hc : s.node.child? .name with
  | none => rfl
  | some c =>
    obtain ⟨u, hu, rfl, hk⟩ := exists_of_child? hs hc
    exact Placed.firstToken?_bare f u.node (trimmed_of_isNode hu hk (by simp))

/-- **A declarator declares the same name in the bare tree.** -/
theorem declaredName?_bare (f : Nat → Nat) (hs : s ∈ (parse t).root.sites)
    (hdecl : s.node.isNode .declarator = true) :
    (s.node.bare f).declaredName? = s.node.declaredName?.map (Leaf.move f) := by
  simp only [Placed.declaredName?, Placed.declaratorLevels_bare, List.head?_map,
    Option.bind_eq_bind]
  cases hlevel : s.node.declaratorLevels.head? with
  | none => rfl
  | some level =>
    obtain ⟨u, rfl, -, hleads⟩ := Leads.exists_level hdecl (List.mem_of_head? hlevel)
    exact firstToken?_child_bare f (mem_sites_of_mem_subsites hs hleads.mem)

theorem childDeclaredName?_bare (f : Nat → Nat) (hs : s ∈ (parse t).root.sites) :
    ((s.node.bare f).child? .declarator).bind Placed.declaredName? =
      ((s.node.child? .declarator).bind Placed.declaredName?).map (Leaf.move f) := by
  rw [Placed.child?_bare]
  cases hc : s.node.child? .declarator with
  | none => rfl
  | some c =>
    obtain ⟨u, hu, rfl, hk⟩ := exists_of_child? hs hc
    exact declaredName?_bare f hu hk

/-! ### Declarations -/

theorem storage_bare (f : Nat → Nat) (s : Site) : (s.bare f).storage = s.storage := by
  simp [storage]

theorem memberKind_bare (f : Nat → Nat) (hinner : s.node.isInner = true) (declarator : Placed) :
    (s.bare f).memberKind (declarator.bare f) = s.memberKind declarator := by
  rw [memberKind, memberKind, parent?_bare hinner, Placed.declaresFunction_bare]
  cases s.parent? with
  | none => rfl
  | some g =>
    simp only [Option.map_some, Option.bind_some, node_bare, parentKind?_bare,
      Placed.specified_bare f g.node (k := .kwTypedef) rfl]

/-- **A site declares the same in the bare tree**, at the moved position. -/
theorem declares?_bare (f : Nat → Nat) (hs : s ∈ (parse t).root.sites) :
    (s.bare f).declares? =
      s.declares?.map fun (name, kind, storage) => (name.move f, kind, storage) := by
  have hinner := isInner_of_mem_subsites (s := ⟨_, []⟩) hs
  have hname := childDeclaredName?_bare f hs
  have hfirst := firstToken?_child_bare f hs
  obtain ⟨k, hk⟩ := Placed.exists_kind hinner
  rw [declares?, declares?, node_bare, Placed.kind_bare, hk]
  cases k with
  | initDeclarator =>
    -- the kind of a member depends on its declarator too, so that the two are read together
    rw [Placed.child?_bare] at hname ⊢
    cases hc : s.node.child? .declarator with
    | none => rfl
    | some c =>
      simp only [hc, Option.map_some, Option.bind_some] at hname
      simp only [Option.map_some, Option.bind_eq_bind, Option.bind_some, hname,
        memberKind_bare f hinner, storage_bare]
      cases c.declaredName? <;> rfl
  | param =>
    simp only [Option.bind_eq_bind, ← Option.bind_assoc, hname]
    cases (s.node.child? .declarator).bind Placed.declaredName? <;> rfl
  | functionDef =>
    simp only [Option.bind_eq_bind, ← Option.bind_assoc, hname]
    cases (s.node.child? .declarator).bind Placed.declaredName? <;> rfl
  | enumerator =>
    simp only [Option.bind_eq_bind, ← Option.bind_assoc, hfirst, storage_bare]
    cases (s.node.child? .name).bind Placed.firstToken? <;> rfl
  | _ => rfl

end Site

end

end Whittle
