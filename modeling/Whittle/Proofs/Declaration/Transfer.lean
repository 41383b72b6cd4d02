import Whittle.Proofs.Declaration.Level
import Whittle.Proofs.Tree.Transfer

/-!
# Declarations carried over

What a site declares can be read off the tree carried over: the name carried over, of the same kind
and in the same storage. Spellings and positions have no say in it.

* `Transfer.declaredName?_placed`: a declarator declares its name, carried over.
* `Transfer.declares?_site`: **a site declares the same.**
* `Placed.mem_leaves_of_declaredName?`: a declared name is one of the tokens of its declarator.
-/

namespace Whittle

/-! ### Declarators -/

namespace Transfer

variable (T : Transfer)

/-- A derivation with its parameters carried over. -/
def derivation : Derivation → Derivation
  | .pointer => .pointer
  | .array => .array
  | .function params => .function (T.placed params)

mutual

theorem declaratorLevels_placed (t : Placed) :
    (T.placed t).declaratorLevels = t.declaratorLevels.map T.placed := by
  cases t with
  | token start k => rfl
  | node start kind children =>
    rw [placed, Placed.declaratorLevels, Placed.declaratorLevels, nestedLevels_placedAll children,
      List.map_append]
    rfl

theorem nestedLevels_placedAll (ts : List Placed) :
    Placed.nestedLevels (T.placedAll ts) = (Placed.nestedLevels ts).map T.placed := by
  cases ts with
  | nil => rfl
  | cons t ts =>
    have hrest := nestedLevels_placedAll ts
    cases t with
    | token start k =>
      rw [placedAll, placed, Placed.nestedLevels, Placed.nestedLevels, hrest] <;> simp
    | node start kind children =>
      rw [placedAll, placed]
      by_cases hkind : kind = .nestedDeclarator
      · subst hkind
        exact innerLevels_placedAll children
      · rw [Placed.nestedLevels, Placed.nestedLevels, hrest] <;> simp [hkind]

theorem innerLevels_placedAll (ts : List Placed) :
    Placed.innerLevels (T.placedAll ts) = (Placed.innerLevels ts).map T.placed := by
  cases ts with
  | nil => rfl
  | cons t ts =>
    have hfirst := declaratorLevels_placed t
    have hrest := innerLevels_placedAll ts
    rw [placedAll, Placed.innerLevels, Placed.innerLevels, isNode_placed, hfirst, hrest]
    split <;> rfl

end

/-- A declarator declares its name, carried over. -/
@[simp] theorem declaredName?_placed (declarator : Placed) :
    (T.placed declarator).declaredName? = declarator.declaredName?.map T.leaf := by
  simp only [Placed.declaredName?, declaratorLevels_placed, List.head?_map, Option.bind_eq_bind]
  cases declarator.declaratorLevels.head? with
  | none => rfl
  | some level =>
    rw [Option.map_some, Option.bind_some, Option.bind_some, child?_placed]
    cases level.child? .name with
    | none => rfl
    | some name => exact T.firstToken?_placed name

theorem suffix?_placed (t : Placed) : (T.placed t).suffix? = t.suffix?.map T.derivation := by
  cases t with
  | token start k => rfl
  | node start kind children => cases kind <;> rfl

theorem levelDerivation?_placed (level : Placed) :
    (T.placed level).levelDerivation? = level.levelDerivation?.map T.derivation := by
  have hsuffix : (level.children.map T.placed).findSome? Placed.suffix? =
      (level.children.findSome? Placed.suffix?).map T.derivation := by
    induction level.children with
    | nil => rfl
    | cons c cs ih =>
      rw [List.map_cons, List.findSome?_cons, List.findSome?_cons, suffix?_placed, ih]
      cases c.suffix? <;> rfl
  rw [Placed.levelDerivation?, Placed.levelDerivation?, children_placed, hsuffix, hasToken_placed]
  cases level.children.findSome? Placed.suffix? with
  | some d => rfl
  | none => cases level.hasToken .star <;> rfl

theorem derivation?_placed (declarator : Placed) :
    (T.placed declarator).derivation? = declarator.derivation?.map T.derivation := by
  rw [Placed.derivation?, Placed.derivation?, declaratorLevels_placed]
  induction declarator.declaratorLevels with
  | nil => rfl
  | cons level levels ih =>
    rw [List.map_cons, List.findSome?_cons, List.findSome?_cons, levelDerivation?_placed, ih]
    cases level.levelDerivation? <;> rfl

@[simp] theorem functionParams?_placed (declarator : Placed) :
    (T.placed declarator).functionParams? = declarator.functionParams?.map T.placed := by
  rw [Placed.functionParams?, Placed.functionParams?, derivation?_placed]
  cases declarator.derivation? with
  | none => rfl
  | some d => cases d <;> rfl

@[simp] theorem declaresFunction_placed (declarator : Placed) :
    (T.placed declarator).declaresFunction = declarator.declaresFunction := by
  simp [Placed.declaresFunction]

/-! ### Sites -/

theorem specified_placed (group : Placed) (k : TokenKind) :
    ((T.placed group).child? .specifiers).any (·.hasToken k) =
      (group.child? .specifiers).any (·.hasToken k) := by
  rw [child?_placed]
  cases group.child? .specifiers with
  | none => rfl
  | some specifiers => exact T.hasToken_placed k specifiers

@[simp] theorem storage_site (s : Site) : (T.site s).storage = s.storage := by
  simp [Site.storage]

@[simp] theorem memberKind_site (s : Site) (declarator : Placed) :
    (T.site s).memberKind (T.placed declarator) = s.memberKind declarator := by
  rw [Site.memberKind, Site.memberKind, parent?_site, declaresFunction_placed]
  cases s.parent? with
  | none => rfl
  | some g =>
    simp only [Option.map_some, Option.bind_some, node_site, parentKind?_site, specified_placed]

theorem childDeclaredName?_placed (t : Placed) :
    (T.placed t).childDeclaredName? = t.childDeclaredName?.map T.leaf := by
  rw [Placed.childDeclaredName?, Placed.childDeclaredName?, child?_placed]
  cases t.child? .declarator with
  | none => rfl
  | some c => exact T.declaredName?_placed c

theorem enumeratorName?_placed (t : Placed) :
    ((T.placed t).child? .name).bind Placed.firstToken? =
      ((t.child? .name).bind Placed.firstToken?).map T.leaf := by
  rw [child?_placed]
  cases t.child? .name with
  | none => rfl
  | some c => exact T.firstToken?_placed c

/-- **A site declares the same in the tree carried over.** -/
theorem declares?_site (s : Site) :
    (T.site s).declares? =
      s.declares?.map fun (name, kind, storage) => (T.leaf name, kind, storage) := by
  have hname := T.childDeclaredName?_placed s.node
  have hfirst := T.enumeratorName?_placed s.node
  unfold Placed.childDeclaredName? at hname
  rw [Site.declares?, Site.declares?, node_site, kind_placed]
  cases hkind : s.node.kind with
  | token k => rfl
  | node k =>
    cases k with
    | initDeclarator =>
      -- the kind of a member depends on its declarator too, so that the two are read together
      rw [child?_placed]
      cases s.node.child? .declarator with
      | none => rfl
      | some c =>
        simp only [Option.map_some, Option.bind_eq_bind, Option.bind_some, declaredName?_placed,
          memberKind_site, storage_site]
        cases c.declaredName? <;> rfl
    | param =>
      simp only [Option.bind_eq_bind, ← Option.bind_assoc, hname]
      cases (s.node.child? .declarator).bind Placed.declaredName? <;> rfl
    | functionDef =>
      simp only [Option.bind_eq_bind, ← Option.bind_assoc, hname]
      cases (s.node.child? .declarator).bind Placed.declaredName? <;> rfl
    | enumerator =>
      simp only [Option.bind_eq_bind, ← Option.bind_assoc, hfirst, storage_site]
      cases (s.node.child? .name).bind Placed.firstToken? <;> rfl
    | _ => rfl

end Transfer

/-! ### Names are tokens -/

namespace Placed

theorem leaves_subset_leavesAll {t : Placed} {ts : List Placed} (h : t ∈ ts) :
    t.leaves ⊆ leavesAll ts := by
  induction ts with
  | nil => cases h
  | cons c cs ih =>
    rw [leavesAll]
    obtain rfl | h := List.mem_cons.1 h
    · exact List.subset_append_left _ _
    · exact List.Subset.trans (ih h) (List.subset_append_right _ _)

theorem leaves_subset_of_mem_children {t c : Placed} (h : c ∈ t.children) :
    c.leaves ⊆ t.leaves := by
  cases t with
  | token start k => cases h
  | node start kind children =>
    rw [leaves_node]
    exact leaves_subset_leavesAll h

theorem leaves_subset_of_child? {t c : Placed} {k : NodeKind} (h : t.child? k = some c) :
    c.leaves ⊆ t.leaves :=
  leaves_subset_of_mem_children (List.mem_of_find?_eq_some h)

mutual

theorem leaves_subset_of_level (t : Placed) {level : Placed} (h : level ∈ t.declaratorLevels) :
    level.leaves ⊆ t.leaves := by
  cases t with
  | token start k => cases h
  | node start kind children =>
    rw [declaratorLevels, List.mem_append, List.mem_singleton] at h
    rw [leaves_node]
    obtain h | rfl := h
    · exact leaves_subset_of_nested children h
    · exact fun l hl => hl

theorem leaves_subset_of_nested (ts : List Placed) {level : Placed} (h : level ∈ nestedLevels ts) :
    level.leaves ⊆ leavesAll ts := by
  cases ts with
  | nil => cases h
  | cons t ts =>
    have hrest (h : level ∈ nestedLevels ts) : level.leaves ⊆ leavesAll (t :: ts) := by
      rw [leavesAll]
      exact List.Subset.trans (leaves_subset_of_nested ts h) (List.subset_append_right _ _)
    cases t with
    | token start k =>
      rw [nestedLevels] at h
      · exact hrest h
      · simp
    | node start kind children =>
      by_cases hkind : kind = .nestedDeclarator
      · subst hkind
        rw [leavesAll, leaves_node]
        exact List.Subset.trans (leaves_subset_of_inner children h) (List.subset_append_left _ _)
      · rw [nestedLevels] at h
        · exact hrest h
        · simp [hkind]

theorem leaves_subset_of_inner (ts : List Placed) {level : Placed} (h : level ∈ innerLevels ts) :
    level.leaves ⊆ leavesAll ts := by
  cases ts with
  | nil => cases h
  | cons t ts =>
    rw [innerLevels] at h
    rw [leavesAll]
    split at h
    · exact List.Subset.trans (leaves_subset_of_level t h) (List.subset_append_left _ _)
    · exact List.Subset.trans (leaves_subset_of_inner ts h) (List.subset_append_right _ _)

end

/-- A declared name is one of the tokens of its declarator. -/
theorem mem_leaves_of_declaredName? {declarator : Placed} {name : Leaf}
    (h : declarator.declaredName? = some name) : name ∈ declarator.leaves := by
  rw [declaredName?, Option.bind_eq_bind, Option.bind_eq_some_iff] at h
  obtain ⟨level, hlevel, h⟩ := h
  rw [Option.bind_eq_some_iff] at h
  obtain ⟨c, hc, hfirst⟩ := h
  have hhead := head?_leaves_of_firstToken? c hfirst
  have hlevels := leaves_subset_of_level declarator (List.mem_of_head? hlevel)
  exact hlevels (leaves_subset_of_child? hc (List.mem_of_head? hhead))

end Placed

end Whittle
