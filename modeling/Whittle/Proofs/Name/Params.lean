import Whittle.Proofs.Name.TypeName

/-!
# The parameters that come with a declarator

While a declarator is read, the names of one of its parameter lists are kept, in case a function
body follows. The tree is asked later which function a declarator declares, if any. The first is a
list that some level begins its suffixes with; the second is one that the name is derived by first.

* `Placed.isSome_ownParams?_iff`: which declarators come with names.
* `Placed.ownParams?_of_functionParams?`: for a function both give the same list.
* `describes_ownParams`: the names are those in the scope of the list.
* `params_of_declarator`: **what reading a declarator gives, in terms of the tree.**
* `pointer_read_with_params`: a pointer to a function comes with names, too.
-/

namespace Whittle

open Grammar

/-! ### Sketches can be compared -/

namespace Sketch

mutual

/-- Compare two sketches. -/
def decEq : (x y : Sketch) → Decidable (x = y)
  | .leaf a, .leaf b => if h : a = b then .isTrue (by rw [h]) else .isFalse (by simp [h])
  | .leaf _, .node _ _ => .isFalse (by simp)
  | .node _ _, .leaf _ => .isFalse (by simp)
  | .node k xs, .node l ys =>
    if hkind : k = l then
      match decEqAll xs ys with
      | .isTrue h => .isTrue (by rw [hkind, h])
      | .isFalse h => .isFalse (by simp [h])
    else .isFalse (by simp [hkind])

/-- Compare two lists of sketches. -/
def decEqAll : (xs ys : List Sketch) → Decidable (xs = ys)
  | [], [] => .isTrue rfl
  | [], _ :: _ => .isFalse (by simp)
  | _ :: _, [] => .isFalse (by simp)
  | x :: xs, y :: ys =>
    match decEq x y, decEqAll xs ys with
    | .isTrue hx, .isTrue hxs => .isTrue (by rw [hx, hxs])
    | .isFalse hx, _ => .isFalse (by simp [hx])
    | _, .isFalse hxs => .isFalse (by simp [hxs])

end

instance : DecidableEq Sketch := decEq

end Sketch

/-! ### Levels -/

namespace Placed

variable {x level q : Placed}

/-- A level is derived into a function first just if its suffixes begin with a parameter list. -/
theorem levelDerivation?_eq_function :
    level.levelDerivation? = some (.function q) ↔
      (level.children.find? (·.suffix?.isSome)).filter (·.isNode .paramList) = some q := by
  have key (cs : List Placed) : cs.findSome? suffix? =
      (cs.find? (·.suffix?.isSome)).bind suffix? := by
    induction cs with
    | nil => rfl
    | cons c cs ih => cases hc : c.suffix? <;> simp [hc, ih]
  rw [levelDerivation?, key]
  cases hfind : level.children.find? (·.suffix?.isSome) with
  | none =>
    rw [Option.bind_none, Option.none_or]
    split <;> simp
  | some c =>
    have hsuffix := List.find?_some hfind
    cases c with
    | token start t => cases hsuffix
    | node start k cs =>
      cases k with
      | paramList => simp [suffix?, Option.filter]
      | arraySuffix => simp [suffix?, Option.filter]
      | _ => cases hsuffix

/-- **Names come with a declarator just if some level is derived into a function first.** -/
theorem isSome_ownParams?_iff : x.ownParams?.isSome = true ↔
    ∃ level ∈ x.declaratorLevels, ∃ q, level.levelDerivation? = some (.function q) := by
  rw [ownParams?, List.findSome?_isSome_iff]
  simp only [Option.isSome_iff_exists, levelDerivation?_eq_function]

/-- **Of a function, the names are those of its own parameter list.** -/
theorem ownParams?_of_functionParams? (h : x.functionParams? = some q) :
    x.ownParams? = some q := by
  have hderivation : x.derivation? = some (.function q) := by
    unfold functionParams? at h
    split at h
    · rename_i params hderivation
      rw [hderivation, Option.some.inj h]
    · cases h
  -- the levels further in derive nothing, so they have no parameter lists
  obtain ⟨l, level, r, hlevels, hfunction, hnone⟩ := List.findSome?_eq_some_iff.1 hderivation
  rw [ownParams?, hlevels]
  refine List.findSome?_eq_some_iff.2 ⟨l, level, r, rfl, levelDerivation?_eq_function.1 hfunction,
    fun inner hinner => Option.eq_none_iff_forall_ne_some.2 fun q' hq' => ?_⟩
  have hinner' := levelDerivation?_eq_function.2 hq'
  rw [hnone inner hinner] at hinner'
  cases hinner'

end Placed

/-! ### The names of a parameter list -/

/-- Whether a declaration stands in the scope of a parameter list, and in none within it. -/
structure Site.Lists (p d : Site) : Prop where
  mem : d ∈ p.subsites
  declares : d.declares?.isSome = true
  scope : d.enclosing.head? = some p.path

section

variable {t : Text} {X p : Site} {σ : State}

/-- The names in a parameter list are what its sketch says. -/
theorem describes_list (hp : p ∈ (parse t).root.sites) (hk : p.node.isNode .paramList = true) :
    Describes (spellings t) p.Lists
      (Sketch.entriesAll .plain (Placed.sketchAll (spellings t) p.node.children)) := by
  have hparts := describes_parts p.precedes_children fun u hu =>
    describes_part hp hk (Site.mem_children.1 hu)
  rw [Site.map_node_children] at hparts
  refine hparts.congr fun d => ⟨?_, ?_⟩
  · rintro ⟨hmem, hdeclares, hhead⟩
    obtain ⟨u, hu, -, hexports⟩ :=
      exists_exports_of_head? hp (Site.mem_sites_of_mem_subsites hp hmem) hdeclares hhead
    exact ⟨u, Site.mem_children.2 hu, hexports⟩
  · rintro ⟨u, hu, hexports⟩
    refine ⟨Site.subsites_subset_of_parent? (Site.mem_children.1 hu) hexports.mem,
      hexports.declares, ?_⟩
    rw [hexports.enclosing, enclosing_of_scope hk rfl (Site.mem_children.1 hu)]
    rfl

/-- Whether reading a declarator from a state builds the one at a site. -/
def Site.IsReadFrom (t : Text) (X : Site) (σ : State) : Prop :=
  (Construct.declarator.read σ).2.sketches = σ.sketches ++ X.node.sketch (spellings t)

instance : Decidable (X.IsReadFrom t σ) :=
  inferInstanceAs (Decidable (_ = _))

/-- What reading a declarator gives is what its sketch says. -/
theorem Site.IsReadFrom.params_eq (h : X.IsReadFrom t σ) :
    X.node.isNode .declarator = true ∧
      (Construct.declarator.read σ).1.params = X.node.ownParams?.map fun q =>
        Sketch.entriesAll .plain (Placed.sketchAll (spellings t) q.children) := by
  obtain ⟨xs, hadds, hresult⟩ := Construct.read_scoped .declarator σ trivial
  have hsketch : X.node.sketch (spellings t) = [.node .declarator xs] :=
    List.append_cancel_left (h.symm.trans hadds.sketches)
  cases hnode : X.node with
  | token start u =>
    rw [hnode, Placed.sketch_token, Token.sketch] at hsketch
    split at hsketch <;> cases hsketch
  | node start k cs =>
    rw [hnode, Placed.sketch_node, List.singleton_inj, Sketch.node.injEq] at hsketch
    obtain ⟨rfl, rfl⟩ := hsketch
    refine ⟨Placed.isNode_node.2 rfl, ?_⟩
    rw [hresult, Sketch.paramNames?, Placed.ownParams?_sketch (spellings t) start .declarator cs,
      Option.map_map]
    rfl

/-- **What reading a declarator gives, in terms of the tree.** A declarator that declares a function
comes with the names in the scope of the parameter list of that function. A declarator comes with
names just if the suffixes of some level begin with a parameter list, also where a level further in
derives a pointer or an array first, and the names are those in the scope of such a list. -/
theorem params_of_declarator (hX : X ∈ (parse t).root.sites) (hread : X.IsReadFrom t σ) :
    (X.node.declaresFunction = true → ∃ p ∈ X.subsites, X.node.functionParams? = some p.node ∧
      ∃ ns, (Construct.declarator.read σ).1.params = some ns ∧
        Describes (spellings t) p.Lists ns) ∧
    ((Construct.declarator.read σ).1.params.isSome = true ↔
      ∃ level ∈ X.node.declaratorLevels, ∃ q, level.levelDerivation? = some (.function q)) ∧
    ∀ ns, (Construct.declarator.read σ).1.params = some ns →
      ∃ p ∈ X.subsites, X.node.ownParams? = some p.node ∧ Describes (spellings t) p.Lists ns := by
  obtain ⟨hdeclarator, hparams⟩ := hread.params_eq
  -- the list that belongs to the declarator is a site of the tree, and has its names
  have hown {q : Placed} (hq : X.node.ownParams? = some q) : ∃ p ∈ X.subsites, p.node = q ∧
      Describes (spellings t) p.Lists
        (Sketch.entriesAll .plain (Placed.sketchAll (spellings t) q.children)) := by
    obtain ⟨hlist, p, hp, rfl⟩ := exists_ownParams hdeclarator hq
    exact ⟨p, hp, rfl, describes_list (Site.mem_sites_of_mem_subsites hX hp) hlist⟩
  refine ⟨fun hfunction => ?_, ?_, fun ns hns => ?_⟩
  · obtain ⟨q, hq⟩ := Option.isSome_iff_exists.1 hfunction
    have howns := Placed.ownParams?_of_functionParams? hq
    obtain ⟨p, hp, rfl, hdescribes⟩ := hown howns
    exact ⟨p, hp, hq, _, by rw [hparams, howns]; rfl, hdescribes⟩
  · rw [hparams, Option.isSome_map, Placed.isSome_ownParams?_iff]
  · rw [hparams, Option.map_eq_some_iff] at hns
    obtain ⟨q, hq, rfl⟩ := hns
    obtain ⟨p, hp, rfl, hdescribes⟩ := hown hq
    exact ⟨p, hp, hq, hdescribes⟩

end

/-- A state with the symbols of a text ahead. -/
def Grammar.State.ofText (t : Text) : State :=
  .initial (Symbol.ofTokens (Token.significant (tokens t)))

/-- The enumerator in a parameter list is one of its names, and the parameter of a parameter is
not. -/
theorem params_of_declarator_enumerator :
    let t := "int *f(enum \x7bA\x7d a, int g(int b));".toList
    let σ := State.ofText "*f(enum \x7bA\x7d a, int g(int b))".toList
    ∃ X ∈ (parse t).root.sites, X.IsReadFrom t σ ∧ X.node.declaresFunction = true ∧
      (Construct.declarator.read σ).1.params = some [(3, false), (2, false), (1, false)] ∧
      ∃ p ∈ X.subsites, X.node.functionParams? = some p.node ∧
        Describes (spellings t) p.Lists [(3, false), (2, false), (1, false)] := by
  intro t σ
  have hany : ((parse t).root.sites.any fun X => decide (X.IsReadFrom t σ) &&
      X.node.declaresFunction) = true := by
    decide +kernel
  obtain ⟨X, hX, hread⟩ := List.any_eq_true.1 hany
  obtain ⟨hread, hfunction⟩ := by simpa using hread
  have hnames : (Construct.declarator.read σ).1.params =
      some [(3, false), (2, false), (1, false)] := by
    decide +kernel
  obtain ⟨p, hp, hlist, ns, hns, hdescribes⟩ := (params_of_declarator hX hread).1 hfunction
  obtain rfl := Option.some.inj (hnames.symm.trans hns)
  exact ⟨X, hX, hread, hfunction, hnames, p, hp, hlist, hdescribes⟩

/-- **A pointer to a function comes with names, too**, though it declares no function. So it may be
followed by declarations of parameters and a body, as if it were a function. -/
theorem pointer_read_with_params :
    let t := "int (*f)(a) int a; \x7b\x7d".toList
    let σ := State.ofText "(*f)(a)".toList
    (parse t).errors = [] ∧
      ∃ X ∈ (parse t).root.sites, X.IsReadFrom t σ ∧ X.node.declaresFunction = false ∧
        X.parentKind? = some .functionDef ∧
        (Construct.declarator.read σ).1.params = some [(1, false)] := by
  intro t σ
  have hany : ((parse t).root.sites.any fun X => decide (X.IsReadFrom t σ) &&
      !X.node.declaresFunction && decide (X.parentKind? = some .functionDef)) = true := by
    decide +kernel
  obtain ⟨X, hX, hread⟩ := List.any_eq_true.1 hany
  obtain ⟨⟨hread, hfunction⟩, hparent⟩ := by simpa using hread
  exact ⟨by decide +kernel, X, hX, hread, hfunction, hparent, by decide +kernel⟩

end Whittle
