import Whittle.Proofs.Name.Sketched

/-!
# The names that parts of a tree leave behind

The entries that a sketch leaves in the scope it stands in are the declarations at or below the
part of the tree that are enclosed by the same scopes as the part.

* `Describes`: whether some entries are those of the declarations with a property, the latest first.
* `Site.Exports`: the declarations that a part leaves behind.
* `Site.Left`: the declarations that a node has left behind when some of its parts are read.
* `describes_exports`, `describes_left`: **both are what the sketch says.**
-/

namespace Whittle

open Grammar

/-! ### Entries -/

/-- The entry for the name that a site declares. -/
def Site.recorded? (names : List Text) (s : Site) : Option (Nat × Bool) :=
  s.declares?.map fun x => (names.idxOf x.1.text, decide (x.2.1 = .typedefName))

/-- Whether some entries are those of the declarations with a property, the latest first. -/
def Describes (names : List Text) (D : Site → Prop) (es : Names) : Prop :=
  ∃ ds : List Site, (∀ d, d ∈ ds ↔ D d) ∧
    ds.Pairwise (fun d d' => d'.declaredAfter.EndsBefore d.declaredAfter) ∧
    ds.map (·.recorded? names) = es.map some

namespace Describes

variable {names : List Text} {D D' : Site → Prop} {es es' : Names}

theorem congr (h : Describes names D es) (hD : ∀ d, D' d ↔ D d) : Describes names D' es := by
  obtain rfl : D' = D := funext fun d => propext (hD d)
  exact h

theorem empty (h : ∀ d, ¬ D d) : Describes names D [] :=
  ⟨[], by simpa using h, List.Pairwise.nil, rfl⟩

theorem single (s : Site) :
    Describes names (fun d => d = s ∧ s.declares?.isSome = true) (s.recorded? names).toList := by
  cases h : s.declares? with
  | none => exact ⟨[], by simp, List.Pairwise.nil, by simp [Site.recorded?, h]⟩
  | some x => exact ⟨[s], by simp, List.pairwise_singleton .., by simp [Site.recorded?, h]⟩

/-- What is declared later comes first. -/
theorem append (h : Describes names D es) (h' : Describes names D' es')
    (hbefore : ∀ d d', D d → D' d' → d.declaredAfter.EndsBefore d'.declaredAfter) :
    Describes names (fun d => D d ∨ D' d) (es' ++ es) := by
  obtain ⟨ds, hmem, hpair, hmap⟩ := h
  obtain ⟨ds', hmem', hpair', hmap'⟩ := h'
  refine ⟨ds' ++ ds, fun d => ?_, List.pairwise_append.2 ⟨hpair', hpair, ?_⟩, ?_⟩
  · rw [List.mem_append, hmem, hmem', or_comm]
  · intro d' hd' d hd
    exact hbefore d d' ((hmem d).1 hd) ((hmem' d').1 hd')
  · rw [List.map_append, List.map_append, hmap, hmap']

end Describes

/-! ### Settings -/

/-- Where a site stands, as far as it matters for its names. -/
def Site.setting (names : List Text) (s : Site) : Setting :=
  match s.above with
  | [] => .plain
  | c :: _ => .below c.kind (Placed.sketchAll names (c.around s.node).children)

/-- Whether nodes declare the name of their declarator. -/
def Role.isNamed : Role → Bool
  | .member | .param | .definition => true
  | _ => false

theorem Setting.below_eq_plain {k : NodeKind} {parts : List Sketch}
    (hk : k.role ≠ .scope) (hk' : k.role ≠ .plain) : below k parts = .plain := by
  cases k <;> first | rfl | exact absurd rfl hk | exact absurd rfl hk'

namespace Sketch

/-- The names that a node has left behind in the scope it stands in when some of its parts are
read. -/
def leftEntries (st : Setting) (k : NodeKind) (parts xs : List Sketch) : Names :=
  match k.role with
  | .scope => []
  | .member => memberEntries st.isTypedef xs
  | .param => memberEntries false xs
  | .definition => headEntries xs
  | .enumerator | .plain => entriesAll (.below k parts) xs

variable {st : Setting} {σ : List Names} {k : NodeKind} {x : Sketch} {xs ys : List Sketch}

/-- Only an enumerator declares its own name when all its parts are read. -/
theorem entries_eq_leftEntries (hk : k.role ≠ .enumerator) :
    (node k xs).entries st = leftEntries st k xs xs := by
  cases hr : k.role with
  | enumerator => exact absurd hr hk
  | _ => simp only [entries, leftEntries, hr]

theorem entries_enumerator : (node .enumerator xs).entries st =
    ((nameOf? xs).map (·, false)).toList ++ leftEntries st .enumerator xs xs := by
  simp only [entries, leftEntries, NodeKind.role, Setting.below]

theorem headEntries_of_forall (h : ∀ x ∈ xs, x.isNode .declarator = false) :
    headEntries xs = entriesAll .plain xs := by
  induction xs with
  | nil => simp [headEntries]
  | cons y xs ih =>
    obtain ⟨hy, hxs⟩ := List.forall_mem_cons.1 h
    simp [headEntries, hy, ih hxs]

end Sketch

theorem Placed.not_isNode_sketchAll {names : List Text} {k : NodeKind} {cs : List Placed}
    (h : ∀ c ∈ cs, c.isNode k = false) : ∀ x ∈ sketchAll names cs, x.isNode k = false := by
  have hnone : cs.find? (·.isNode k) = none := List.find?_eq_none.2 fun c hc => by simp [h c hc]
  have hsketch := find?_isNode_sketchAll names k cs
  rw [hnone, Option.bind_none, List.find?_eq_none] at hsketch
  simpa using hsketch

theorem Placed.sketch_of_isNode {names : List Text} {k : NodeKind} {c : Placed}
    (h : c.isNode k = true) : c.sketch names = [.node k (sketchAll names c.children)] := by
  obtain ⟨start, cs, rfl⟩ := exists_of_isNode h
  rw [sketch_node, children]

namespace Site

variable {names : List Text} {s c d X : Site} {L R : List Site} {k : NodeKind}

theorem setting_of_parent? (h : c.parent? = some s) (hk : s.node.isNode k = true) :
    c.setting names = .below k (Placed.sketchAll names s.node.children) := by
  obtain ⟨start, kind, l, r, hnode, habove⟩ := parent?_eq_some.1 h
  rw [hnode] at hk ⊢
  obtain rfl := Placed.isNode_node.1 hk
  simp [setting, habove, Crumb.around]

theorem memberKind_eq_typedefName {declarator : Placed} :
    s.memberKind declarator = .typedefName ↔ s.isTypedef = true := by
  unfold memberKind isTypedef
  dsimp only
  split
  · next h => simp [h]
  · next h =>
    refine ⟨fun heq => ?_, fun heq => absurd heq h⟩
    split at heq
    · cases heq
    · split at heq <;> cases heq

/-- The group around a member says whether it declares the name of a type. -/
theorem setting_of_member {t : Text} (hs : s ∈ (parse t).root.sites)
    (hk : s.node.isNode .initDeclarator = true) :
    (s.setting names).isTypedef = s.isTypedef := by
  cases hparent : s.parent? with
  | none =>
    have hroot := (isNode_root_iff hs).2 (parent?_eq_none.1 hparent)
    simp only [Placed.isNode, decide_eq_true_eq] at hk hroot
    rw [hk] at hroot
    cases hroot
  | some g =>
    obtain ⟨kind, hkind⟩ := exists_isNode_of_parent? hparent
    have hcat : s.node.category ∈ kind.holds := by
      have hreg := Placed.regular_of_mem_subsites (s := ⟨_, []⟩) (regular_parse t)
        (mem_sites_of_parent? hs hparent)
      obtain ⟨start, _, l, r, hnode, -⟩ := parent?_eq_some.1 hparent
      rw [hnode] at hreg hkind
      obtain rfl := Placed.isNode_node.1 hkind
      exact hreg.holds_inner (by simp) (Placed.isInner_of_isNode hk)
    rw [Placed.category_of_isNode hk] at hcat
    obtain rfl : kind = .declGroup := by
      cases kind <;> simp [NodeKind.holds, NodeKind.category] at hcat <;> rfl
    rw [setting_of_parent? hparent hkind, Setting.below, Setting.isTypedef,
      Placed.hasTypedef_sketchAll, isTypedef, hparent]
    rfl

/-! ### Places -/

theorem length_declaredAfter_le (s : Site) : s.declaredAfter.length ≤ s.path.length + 1 := by
  unfold declaredAfter
  split
  · simp
  · simp
  · simp
  · omega

/-- Children at the same place are the same. -/
theorem eq_of_parent?_of_path_eq {c' : Site} (h : c.parent? = some s) (h' : c'.parent? = some s)
    (hpath : c.path = c'.path) : c = c' := by
  rw [path_of_parent? h, path_of_parent? h'] at hpath
  have hlength : c.before.length = c'.before.length := by simpa using hpath
  obtain ⟨start, kind, l, r, hnode, habove⟩ := parent?_eq_some.1 h
  obtain ⟨start', kind', l', r', hnode', habove'⟩ := parent?_eq_some.1 h'
  rw [hnode, Placed.node.injEq] at hnode'
  obtain ⟨rfl, rfl, hparts⟩ := hnode'
  simp only [before, habove, habove', List.head?_cons, Option.map_some, Option.getD_some,
    List.length_reverse] at hlength
  obtain ⟨rfl, hrest⟩ := List.append_inj hparts hlength
  obtain ⟨hc, rfl⟩ := List.cons.inj hrest
  obtain ⟨node, above⟩ := c
  obtain ⟨node', above'⟩ := c'
  simp_all

/-- The children of a site come one before the other. -/
theorem precedes_children (s : Site) :
    s.children.Pairwise fun c c' => c.path.Precedes c'.path := by
  refine s.pairwise_children.imp_of_mem fun {c c'} hc hc' hlt => ?_
  rw [path_of_parent? (mem_children.1 hc), path_of_parent? (mem_children.1 hc')]
  exact Path.precedes_of_lt _ [] [] hlt

/-- Whether a declarator is the first one among the children of a site, and what stands before and
after it. -/
structure Parted (s : Site) (L : List Site) (X : Site) (R : List Site) : Prop where
  children : s.children = L ++ X :: R
  declarator : X.node.isNode .declarator = true
  first : ∀ c ∈ L, c.node.isNode .declarator = false

theorem Parted.parent? (h : s.Parted L X R) : X.parent? = some s :=
  mem_children.1 (by simp [h.children])

theorem Parted.child? (h : s.Parted L X R) : s.node.child? .declarator = some X.node := by
  refine Placed.child?_of_children (l := L.map (·.node)) (r := R.map (·.node)) ?_ h.declarator
    (by simpa using h.first)
  rw [← map_node_children, h.children, List.map_append, List.map_cons]

theorem Parted.sketch (h : s.Parted L X R) : X.node.sketch names =
    [.node .declarator (Placed.sketchAll names X.node.children)] :=
  Placed.sketch_of_isNode h.declarator

theorem exists_parted {x : Placed} (h : s.node.child? .declarator = some x) :
    ∃ L X R, s.Parted L X R ∧ X.node = x := by
  obtain ⟨l, r, hparts, hx, hl⟩ := Placed.child?_eq_some h
  obtain ⟨L, X, R, hchildren, rfl, rfl, -⟩ := children_split hparts
  exact ⟨L, X, R, ⟨hchildren, hx, by simpa using hl⟩, rfl⟩

/-- The name of a member, a parameter and a definition is known after its declarator. -/
theorem declaredAfter_eq (hk : s.node.isNode k = true) (hrole : k.role.isNamed = true)
    (hparted : s.Parted L X R) : s.declaredAfter = X.path := by
  obtain ⟨hchildren, hX, hL⟩ := hparted
  have hindex : s.node.children.findIdx (·.isNode .declarator) = L.length := by
    rw [← map_node_children, hchildren, List.findIdx_map]
    have hnone : L.findIdx (fun c => c.node.isNode .declarator) = L.length :=
      List.findIdx_eq_length.2 (by simpa using hL)
    rw [List.findIdx_append]
    simp [Function.comp_def, hnone, List.findIdx_cons, hX]
  have hkind : s.node.kind = .node k := by simpa [Placed.isNode] using hk
  rw [path_of_children hchildren, declaredAfter, hkind, hindex]
  cases k <;> first | rfl | cases hrole

theorem declaredAfter_of_enumerator (hk : s.node.isNode .enumerator = true) :
    s.declaredAfter = s.path := by
  have hkind : s.node.kind = .node .enumerator := by simpa [Placed.isNode] using hk
  rw [declaredAfter, hkind]

/-! ### What parts leave behind -/

/-- The declarations that a part leaves behind in the scope it stands in. -/
structure Exports (s d : Site) : Prop where
  mem : d ∈ s.subsites
  declares : d.declares?.isSome = true
  enclosing : d.enclosing = s.enclosing

/-- The declarations that a node has left behind in the scope it stands in when some of its parts
are read. -/
structure Left (s : Site) (L : List Site) (d : Site) : Prop where
  mem : d ∈ s.subsites
  declares : d.declares?.isSome = true
  enclosing : d.enclosing = s.enclosing
  after : ∃ c ∈ L, c.path <+: d.declaredAfter

/-- A node leaves behind what its parts leave behind, and perhaps its own name. -/
theorem left_iff (hparent : ∀ c ∈ L, c.parent? = some s) : s.Left L d ↔
    d.declares?.isSome = true ∧ d.enclosing = s.enclosing ∧
      ((∃ c ∈ L, d ∈ c.subsites) ∨ d = s ∧ ∃ c ∈ L, c.path = s.declaredAfter) := by
  replace hparent {c : Site} (hc : c ∈ L) : c.parent? = some s := hparent c hc
  constructor
  · rintro ⟨hmem, hdeclares, henclosing, c, hc, hpre⟩
    refine ⟨hdeclares, henclosing, ?_⟩
    have hlength : c.path.length = s.path.length + 1 := by
      rw [path_of_parent? (hparent hc), List.length_append, List.length_singleton]
    obtain ⟨rfl, -⟩ | ⟨e, he, hd⟩ := mem_subsites_iff.1 hmem
    · have hle := d.length_declaredAfter_le
      exact .inr ⟨rfl, c, hc, hpre.eq_of_length_le (by omega)⟩
    · -- both children are on the way to the declaration
      have hpre' := (path_prefix_of_mem_subsites hd).trans d.path_prefix_declaredAfter
      have hlength' : e.path.length = s.path.length + 1 := by
        rw [path_of_parent? he, List.length_append, List.length_singleton]
      have hpath : c.path = e.path :=
        (List.prefix_of_prefix_length_le hpre hpre' (by omega)).eq_of_length (by omega)
      obtain rfl := eq_of_parent?_of_path_eq (hparent hc) he hpath
      exact .inl ⟨c, hc, hd⟩
  · rintro ⟨hdeclares, henclosing, ⟨c, hc, hd⟩ | ⟨rfl, c, hc, hpath⟩⟩
    · exact ⟨subsites_subset_of_parent? (hparent hc) hd, hdeclares, henclosing, c, hc,
        (path_prefix_of_mem_subsites hd).trans d.path_prefix_declaredAfter⟩
    · obtain ⟨kind, hkind⟩ := exists_isNode_of_parent? (hparent hc)
      exact ⟨mem_subsites_self (Placed.isInner_of_isNode hkind), hdeclares, henclosing, c, hc,
        hpath ▸ List.prefix_rfl⟩

theorem left_append : s.Left (L ++ R) d ↔ s.Left L d ∨ s.Left R d := by
  constructor
  · rintro ⟨hmem, hdeclares, henclosing, c, hc, hpre⟩
    obtain hc | hc := List.mem_append.1 hc
    · exact .inl ⟨hmem, hdeclares, henclosing, c, hc, hpre⟩
    · exact .inr ⟨hmem, hdeclares, henclosing, c, hc, hpre⟩
  · rintro (⟨hmem, hdeclares, henclosing, c, hc, hpre⟩ | ⟨hmem, hdeclares, henclosing, c, hc, hpre⟩)
    · exact ⟨hmem, hdeclares, henclosing, c, List.mem_append_left _ hc, hpre⟩
    · exact ⟨hmem, hdeclares, henclosing, c, List.mem_append_right _ hc, hpre⟩

theorem left_endsBefore {d' : Site} (horder : ∀ c ∈ L, ∀ c' ∈ R, c.path.Precedes c'.path)
    (h : s.Left L d) (h' : s.Left R d') : d.declaredAfter.EndsBefore d'.declaredAfter := by
  obtain ⟨c, hc, hpre⟩ := h.after
  obtain ⟨c', hc', hpre'⟩ := h'.after
  exact ((horder c hc c' hc').extend hpre hpre').endsBefore

/-- Parts that the node does not enclose leave behind what they declare in its own scope. -/
theorem exports_iff (h : c.enclosing = s.enclosing ∨ c.node.isInner = false) : c.Exports d ↔
    d.declares?.isSome = true ∧ d.enclosing = s.enclosing ∧ d ∈ c.subsites := by
  obtain h | h := h
  · constructor
    · rintro ⟨hmem, hdeclares, henclosing⟩
      exact ⟨hdeclares, henclosing.trans h, hmem⟩
    · rintro ⟨hdeclares, henclosing, hmem⟩
      exact ⟨hmem, hdeclares, henclosing.trans h.symm⟩
  · have hnone : d ∉ c.subsites := fun hd => by
      rw [isInner_of_subsites hd] at h
      cases h
    exact ⟨fun hexports => absurd hexports.mem hnone, fun hd => absurd hd.2.2 hnone⟩

/-- What a part that the node encloses declares is in none of the outer scopes. -/
theorem enclosing_ne_of_enclosed (h : c.enclosing = s.path :: s.enclosing) (hd : d ∈ c.subsites) :
    d.enclosing ≠ s.enclosing := by
  obtain ⟨inner, henclosing, -⟩ := enclosing_of_mem_subsites hd
  intro heq
  have hlength := congrArg List.length (heq ▸ henclosing)
  rw [h, List.length_append, List.length_cons] at hlength
  omega

end Site

open Site

/-- Parts that come one after the other leave behind what each of them does. -/
theorem describes_parts {names : List Text} {st : Setting} {L : List Site}
    (horder : L.Pairwise fun c c' => c.path.Precedes c'.path)
    (h : ∀ c ∈ L, Describes names c.Exports (Sketch.entriesAll st (c.node.sketch names))) :
    Describes names (fun d => ∃ c ∈ L, c.Exports d)
      (Sketch.entriesAll st (Placed.sketchAll names (L.map (·.node)))) := by
  induction L with
  | nil => simpa using Describes.empty (by simp)
  | cons c L ih =>
    rw [List.pairwise_cons] at horder
    rw [List.forall_mem_cons] at h
    rw [List.map_cons, Placed.sketchAll_cons, Sketch.entriesAll_append]
    refine (h.1.append (ih horder.2 h.2) ?_).congr (by simp)
    rintro d d' hd ⟨c', hc', hd'⟩
    exact declaredAfter_endsBefore (horder.1 c' hc') hd.mem hd'.mem

/-- Before and after its declarator a node leaves behind what its parts leave behind. -/
theorem describes_left_parts {names : List Text} {st : Setting} {s : Site} {L : List Site}
    (hparent : ∀ c ∈ L, c.parent? = some s)
    (horder : L.Pairwise fun c c' => c.path.Precedes c'.path)
    (hencloses : ∀ c ∈ L, c.enclosing = s.enclosing ∨ c.node.isInner = false)
    (hown : s.declares?.isSome = true → ∀ c ∈ L, c.path ≠ s.declaredAfter)
    (h : ∀ c ∈ L, Describes names c.Exports (Sketch.entriesAll st (c.node.sketch names))) :
    Describes names (s.Left L) (Sketch.entriesAll st (Placed.sketchAll names (L.map (·.node)))) := by
  refine (describes_parts horder h).congr fun d => ?_
  rw [left_iff hparent]
  constructor
  · rintro ⟨hdeclares, henclosing, ⟨c, hc, hd⟩ | ⟨rfl, c, hc, hpath⟩⟩
    · exact ⟨c, hc, (exports_iff (hencloses c hc)).2 ⟨hdeclares, henclosing, hd⟩⟩
    · exact absurd hpath (hown hdeclares c hc)
  · rintro ⟨c, hc, hexports⟩
    obtain ⟨hdeclares, henclosing, hd⟩ := (exports_iff (hencloses c hc)).1 hexports
    exact ⟨hdeclares, henclosing, .inl ⟨c, hc, hd⟩⟩

section

variable {t : Text} {s c d X : Site} {L R : List Site} {k : NodeKind}

theorem enclosing_of_role (hk : s.node.isNode k = true) (hscope : k.role ≠ .scope)
    (hdefinition : k.role ≠ .definition) (hc : c.parent? = some s) :
    c.enclosing = s.enclosing := by
  rw [enclosing_of_parent? hc hk, if_neg]
  cases k <;> simp_all [NodeKind.role, NodeKind.encloses]

theorem enclosing_of_scope (hk : s.node.isNode k = true) (hscope : k.role = .scope)
    (hc : c.parent? = some s) : c.enclosing = s.path :: s.enclosing := by
  rw [enclosing_of_parent? hc hk, if_pos]
  cases k <;> simp_all [NodeKind.role, NodeKind.encloses]

/-- The name of a member, a parameter and a definition is that of its declarator. -/
theorem recorded?_of_declarator (hs : s ∈ (parse t).root.sites) (hk : s.node.isNode k = true)
    (hrole : k.role.isNamed = true) (hparted : s.Parted L X R) :
    s.recorded? (spellings t) =
      (Sketch.node .declarator (Placed.sketchAll (spellings t) X.node.children)).declared?.map
        (·, decide (k.role = .member) && s.isTypedef) := by
  have hX := hparted.declarator
  have hXs := mem_sites_of_mem_subsites hs
    (mem_subsites_of_parent? hparted.parent? (Placed.isInner_of_isNode hX))
  have hchild := hparted.child?
  have hkind : s.node.kind = .node k := by simpa [Placed.isNode] using hk
  rw [declared?_sketch hXs hX, recorded?, declares?, hkind]
  cases k with
  | initDeclarator =>
    cases hname : X.node.declaredName? with
    | none => simp [hchild, hname]
    | some name =>
      have htypedef : decide (s.memberKind X.node = .typedefName) = s.isTypedef := by
        simp [memberKind_eq_typedefName]
      simp [hchild, hname, htypedef, NodeKind.role]
  | param => cases hname : X.node.declaredName? <;> simp [hchild, hname, NodeKind.role]
  | functionDef => cases hname : X.node.declaredName? <;> simp [hchild, hname, NodeKind.role]
  | _ => cases hrole

theorem Site.exists_declarator (h : s.declares?.isSome = true) (hk : s.node.isNode k = true)
    (hrole : k.role.isNamed = true) : ∃ L X R, s.Parted L X R := by
  have hkind : s.node.kind = .node k := by simpa [Placed.isNode] using hk
  have hchild : (s.node.child? .declarator).isSome = true := by
    rw [declares?, hkind] at h
    cases hchild : s.node.child? .declarator with
    | some c => rfl
    | none => cases k <;> first | (simp [hchild] at h; done) | cases hrole
  obtain ⟨x, hx⟩ := Option.isSome_iff_exists.1 hchild
  obtain ⟨L, X, R, hparted, -⟩ := exists_parted hx
  exact ⟨L, X, R, hparted⟩

/-- Children further left come before. -/
theorem Site.precedes_of_children (hchildren : s.children = L ++ R) :
    ∀ c ∈ L, ∀ c' ∈ R, c.path.Precedes c'.path := by
  have horder := s.precedes_children
  rw [hchildren, List.pairwise_append] at horder
  exact horder.2.2

theorem Site.path_ne_of_children (hchildren : s.children = L ++ R) :
    ∀ c ∈ L, ∀ c' ∈ R, c.path ≠ c'.path := by
  intro c hc c' hc' heq
  have hprec := precedes_of_children hchildren c hc c' hc'
  rw [heq] at hprec
  exact hprec.endsBefore.asymm hprec.endsBefore

/-- At its declarator a node leaves behind its own name, after what the declarator leaves behind. -/
theorem describes_left_declarator (hs : s ∈ (parse t).root.sites) (hk : s.node.isNode k = true)
    (hrole : k.role.isNamed = true) (hparted : s.Parted L X R)
    (henclosing : X.enclosing = s.enclosing)
    (h : Describes (spellings t) X.Exports
      (Sketch.entriesAll .plain (X.node.sketch (spellings t)))) :
    Describes (spellings t) (s.Left [X])
      (Sketch.own (decide (k.role = .member) && s.isTypedef)
          (.node .declarator (Placed.sketchAll (spellings t) X.node.children)) ++
        Sketch.entriesAll .plain (X.node.sketch (spellings t))) := by
  have hafter := declaredAfter_eq hk hrole hparted
  rw [Sketch.own, ← recorded?_of_declarator hs hk hrole hparted]
  refine (h.append (Describes.single s) ?_).congr fun d => ?_
  · -- a declarator declares nothing itself
    rintro d d' hd ⟨rfl, -⟩
    obtain ⟨rest, hrest⟩ := (path_prefix_of_mem_subsites hd.mem).trans d.path_prefix_declaredAfter
    rw [hafter, ← hrest]
    refine Path.endsBefore_append _ ?_
    rintro rfl
    have hpath : d.path = X.path := by
      refine List.IsPrefix.eq_of_length_le ?_ (path_prefix_of_mem_subsites hd.mem).length_le
      rw [← List.append_nil X.path, hrest]
      exact d.path_prefix_declaredAfter
    obtain rfl := eq_of_mem_subsites_of_path_eq hd.mem hpath
    obtain ⟨x, hx⟩ := Option.isSome_iff_exists.1 hd.declares
    have hdeclaring := isDeclaring_of_declares? hx
    obtain ⟨start, cs, hnode⟩ := Placed.exists_of_isNode hparted.declarator
    rw [hnode] at hdeclaring
    cases hdeclaring
  · rw [left_iff (by simpa using hparted.parent?), exports_iff (.inl henclosing)]
    simp only [List.mem_singleton, exists_eq_left, hafter, and_true]
    constructor
    · rintro ⟨hdeclares, henclosing, hd | rfl⟩
      · exact .inl ⟨hdeclares, henclosing, hd⟩
      · exact .inr ⟨rfl, hdeclares⟩
    · rintro (⟨hdeclares, henclosing, hd⟩ | ⟨rfl, hdeclares⟩)
      · exact ⟨hdeclares, henclosing, .inl hd⟩
      · exact ⟨hdeclares, rfl, .inr rfl⟩

/-- A definition encloses what follows its declarator, and nothing before. -/
theorem Site.split_definition (hs : s ∈ (parse t).root.sites)
    (hk : s.node.isNode .functionDef = true) :
    ∃ L X R, s.Parted L X R ∧ X.enclosing = s.enclosing ∧
      (∀ c ∈ L, c.enclosing = s.enclosing ∨ c.node.isTrivia = true) ∧
      ∀ c ∈ R, c.enclosing = s.path :: s.enclosing := by
  have hreg := Placed.regular_of_mem_subsites (s := ⟨_, []⟩) (regular_parse t) hs
  obtain ⟨start, cs, hnode⟩ := Placed.exists_of_isNode hk
  rw [hnode] at hreg
  obtain ⟨x, d, body, hcs, hx, hd, hbody⟩ := hreg.admits
  obtain ⟨l, y, m, rfl, hl, hy, hm⟩ := Placed.exists_of_shapesAll_cons hcs
  obtain ⟨l', z, r, rfl, hl', hz, hr⟩ := Placed.exists_of_shapesAll_cons hm
  have hspecifiers : y.isNode .specifiers = true := Placed.isNode_of_category (hy.trans hx)
  have hdeclarator : z.isNode .declarator = true := Placed.isNode_of_category (hz.trans hd)
  have hafter := Placed.within_shapesAll.1 (hr ▸ hbody.within)
  obtain ⟨L, X, R, hchildren, hL, rfl, rfl⟩ :=
    children_split (s := s) (l := l ++ y :: l') (x := z) (r := r) (by simp [hnode, Placed.children])
  have henclosing {c : Site} (hc : c ∈ s.children) := enclosing_of_parent? (mem_children.1 hc) hk
  have hbefore (c : Site) (hc : c ∈ L) :
      c.node.isTrivia = true ∨ c.node.isNode .specifiers = true := by
    have hmem : c.node ∈ l ++ y :: l' := hL ▸ List.mem_map_of_mem hc
    simp only [List.mem_append, List.mem_cons] at hmem
    obtain hmem | rfl | hmem := hmem
    · exact .inl (hl _ hmem)
    · exact .inr hspecifiers
    · exact .inl (hl' _ hmem)
  refine ⟨L, X, R, ⟨hchildren, hdeclarator, fun c hc => ?_⟩, ?_, fun c hc => ?_, fun c hc => ?_⟩
  · cases hnode : c.node with
    | token start u => rfl
    | node start kind cs =>
      obtain rfl : kind = .specifiers := by simpa [hnode] using hbefore c hc
      rfl
  · rw [henclosing (by simp [hchildren]), if_neg (by simp [NodeKind.encloses, hdeclarator])]
  · obtain htrivia | hspecifiers := hbefore c hc
    · exact .inr htrivia
    · left
      rw [henclosing (by simp [hchildren, hc]), if_neg (by simp [NodeKind.encloses, hspecifiers])]
  · have hcat := hafter c.node (List.mem_map_of_mem hc)
    have hspecifiers := Placed.not_isNode_of_category (k := .specifiers) hcat (by decide)
    have hdeclarator := Placed.not_isNode_of_category (k := .declarator) hcat (by decide)
    rw [henclosing (by simp [hchildren, hc]),
      if_pos (by simp [NodeKind.encloses, hspecifiers, hdeclarator])]

/-- Without its declarator a node has not declared its own name. -/
theorem describes_left_before {st : Setting} (hk : s.node.isNode k = true)
    (hrole : k.role.isNamed = true)
    (hchildren : s.children = L ++ R) (hL : ∀ c ∈ L, c.node.isNode .declarator = false)
    (hencloses : ∀ c ∈ L, c.enclosing = s.enclosing ∨ c.node.isInner = false)
    (h : ∀ c ∈ L, Describes (spellings t) c.Exports
      (Sketch.entriesAll st (c.node.sketch (spellings t)))) :
    Describes (spellings t) (s.Left L)
      (Sketch.entriesAll st (Placed.sketchAll (spellings t) (L.map (·.node)))) := by
  have hparent (c : Site) (hc : c ∈ L) : c.parent? = some s :=
    mem_children.1 (by simp [hchildren, hc])
  have horder := s.precedes_children
  rw [hchildren, List.pairwise_append] at horder
  refine describes_left_parts hparent horder.1 hencloses (fun hdeclares c hc hpath => ?_) h
  obtain ⟨L', X, R', hparted⟩ := exists_declarator hdeclares hk hrole
  rw [declaredAfter_eq hk hrole hparted] at hpath
  obtain rfl := eq_of_parent?_of_path_eq (hparent c hc) hparted.parent? hpath
  have hdeclarator := hparted.declarator
  rw [hL c hc] at hdeclarator
  cases hdeclarator

/-- After its declarator a node leaves behind what its parts leave behind. -/
theorem describes_left_after {st : Setting} (hk : s.node.isNode k = true)
    (hrole : k.role.isNamed = true) {R₁ R₂ : List Site} (hparted : s.Parted L X (R₁ ++ R₂))
    (hencloses : ∀ c ∈ R₁, c.enclosing = s.enclosing)
    (h : ∀ c ∈ R₁, Describes (spellings t) c.Exports
      (Sketch.entriesAll st (c.node.sketch (spellings t)))) :
    Describes (spellings t) (s.Left R₁)
      (Sketch.entriesAll st (Placed.sketchAll (spellings t) (R₁.map (·.node)))) := by
  have hparent (c : Site) (hc : c ∈ R₁) : c.parent? = some s :=
    mem_children.1 (by simp [hparted.children, hc])
  have horder := s.precedes_children
  rw [hparted.children, List.pairwise_append, List.pairwise_cons, List.pairwise_append] at horder
  refine describes_left_parts hparent horder.2.1.2.1 (fun c hc => .inl (hencloses c hc))
    (fun _ c hc hpath => ?_) h
  rw [declaredAfter_eq hk hrole hparted] at hpath
  have hprec := horder.2.1.1 c (List.mem_append_left _ hc)
  rw [hpath] at hprec
  exact hprec.endsBefore.asymm hprec.endsBefore

theorem describes_left_append {names : List Text} {es es' : Names}
    (horder : ∀ c ∈ L, ∀ c' ∈ R, c.path.Precedes c'.path) (h : Describes names (s.Left L) es)
    (h' : Describes names (s.Left R) es') : Describes names (s.Left (L ++ R)) (es' ++ es) :=
  (h.append h' fun _ _ hd hd' => left_endsBefore horder hd hd').congr fun _ => left_append

/-- What a node has left behind after its declarator. -/
theorem describes_left_head (hs : s ∈ (parse t).root.sites) (hk : s.node.isNode k = true)
    (hrole : k.role.isNamed = true) (hparted : s.Parted L X R)
    (henclosing : X.enclosing = s.enclosing)
    (hencloses : ∀ c ∈ L, c.enclosing = s.enclosing ∨ c.node.isInner = false)
    (h : ∀ c ∈ L ++ [X], Describes (spellings t) c.Exports
      (Sketch.entriesAll .plain (c.node.sketch (spellings t)))) :
    Describes (spellings t) (s.Left (L ++ [X]))
      (Sketch.own (decide (k.role = .member) && s.isTypedef)
          (.node .declarator (Placed.sketchAll (spellings t) X.node.children)) ++
        Sketch.entriesAll .plain (Placed.sketchAll (spellings t) (L.map (·.node)) ++
          [.node .declarator (Placed.sketchAll (spellings t) X.node.children)])) := by
  have hbefore := describes_left_before (L := L) hk hrole hparted.children hparted.first hencloses
    fun c hc => h c (List.mem_append_left _ hc)
  have hat := describes_left_declarator hs hk hrole hparted henclosing (h X (by simp))
  have horder := precedes_of_children hparted.children
  have hboth := describes_left_append (fun c hc c' hc' => horder c hc c' (by simp_all)) hbefore hat
  rwa [List.append_assoc, ← Sketch.entriesAll_append, hparted.sketch] at hboth

theorem describes_left_member (hs : s ∈ (parse t).root.sites) (hk : s.node.isNode k = true)
    (hrole : k.role = .member ∨ k.role = .param) (hchildren : s.children = L ++ R)
    (h : ∀ c ∈ L, Describes (spellings t) c.Exports
      (Sketch.entriesAll .plain (c.node.sketch (spellings t)))) :
    Describes (spellings t) (s.Left L)
      (Sketch.memberEntries (decide (k.role = .member) && s.isTypedef)
        (Placed.sketchAll (spellings t) (L.map (·.node)))) := by
  have hnamed : k.role.isNamed = true := by
    obtain hr | hr := hrole <;> rw [hr] <;> rfl
  have hencloses (c : Site) (hc : c ∈ L) : c.enclosing = s.enclosing := by
    refine enclosing_of_role hk ?_ ?_ (mem_children.1 (hchildren ▸ List.mem_append_left R hc))
    · intro hr
      simp [hr] at hrole
    · intro hr
      simp [hr] at hrole
  cases hfind : L.find? (·.node.isNode .declarator) with
  | none =>
    have hL : ∀ c ∈ L, c.node.isNode .declarator = false := by simpa using hfind
    rw [Sketch.memberEntries_of_forall (Placed.not_isNode_sketchAll (by simpa using hL))]
    exact describes_left_before hk hnamed hchildren hL (fun c hc => .inl (hencloses c hc)) h
  | some X =>
    obtain ⟨hX, L₁, L₂, rfl, hL₁⟩ := List.find?_eq_some_iff_append.1 hfind
    have hparted : s.Parted L₁ X (L₂ ++ R) := ⟨by simp [hchildren], hX, by simpa using hL₁⟩
    have hhead := describes_left_head hs hk hnamed hparted (hencloses X (by simp))
      (fun c hc => .inl (hencloses c (by simp [hc])))
      fun c hc => h c (List.append_cons .. ▸ List.mem_append_left L₂ hc)
    have hafter := describes_left_after hk hnamed hparted (fun c hc => hencloses c (by simp [hc]))
      fun c hc => h c (by simp [hc])
    have horder : ∀ c ∈ L₁ ++ [X], ∀ c' ∈ L₂, c.path.Precedes c'.path := fun c hc c' hc' =>
      precedes_of_children (s := s) (R := L₂ ++ R) (by simp [hchildren]) c hc c' (by simp [hc'])
    have hall := describes_left_append horder hhead hafter
    rw [List.append_assoc, List.singleton_append] at hall
    rw [List.map_append, List.map_cons, Placed.sketchAll_append, Placed.sketchAll_cons,
      hparted.sketch, List.singleton_append,
      Sketch.memberEntries_append (Placed.not_isNode_sketchAll (by simpa using hparted.first))
        (by simp [Sketch.isNode]), List.append_assoc]
    exact hall

/-- A definition leaves behind nothing after its declarator. -/
theorem describes_left_definition (hs : s ∈ (parse t).root.sites)
    (hk : s.node.isNode .functionDef = true) (hchildren : s.children = L ++ R)
    (h : ∀ c ∈ L, Describes (spellings t) c.Exports
      (Sketch.entriesAll .plain (c.node.sketch (spellings t)))) :
    Describes (spellings t) (s.Left L)
      (Sketch.headEntries (Placed.sketchAll (spellings t) (L.map (·.node)))) := by
  obtain ⟨L₀, X, R₀, hparted, henclosing, hL₀, hR₀⟩ := split_definition hs hk
  have hencloses (c : Site) (hc : c ∈ L₀) : c.enclosing = s.enclosing ∨ c.node.isInner = false :=
    (hL₀ c hc).imp_right Placed.not_isInner_of_isTrivia
  have hcases : L <+: L₀ ∨ ∃ L₂, L = L₀ ++ X :: L₂ ∧ R₀ = L₂ ++ R := by
    obtain ⟨a, ha, -⟩ | ⟨a, rfl, ha⟩ :=
      List.append_eq_append_iff.1 (hchildren.symm.trans hparted.children)
    · exact .inl ⟨a, ha.symm⟩
    · cases a with
      | nil => exact .inl (by simp)
      | cons Y a =>
        obtain ⟨rfl, rfl⟩ := List.cons.inj ha
        exact .inr ⟨a, rfl, rfl⟩
  obtain hpre | ⟨L₂, rfl, rfl⟩ := hcases
  · -- all parts stand before the declarator
    have hdecl (c : Site) (hc : c ∈ L) := hparted.first c (hpre.subset hc)
    rw [Sketch.headEntries_of_forall (Placed.not_isNode_sketchAll (by simpa using hdecl))]
    exact describes_left_before hk rfl hchildren hdecl (fun c hc => hencloses c (hpre.subset hc)) h
  · have hhead := describes_left_head hs hk rfl hparted henclosing hencloses
      fun c hc => h c (List.append_cons .. ▸ List.mem_append_left L₂ hc)
    rw [List.map_append, List.map_cons, Placed.sketchAll_append, Placed.sketchAll_cons,
      hparted.sketch, List.singleton_append,
      Sketch.headEntries_append (Placed.not_isNode_sketchAll (by simpa using hparted.first))
        (by simp [Sketch.isNode])]
    refine hhead.congr fun d => ?_
    rw [List.append_cons, left_append]
    refine ⟨fun hleft => hleft.resolve_right fun hafter => ?_, .inl⟩
    -- what follows the declarator is enclosed, and the own name is declared by now
    obtain ⟨-, henclosing, ⟨c, hc, hd⟩ | ⟨rfl, c, hc, hpath⟩⟩ := (left_iff fun c hc =>
      mem_children.1 (by simp [hparted.children, hc])).1 hafter
    · exact enclosing_ne_of_enclosed (hR₀ c (List.mem_append_left R hc)) hd henclosing
    · rw [declaredAfter_eq hk rfl hparted] at hpath
      exact path_ne_of_children (s := d) (L := L₀ ++ [X]) (R := L₂ ++ R)
        (by simp [hparted.children]) X (by simp) c (by simp [hc]) hpath.symm

theorem Site.role_of_declares (hk : s.node.isNode k = true) (h : s.declares?.isSome = true) :
    k.role.isNamed = true ∨ k = .enumerator := by
  obtain ⟨x, hx⟩ := Option.isSome_iff_exists.1 h
  have hdeclaring := isDeclaring_of_declares? hx
  obtain ⟨start, cs, hnode⟩ := Placed.exists_of_isNode hk
  rw [hnode] at hdeclaring
  cases k <;> first | exact .inl rfl | exact .inr rfl | cases hdeclaring

/-- **What a node has left behind when some of its parts are read is what the sketch says**, if it
says so of the parts. -/
theorem describes_left (hs : s ∈ (parse t).root.sites) (hk : s.node.isNode k = true)
    (hchildren : s.children = L ++ R)
    (h : ∀ c ∈ L, Describes (spellings t) c.Exports
      (Sketch.entriesAll (c.setting (spellings t)) (c.node.sketch (spellings t)))) :
    Describes (spellings t) (s.Left L)
      (Sketch.leftEntries (s.setting (spellings t)) k
        (Placed.sketchAll (spellings t) s.node.children)
        (Placed.sketchAll (spellings t) (L.map (·.node)))) := by
  have hparent (c : Site) (hc : c ∈ L) : c.parent? = some s :=
    mem_children.1 (hchildren ▸ List.mem_append_left R hc)
  replace h (c : Site) (hc : c ∈ L) := setting_of_parent? (hparent c hc) hk ▸ h c hc
  have horder := s.precedes_children
  rw [hchildren, List.pairwise_append] at horder
  cases hr : k.role with
  | scope =>
    simp only [Sketch.leftEntries, hr]
    refine Describes.empty fun d hleft => ?_
    obtain ⟨hdeclares, henclosing, ⟨c, hc, hd⟩ | ⟨rfl, -⟩⟩ := (left_iff hparent).1 hleft
    · exact enclosing_ne_of_enclosed (enclosing_of_scope hk hr (hparent c hc)) hd henclosing
    · obtain h | rfl := role_of_declares hk hdeclares
      · rw [hr] at h
        cases h
      · cases hr
  | plain =>
    simp only [Sketch.leftEntries, hr]
    refine describes_left_parts hparent horder.1
      (fun c hc => .inl (enclosing_of_role hk (by simp [hr]) (by simp [hr]) (hparent c hc)))
      (fun hdeclares => ?_) h
    obtain h | rfl := role_of_declares hk hdeclares
    · rw [hr] at h
      cases h
    · cases hr
  | enumerator =>
    simp only [Sketch.leftEntries, hr]
    refine describes_left_parts hparent horder.1
      (fun c hc => .inl (enclosing_of_role hk (by simp [hr]) (by simp [hr]) (hparent c hc)))
      (fun hdeclares c hc hpath => ?_) h
    obtain rfl : k = .enumerator := by cases k <;> first | rfl | cases hr
    have hlength := congrArg List.length hpath
    rw [declaredAfter_of_enumerator hk, path_of_parent? (hparent c hc), List.length_append,
      List.length_singleton] at hlength
    omega
  | member =>
    simp only [Sketch.leftEntries, hr]
    rw [Setting.below_eq_plain (by simp [hr]) (by simp [hr])] at h
    have hmember := describes_left_member hs hk (.inl hr) hchildren h
    obtain rfl : k = .initDeclarator := by cases k <;> first | rfl | cases hr
    simpa [hr, setting_of_member hs hk] using hmember
  | param =>
    simp only [Sketch.leftEntries, hr]
    rw [Setting.below_eq_plain (by simp [hr]) (by simp [hr])] at h
    simpa [hr] using describes_left_member hs hk (.inr hr) hchildren h
  | definition =>
    simp only [Sketch.leftEntries, hr]
    rw [Setting.below_eq_plain (by simp [hr]) (by simp [hr])] at h
    obtain rfl : k = .functionDef := by cases k <;> first | rfl | cases hr
    exact describes_left_definition hs hk hchildren h

theorem recorded?_of_enumerator (hs : s ∈ (parse t).root.sites)
    (hk : s.node.isNode .enumerator = true) :
    s.recorded? (spellings t) =
      (Sketch.nameOf? (Placed.sketchAll (spellings t) s.node.children)).map (·, false) := by
  have hkind : s.node.kind = .node .enumerator := by simpa [Placed.isNode] using hk
  rw [recorded?, declares?, hkind, Sketch.nameOf?, Placed.find?_isNode_child?]
  cases hname : s.node.child? .name with
  | none => simp
  | some n =>
    obtain ⟨l, r, hparts, hn, -⟩ := Placed.child?_eq_some hname
    obtain ⟨c, hparent, rfl⟩ := exists_child (s := s) (p := n) (by simp [hparts])
    have hc := mem_sites_of_mem_subsites hs
      (mem_subsites_of_parent? hparent (Placed.isInner_of_isNode hn))
    rw [Option.map_some, Option.bind_some, Sketch.symbols_node, nameOf?_sketch hc hn]
    cases hfirst : c.node.firstToken? with
    | none => simp [hfirst]
    | some l => simp [hfirst]

/-- **What a part leaves behind is what the sketch says.** -/
theorem describes_exports (s : Site) (hs : s ∈ (parse t).root.sites ∨ s.node.isInner = false) :
    Describes (spellings t) s.Exports
      (Sketch.entriesAll (s.setting (spellings t)) (s.node.sketch (spellings t))) := by
  induction s using Site.induction with
  | _ s ih =>
  cases hnode : s.node with
  | token start u =>
    have hentries : Sketch.entriesAll (s.setting (spellings t)) (u.sketch (spellings t)) = [] := by
      unfold Token.sketch
      split
      · simp
      · simp
    rw [Placed.sketch_token, hentries]
    refine Describes.empty fun d hd => ?_
    have hinner := isInner_of_subsites hd.mem
    rw [hnode] at hinner
    cases hinner
  | node start k cs =>
    have hk : s.node.isNode k = true := by rw [hnode]; exact Placed.isNode_node.2 rfl
    replace hs := hs.resolve_right (by simp [hnode])
    have hleft := describes_left hs hk (L := s.children) (R := []) (by simp) fun c hc => by
      refine ih c (mem_children.1 hc) ?_
      cases hinner : c.node.isInner with
      | false => exact .inr rfl
      | true => exact .inl (mem_sites_of_mem_subsites hs
          (mem_subsites_of_parent? (mem_children.1 hc) hinner))
    have hmem {c d : Site} (hc : c.parent? = some s) (hd : d ∈ c.subsites) :
        ∃ c ∈ s.children, c.path <+: d.declaredAfter :=
      ⟨c, mem_children.2 hc, (path_prefix_of_mem_subsites hd).trans d.path_prefix_declaredAfter⟩
    rw [← hnode, Placed.sketch_of_isNode hk, Sketch.entriesAll_cons, Sketch.entriesAll_nil,
      List.nil_append]
    rw [map_node_children] at hleft
    by_cases henum : k = .enumerator
    · subst henum
      rw [Sketch.entries_enumerator, ← recorded?_of_enumerator hs hk]
      refine (hleft.append (Describes.single s) ?_).congr fun d => ?_
      · rintro d d' hd ⟨rfl, -⟩
        obtain ⟨c, hc, rest, hrest⟩ := hd.after
        rw [declaredAfter_of_enumerator hk, ← hrest, path_of_parent? (mem_children.1 hc),
          List.append_assoc]
        exact Path.endsBefore_append _ (by simp)
      · constructor
        · rintro ⟨hd, hdeclares, henclosing⟩
          obtain ⟨rfl, -⟩ | ⟨c, hc, hdc⟩ := mem_subsites_iff.1 hd
          · exact .inr ⟨rfl, hdeclares⟩
          · exact .inl ⟨hd, hdeclares, henclosing, hmem hc hdc⟩
        · rintro (hd | ⟨rfl, hdeclares⟩)
          · exact ⟨hd.mem, hd.declares, hd.enclosing⟩
          · exact ⟨mem_subsites_self (Placed.isInner_of_isNode hk), hdeclares, rfl⟩
    · rw [Sketch.entries_eq_leftEntries (by cases k <;> simp_all [NodeKind.role])]
      refine hleft.congr fun d => ⟨?_, fun hd => ⟨hd.mem, hd.declares, hd.enclosing⟩⟩
      rintro ⟨hd, hdeclares, henclosing⟩
      refine ⟨hd, hdeclares, henclosing, ?_⟩
      obtain ⟨rfl, -⟩ | ⟨c, hc, hdc⟩ := mem_subsites_iff.1 hd
      · -- the own name is declared after the declarator
        have hrole := (role_of_declares hk hdeclares).resolve_right henum
        obtain ⟨L, X, R, hparted⟩ := exists_declarator hdeclares hk hrole
        exact ⟨X, mem_children.2 hparted.parent?,
          declaredAfter_eq hk hrole hparted ▸ List.prefix_rfl⟩
      · exact hmem hc hdc

end

end Whittle
