import Whittle.Proofs.Name.Walk

/-!
# The order of the walk

* `Scoped`: the scopes that are open at each mark are those around its site.
* `Site.scoped_marks`: **the walk opens and closes scopes as the tree has them.**
* `Site.declares_mem_marks`, `Site.uses_mem_marks`: the walk misses no site.
* `Mark.Before`: names are declared and used in the order of the tree, and a scope is opened before
  anything is declared in it.
* `Site.pairwise_marks`: **the walk keeps this order.**
-/

namespace Whittle

/-! ### Open scopes -/

namespace Mark

/-- Whether a mark belongs where some scopes are open. -/
def Fits (open_ : List Path) : Mark → Prop
  | .opens s | .declares s | .uses s => open_ = s.scopes
  | .closes => True

/-- The open scopes after a mark. -/
def move (open_ : List Path) : Mark → List Path
  | .opens s => s.path :: open_
  | .closes => open_.tail
  | .declares _ | .uses _ => open_

end Mark

/-- Whether marks belong where they stand, from some open scopes on and up to others. -/
inductive Scoped : List Path → List Mark → List Path → Prop
  | nil {σs : List Path} : Scoped σs [] σs
  | cons {σs τs : List Path} {m : Mark} {ms : List Mark} (h : m.Fits σs)
      (hrest : Scoped (m.move σs) ms τs) : Scoped σs (m :: ms) τs

namespace Scoped

variable {σs τs ρs : List Path} {m : Mark} {ms ns : List Mark}

theorem append (h : Scoped σs ms τs) (h' : Scoped τs ns ρs) : Scoped σs (ms ++ ns) ρs := by
  induction h with
  | nil => exact h'
  | cons hm _ ih => exact .cons hm (ih h')

theorem single (h : m.Fits σs) (hm : m.move σs = τs) : Scoped σs [m] τs := hm ▸ .cons h .nil

theorem split (h : Scoped σs (ms ++ ns) ρs) : ∃ τs, Scoped σs ms τs ∧ Scoped τs ns ρs := by
  induction ms generalizing σs with
  | nil => exact ⟨σs, .nil, h⟩
  | cons m ms ih =>
    cases h with
    | cons hm hrest =>
      obtain ⟨τs, hms, hns⟩ := ih hrest
      exact ⟨τs, .cons hm hms, hns⟩

theorem flatMap {cs : List Site} (h : ∀ c ∈ cs, Scoped σs c.marks σs) :
    Scoped σs (cs.flatMap Site.marks) σs := by
  induction cs with
  | nil => exact .nil
  | cons c cs ih =>
    rw [List.flatMap_cons]
    obtain ⟨hc, hcs⟩ := List.forall_mem_cons.1 h
    exact hc.append (ih hcs)

end Scoped

namespace Site

variable {s c t : Site}

/-- The children of a site are regular and of its tree. -/
theorem regular_of_parent? (hreg : s.node.Regular) (hc : c.parent? = some s) : c.node.Regular := by
  obtain ⟨start, kind, l, r, hnode, -⟩ := parent?_eq_some.1 hc
  rw [hnode] at hreg
  exact hreg.child (by simp)

theorem isScope_of_functionDef (h : s.node.isNode .functionDef = true) : s.isScope = true := by
  obtain ⟨start, children, hnode⟩ := Placed.exists_of_isNode h
  simp [isScope, hnode, Placed.kind]

theorem isScope_of_isNode {k : NodeKind} (h : s.node.isNode k = true)
    (hk : k ∈ [NodeKind.initDeclarator, .param, .enumerator, .nameRef]) : s.isScope = false := by
  obtain ⟨start, children, hnode⟩ := Placed.exists_of_isNode h
  simp only [List.mem_cons, List.not_mem_nil, or_false] at hk
  obtain rfl | rfl | rfl | rfl := hk <;> simp [isScope, hnode, Placed.kind]

/-- A scope ends after its children. -/
theorem marksEnd_of_isScope (h : s.isScope = true) : s.marksEnd = [.closes] := by
  have hnot {k : NodeKind} (hk : k ∈ [NodeKind.initDeclarator, .param, .enumerator, .nameRef]) :
      s.node.isNode k = false := by
    by_contra hne
    rw [isScope_of_isNode (by simpa using hne) hk] at h
    cases h
  simp [marksEnd, h, hnot]

/-- The last marks of a node that is no scope belong to the node itself. -/
theorem scoped_marksEnd (h : s.isScope = false) : Scoped s.scopes s.marksEnd s.scopes := by
  unfold marksEnd
  split
  · exact .single rfl rfl
  · split
    · exact .single rfl rfl
    · rw [h]
      exact .nil

section

variable (hreg : s.node.Regular) (ih : ∀ c ∈ s.children, Scoped c.scopes c.marks c.scopes)

include ih

/-- Children in the same scopes leave them open. -/
theorem scoped_flatMap {σs : List Path} {cs : List Site} (hcs : ∀ c ∈ cs, c ∈ s.children)
    (hσ : ∀ c ∈ cs, c.scopes = σs) : Scoped σs (cs.flatMap marks) σs :=
  Scoped.flatMap fun c hc => hσ c hc ▸ ih c (hcs c hc)

theorem scoped_marks_of_plain (hhead : s.hasHead = false) : Scoped s.scopes s.marks s.scopes := by
  obtain ⟨hdef, -⟩ := Bool.or_eq_false_iff.1 hhead
  have hscopes (c : Site) (hc : c ∈ s.children) :
      c.scopes = if s.isScope then s.path :: s.scopes else s.scopes := by
    simp [scopes_of_parent? (mem_children.1 hc), hdef]
  have hall := scoped_flatMap ih (fun c hc => hc) hscopes
  rw [marks_of_plain hhead]
  cases hscope : s.isScope with
  | true =>
    have hopen : Scoped s.scopes [.opens s] (s.path :: s.scopes) := .single rfl rfl
    simp only [hscope, if_true] at hall
    simp only [marksBefore, hscope, hdef, marksEnd_of_isScope hscope]
    exact (hopen.append hall).append (.single trivial rfl)
  | false =>
    simp only [hscope] at hall
    simp only [marksBefore, hscope]
    exact hall.append (scoped_marksEnd hscope)

include hreg

theorem scoped_marks_of_functionDef (hdef : s.node.isNode .functionDef = true) :
    Scoped s.scopes s.marks s.scopes := by
  obtain ⟨L, X, R, hchildren, -, hX, hR, -, hmarks⟩ := marks_of_functionDef hreg hdef
  have hXmem : X ∈ s.children := by simp [hchildren]
  have hRmem (c : Site) (hc : c ∈ R) : c ∈ s.children := by simp [hchildren, hc]
  have hfirst := ih X hXmem
  have hXscopes : X.scopes = s.scopes := by
    simp [scopes_of_parent? (mem_children.1 hXmem), hdef, hX]
  have hRscopes (c : Site) (hc : c ∈ R) : c.scopes = s.path :: s.scopes := by
    simp [scopes_of_parent? (mem_children.1 (hRmem c hc)), isScope_of_functionDef hdef, hR c hc]
  have hopen : Scoped s.scopes [.declares s, .opens s] (s.path :: s.scopes) :=
    .cons rfl (.single rfl rfl)
  rw [hXscopes] at hfirst
  rw [hmarks]
  exact ((hfirst.append hopen).append (scoped_flatMap ih hRmem hRscopes)).append
    (.single trivial rfl)

theorem scoped_marks_of_initDeclarator (hmember : s.node.isNode .initDeclarator = true) :
    Scoped s.scopes s.marks s.scopes := by
  obtain ⟨L, X, R, hchildren, -, -, -, -, hmarks⟩ := marks_of_initDeclarator hreg hmember
  have hscopes (c : Site) (hc : c ∈ s.children) : c.scopes = s.scopes := by
    simp [scopes_of_parent? (mem_children.1 hc), isScope_of_isNode hmember]
  have hXmem : X ∈ s.children := by simp [hchildren]
  have hRmem (c : Site) (hc : c ∈ R) : c ∈ s.children := by simp [hchildren, hc]
  have hfirst := ih X hXmem
  have hname : Scoped s.scopes [.declares s] s.scopes := .single rfl rfl
  rw [hscopes X hXmem] at hfirst
  rw [hmarks]
  exact (hfirst.append hname).append
    (scoped_flatMap ih hRmem fun c hc => hscopes c (hRmem c hc))

end

/-- **The walk opens and closes scopes as the tree has them.** -/
theorem scoped_marks (s : Site) (hreg : s.node.Regular) : Scoped s.scopes s.marks s.scopes := by
  induction s using Site.induction with
  | h s ih =>
  have ih (c : Site) (hc : c ∈ s.children) : Scoped c.scopes c.marks c.scopes :=
    ih c (mem_children.1 hc) (regular_of_parent? hreg (mem_children.1 hc))
  cases hdef : s.node.isNode .functionDef with
  | true => exact scoped_marks_of_functionDef hreg ih hdef
  | false =>
    cases hmember : s.node.isNode .initDeclarator with
    | true => exact scoped_marks_of_initDeclarator hreg ih hmember
    | false => exact scoped_marks_of_plain ih (by simp [hasHead, hdef, hmember])

end Site

/-! ### Where marks come from -/

namespace Mark

/-- Whether a mark is one of a site itself. -/
def Of (t : Site) : Mark → Prop
  | .opens s => s = t
  | .declares s => s = t ∧ s.node.isDeclaring = true
  | .uses s => s = t ∧ s.node.isNode .nameRef = true
  | .closes => False

/-- The part that a name is declared after, or that uses it. -/
def place? : Mark → Option Path
  | .declares s => some s.point
  | .uses s => some s.path
  | .opens _ | .closes => none

end Mark

namespace Site

variable {s c t : Site} {m : Mark}

theorem isDeclaring_of_isNode {k : NodeKind} (h : s.node.isNode k = true) :
    s.node.isDeclaring = k.isDeclaring := by
  obtain ⟨start, children, hnode⟩ := Placed.exists_of_isNode h
  rw [hnode, Placed.isDeclaring]

/-- A mark is one of a site at or below. -/
theorem exists_of_mem_marks (h : m ∈ s.marks) (hm : m ≠ .closes) :
    ∃ t ∈ s.subsites, m.Of t := by
  induction s using Site.induction with
  | h s ih =>
  cases hinner : s.node.isInner with
  | false => simp [marks_of_not_isInner hinner] at h
  | true =>
    have hself := mem_subsites_self hinner
    rw [marks_eq, List.mem_append, List.mem_append, List.mem_flatMap] at h
    obtain (h | ⟨c, hc, h⟩) | h := h
    · unfold marksBefore at h
      split at h
      · exact ⟨s, hself, by simp [List.mem_singleton.1 h, Mark.Of]⟩
      · cases h
    · rw [List.mem_append] at h
      obtain h | h := h
      · obtain ⟨t, ht, hof⟩ := ih c (mem_children.1 hc) h
        exact ⟨t, subsites_subset_of_parent? (mem_children.1 hc) ht, hof⟩
      · refine ⟨s, hself, ?_⟩
        unfold marksAfter at h
        split at h
        · rename_i hdef
          have hdeclaring := isDeclaring_of_isNode (Bool.and_eq_true_iff.1 hdef).1
          simp only [List.mem_cons, List.not_mem_nil, or_false] at h
          obtain rfl | rfl := h
          · exact ⟨rfl, hdeclaring⟩
          · rfl
        split at h
        · rename_i hmember
          rw [List.mem_singleton.1 h]
          exact ⟨rfl, isDeclaring_of_isNode (Bool.and_eq_true_iff.1 hmember).1⟩
        · cases h
    · refine ⟨s, hself, ?_⟩
      unfold marksEnd at h
      split at h
      · rename_i hnode
        rw [List.mem_singleton.1 h]
        refine ⟨rfl, ?_⟩
        obtain hnode | hnode := Bool.or_eq_true_iff.1 hnode
        · exact isDeclaring_of_isNode hnode
        · exact isDeclaring_of_isNode hnode
      split at h
      · rename_i hnode
        rw [List.mem_singleton.1 h]
        exact ⟨rfl, hnode⟩
      split at h
      · exact absurd (List.mem_singleton.1 h) hm
      · cases h

theorem marks_subset_of_parent? (h : c.parent? = some s) : c.marks ⊆ s.marks := by
  intro m hm
  rw [marks_eq s, List.mem_append, List.mem_append, List.mem_flatMap]
  exact .inl (.inr ⟨c, mem_children.2 h, List.mem_append_left _ hm⟩)

theorem marks_subset (h : t ∈ s.subsites) : t.marks ⊆ s.marks :=
  subsites_induction (motive := fun t => t.marks ⊆ s.marks)
    (fun _ _ hs hc _ => List.Subset.trans (marks_subset_of_parent? hc) hs)
    (fun _ => List.Subset.refl _) t h

/-- The walk misses no use of a name. -/
theorem uses_mem_marks (h : t ∈ s.subsites) (ht : t.node.isNode .nameRef = true) :
    .uses t ∈ s.marks := by
  refine marks_subset h ?_
  obtain ⟨start, children, hnode⟩ := Placed.exists_of_isNode ht
  rw [marks_eq]
  refine List.mem_append_right _ ?_
  simp [marksEnd, hnode, Placed.isNode_eq_decide]

theorem isNode_of_isDeclaring (h : t.node.isDeclaring = true) :
    t.node.isNode .functionDef = true ∨ t.node.isNode .initDeclarator = true ∨
      (t.node.isNode .param || t.node.isNode .enumerator) = true := by
  cases hnode : t.node with
  | token start u => simp [hnode, Placed.isDeclaring] at h
  | node start kind children =>
    rw [hnode, Placed.isDeclaring] at h
    cases kind <;> simp [NodeKind.isDeclaring, Placed.isNode_eq_decide] at h ⊢

/-- The walk misses no declaration. -/
theorem declares_mem_marks (h : t ∈ s.subsites) (hreg : t.node.Regular)
    (ht : t.node.isDeclaring = true) : .declares t ∈ s.marks := by
  refine marks_subset h ?_
  obtain hdef | hmember | hother := isNode_of_isDeclaring ht
  · obtain ⟨L, X, R, -, -, -, -, -, hmarks⟩ := marks_of_functionDef hreg hdef
    simp [hmarks]
  · obtain ⟨L, X, R, -, -, -, -, -, hmarks⟩ := marks_of_initDeclarator hreg hmember
    simp [hmarks]
  · rw [marks_eq]
    exact List.mem_append_right _ (by simp [marksEnd, hother])

/-! ### Order -/

end Site

/-- Whether a mark may come before another one: names are declared and used in the order of the
tree, and nothing is declared in a scope before it is opened. -/
structure Mark.Before (m m' : Mark) : Prop where
  place : ∀ p q, m.place? = some p → m'.place? = some q → p.EndsBefore q
  scope : ∀ s t, m = .declares s → m' = .opens t → t.path ∉ s.scopes

namespace Site

variable {s c c' t : Site} {m m' : Mark} {p : Path}

theorem path_prefix_point (s : Site) : s.path <+: s.point := by
  unfold point
  split
  · exact List.prefix_append ..
  · exact List.prefix_append ..
  · exact List.prefix_rfl

/-- The name of a parameter or an enumerator is declared after all of it. -/
theorem point_of_whole (h : (s.node.isNode .param || s.node.isNode .enumerator) = true) :
    s.point = s.path := by
  obtain h | h := Bool.or_eq_true_iff.1 h
  · obtain ⟨start, children, hnode⟩ := Placed.exists_of_isNode h
    simp [point, hnode, Placed.kind]
  · obtain ⟨start, children, hnode⟩ := Placed.exists_of_isNode h
    simp [point, hnode, Placed.kind]

/-- The scopes around a site lie on its path. -/
theorem prefix_of_mem_scopes {σ : Path} (h : σ ∈ s.scopes) : σ <+: s.path := by
  obtain ⟨node, above⟩ := s
  induction above generalizing node with
  | nil => simp [scopes, Placed.scopesAround] at h
  | cons crumb above ih =>
    have hparent : (Site.mk node (crumb :: above)).parent? = some ⟨crumb.around node, above⟩ := rfl
    rw [path_of_parent? hparent]
    rw [scopes_of_parent? hparent] at h
    split at h
    · obtain rfl | h := List.mem_cons.1 h
      · exact List.prefix_append ..
      · exact (ih _ h).trans (List.prefix_append ..)
    · exact (ih _ h).trans (List.prefix_append ..)

/-- The places of the marks of a site lie at or below it. -/
theorem prefix_of_place (h : m ∈ s.marks) (hp : m.place? = some p) :
    ∃ t ∈ s.subsites, m.Of t ∧ t.path <+: p := by
  obtain ⟨t, ht, hof⟩ := exists_of_mem_marks h (by rintro rfl; cases hp)
  refine ⟨t, ht, hof, ?_⟩
  cases m with
  | opens u => cases hp
  | closes => cases hp
  | declares u =>
    obtain ⟨rfl, -⟩ := hof
    exact Option.some.inj hp ▸ u.path_prefix_point
  | uses u =>
    obtain ⟨rfl, -⟩ := hof
    exact Option.some.inj hp ▸ List.prefix_rfl

/-- The marks of siblings come one after the other. -/
theorem before_of_lt (hc : c.parent? = some s) (hc' : c'.parent? = some s)
    (hlt : c.before.length < c'.before.length) (hm : m ∈ c.marks) (hm' : m' ∈ c'.marks) :
    m.Before m' := by
  have hpath := path_of_parent? hc
  have hpath' := path_of_parent? hc'
  constructor
  · intro p q hp hq
    obtain ⟨t, ht, -, htp⟩ := prefix_of_place hm hp
    obtain ⟨u, hu, -, huq⟩ := prefix_of_place hm' hq
    obtain ⟨a, rfl⟩ := (path_prefix_of_mem_subsites ht).trans htp
    obtain ⟨b, rfl⟩ := (path_prefix_of_mem_subsites hu).trans huq
    rw [hpath, hpath', List.append_assoc, List.append_assoc]
    exact (Path.precedes_of_lt s.path a b hlt).endsBefore
  · rintro t u rfl rfl hmem
    obtain ⟨_, ht, rfl, -⟩ := exists_of_mem_marks hm (by simp)
    obtain ⟨_, hu, rfl⟩ := exists_of_mem_marks hm' (by simp)
    -- the scope would lie below both siblings
    have hcu := path_prefix_of_mem_subsites ht
    have hcu' := (path_prefix_of_mem_subsites hu).trans (prefix_of_mem_scopes hmem)
    have hlength : c.path.length = c'.path.length := by simp [hpath, hpath']
    have heq := (List.prefix_of_prefix_length_le hcu hcu' (Nat.le_of_eq hlength)).eq_of_length
      hlength
    rw [hpath, hpath', List.append_cancel_left_eq, List.singleton_inj] at heq
    omega

/-- Nothing is asked of a mark before the end of a scope. -/
theorem before_closes (m : Mark) : m.Before .closes :=
  ⟨fun _ _ _ hq => (by cases hq), fun _ _ _ h => (by cases h)⟩

/-- Nothing is asked of a mark after the start of a scope. -/
theorem opens_before (s : Site) (m : Mark) : (Mark.opens s).Before m :=
  ⟨fun _ _ hp => (by cases hp), fun _ _ h => (by cases h)⟩

/-- What is declared or used below a part comes before a name that is declared after the part. -/
theorem before_declares (hdecl : c.node.isDeclaring = false)
    (hname : c.node.isNode .nameRef = false) (hpoint : s.point = c.path) (hm : m ∈ c.marks) :
    m.Before (.declares s) := by
  constructor
  · intro p q hp hq
    obtain ⟨t, ht, hof, htp⟩ := prefix_of_place hm hp
    obtain ⟨a, ha⟩ := (path_prefix_of_mem_subsites ht).trans htp
    obtain rfl : c.path = q := by rw [← hpoint]; exact Option.some.inj hq
    rw [← ha]
    refine Path.endsBefore_append c.path ?_
    rintro rfl
    -- the mark would be one of the part itself
    rw [List.append_nil] at ha
    have heq := (path_prefix_of_mem_subsites ht).eq_of_length_le (ha ▸ htp.length_le)
    rw [eq_of_mem_subsites_of_path_eq ht heq.symm] at hof
    cases m with
    | opens u => cases hp
    | closes => cases hp
    | declares u =>
      obtain ⟨rfl, hof⟩ := hof
      rw [hdecl] at hof
      cases hof
    | uses u =>
      obtain ⟨rfl, hof⟩ := hof
      rw [hname] at hof
      cases hof
  · intro _ _ _ h
    cases h

/-- What is declared or used below a node comes before a name that is declared after the node. -/
theorem before_declares_end (hpoint : s.point = s.path) (hc : c.parent? = some s)
    (hm : m ∈ c.marks) : m.Before (.declares s) := by
  constructor
  · intro p q hp hq
    obtain ⟨t, ht, -, htp⟩ := prefix_of_place hm hp
    obtain ⟨a, rfl⟩ := (path_prefix_of_mem_subsites ht).trans htp
    rw [← Option.some.inj hq, hpoint, path_of_parent? hc, List.append_assoc]
    exact Path.endsBefore_append s.path (by simp)
  · intro _ _ _ h
    cases h

/-- A name that is declared after a part comes before what is declared or used in later parts. -/
theorem declares_before (hpoint : s.point = c.path) (hc : c.parent? = some s)
    (hc' : c'.parent? = some s) (hlt : c.before.length < c'.before.length) (hm' : m' ∈ c'.marks) :
    (Mark.declares s).Before m' := by
  have hpath := path_of_parent? hc
  have hpath' := path_of_parent? hc'
  constructor
  · intro p q hp hq
    obtain ⟨u, hu, -, huq⟩ := prefix_of_place hm' hq
    obtain ⟨b, rfl⟩ := (path_prefix_of_mem_subsites hu).trans huq
    rw [← Option.some.inj hp, hpoint, hpath, hpath', List.append_assoc]
    exact (Path.precedes_of_lt s.path [] b hlt).endsBefore
  · rintro t u ⟨rfl⟩ rfl hmem
    obtain ⟨_, hu, rfl⟩ := exists_of_mem_marks hm' (by simp)
    have hle := (path_prefix_of_mem_subsites hu).length_le
    have hshort := length_lt_of_mem_scopes hmem
    rw [hpath', List.length_append] at hle
    omega

/-- Nothing below the specifiers of a definition is declared in its scope. -/
theorem before_opens (hc : c.parent? = some s) (hscopes : c.scopes = s.scopes)
    (hm : m ∈ c.marks) : m.Before (.opens s) := by
  constructor
  · intro p q _ hq
    cases hq
  · rintro t u rfl ⟨rfl⟩ hmem
    obtain ⟨_, ht, rfl, -⟩ := exists_of_mem_marks hm (by simp)
    obtain ⟨inner, htscopes, hinner⟩ := scopes_of_mem_subsites ht
    rw [htscopes, List.mem_append, hscopes] at hmem
    obtain hmem | hmem := hmem
    · have hle := (hinner _ hmem).length_le
      rw [path_of_parent? hc, List.length_append, List.length_singleton] at hle
      omega
    · exact absurd (length_lt_of_mem_scopes hmem) (Nat.lt_irrefl _)

section

variable (hreg : s.node.Regular) (ih : ∀ c ∈ s.children, c.marks.Pairwise Mark.Before)

include ih

/-- The marks of children in their order are in order. -/
theorem pairwise_flatMap {cs : List Site} (hcs : cs.Sublist s.children) :
    (cs.flatMap marks).Pairwise Mark.Before := by
  refine List.pairwise_flatMap.2 ⟨fun c hc => ih c (hcs.subset hc), ?_⟩
  refine List.Pairwise.imp_of_mem (fun {c c'} hc hc' hlt m hm m' hm' => ?_)
    ((pairwise_children s).sublist hcs)
  exact before_of_lt (mem_children.1 (hcs.subset hc)) (mem_children.1 (hcs.subset hc')) hlt hm hm'

theorem pairwise_marks_of_plain (hreg : s.node.Regular) (hhead : s.hasHead = false) :
    s.marks.Pairwise Mark.Before := by
  have hall := pairwise_flatMap ih (List.Sublist.refl _)
  have hbefore (m : Mark) (hm : m ∈ s.marksBefore) : m = .opens s := by
    unfold marksBefore at hm
    split at hm
    · exact List.mem_singleton.1 hm
    · cases hm
  have hend (m : Mark) (hm : m ∈ s.children.flatMap marks) (m' : Mark) (hm' : m' ∈ s.marksEnd) :
      m.Before m' := by
    obtain ⟨c, hc, hm⟩ := List.mem_flatMap.1 hm
    unfold marksEnd at hm'
    split at hm'
    · rename_i hnode
      rw [List.mem_singleton.1 hm']
      exact before_declares_end (point_of_whole hnode) (mem_children.1 hc) hm
    split at hm'
    · rename_i hname
      have hnone := List.flatMap_eq_nil_iff.1 (flatMap_marks_of_tokens hreg hname rfl) c hc
      simp [hnone] at hm
    split at hm'
    · rw [List.mem_singleton.1 hm']
      exact before_closes m
    · cases hm'
  have hends : s.marksEnd.Pairwise Mark.Before := by
    unfold marksEnd
    split
    · exact List.pairwise_singleton ..
    · split
      · exact List.pairwise_singleton ..
      · split
        · exact List.pairwise_singleton ..
        · exact List.Pairwise.nil
  have hstart : s.marksBefore.Pairwise Mark.Before := by
    unfold marksBefore
    split
    · exact List.pairwise_singleton ..
    · exact List.Pairwise.nil
  rw [marks_of_plain hhead, List.pairwise_append, List.pairwise_append]
  refine ⟨⟨hstart, hall, fun m hm m' _ => ?_⟩, hends, fun m hm m' hm' => ?_⟩
  · rw [hbefore m hm]
    exact opens_before s m'
  · obtain hm | hm := List.mem_append.1 hm
    · rw [hbefore m hm]
      exact opens_before s m'
    · exact hend m hm m' hm'

/-- A name that is declared after the first part of a site comes between the marks of that part and
those of the others. -/
theorem pairwise_head {L R : List Site} {X : Site} (hchildren : s.children = L ++ X :: R)
    (hpoint : s.point = X.path) (hdecl : X.node.isDeclaring = false)
    (hname : X.node.isNode .nameRef = false) :
    (X.marks ++ [Mark.declares s] ++ R.flatMap marks).Pairwise Mark.Before := by
  have hsub : (X :: R).Sublist s.children := by
    rw [hchildren]
    exact List.sublist_append_right L (X :: R)
  have hX := mem_children.1 (hsub.subset List.mem_cons_self)
  have hall := pairwise_flatMap ih hsub
  have hlt := (List.pairwise_cons.1 ((pairwise_children s).sublist hsub)).1
  rw [List.flatMap_cons, List.pairwise_append] at hall
  obtain ⟨hXmarks, hRmarks, hcross⟩ := hall
  rw [List.pairwise_append, List.pairwise_append]
  refine ⟨⟨hXmarks, List.pairwise_singleton .., fun m hm m' hm' => ?_⟩, hRmarks,
    fun m hm m' hm' => ?_⟩
  · rw [List.mem_singleton.1 hm']
    exact before_declares hdecl hname hpoint hm
  · obtain hm | hm := List.mem_append.1 hm
    · exact hcross m hm m' hm'
    · obtain ⟨c, hc, hm'⟩ := List.mem_flatMap.1 hm'
      rw [List.mem_singleton.1 hm]
      have hcmem := mem_children.1 (hsub.subset (List.mem_cons_of_mem X hc))
      exact declares_before hpoint hX hcmem (hlt c hc) hm'

include hreg

theorem pairwise_marks_of_initDeclarator (hmember : s.node.isNode .initDeclarator = true) :
    s.marks.Pairwise Mark.Before := by
  obtain ⟨L, X, R, hchildren, -, hX, -, hpoint, hmarks⟩ := marks_of_initDeclarator hreg hmember
  obtain ⟨start, children, hnode⟩ := Placed.exists_of_isNode hX
  rw [hmarks]
  exact pairwise_head ih hchildren hpoint (isDeclaring_of_isNode hX)
    (by simp [hnode, Placed.isNode_eq_decide])

theorem pairwise_marks_of_functionDef (hdef : s.node.isNode .functionDef = true) :
    s.marks.Pairwise Mark.Before := by
  obtain ⟨L, X, R, hchildren, -, hX, -, hpoint, hmarks⟩ := marks_of_functionDef hreg hdef
  obtain ⟨start, children, hnode⟩ := Placed.exists_of_isNode hX
  have hXmem := mem_children.1 (show X ∈ s.children by simp [hchildren])
  have hXscopes : X.scopes = s.scopes := by simp [scopes_of_parent? hXmem, hdef, hX]
  have hhead := pairwise_head ih hchildren hpoint (isDeclaring_of_isNode hX)
    (by simp [hnode, Placed.isNode_eq_decide])
  have hself : (Mark.declares s).Before (.opens s) := by
    refine ⟨fun _ _ _ hq => (by cases hq), ?_⟩
    rintro t u ⟨rfl⟩ ⟨rfl⟩ hmem
    exact absurd (length_lt_of_mem_scopes hmem) (Nat.lt_irrefl _)
  -- the start of the scope comes in after the name, and its end after all
  have hsplit : s.marks =
      (X.marks ++ [.declares s]) ++ .opens s :: (R.flatMap marks ++ [.closes]) := by simp [hmarks]
  rw [List.pairwise_append] at hhead
  obtain ⟨hfirst, hrest, hcross⟩ := hhead
  have hlast : (R.flatMap marks ++ [Mark.closes]).Pairwise Mark.Before := by
    refine List.pairwise_append.2 ⟨hrest, List.pairwise_singleton .., fun m _ m' hm' => ?_⟩
    rw [List.mem_singleton.1 hm']
    exact before_closes m
  rw [hsplit, List.pairwise_append, List.pairwise_cons]
  refine ⟨hfirst, ⟨fun m _ => opens_before s m, hlast⟩, fun m hm m' hm' => ?_⟩
  · obtain rfl | hm' := List.mem_cons.1 hm'
    · obtain hm | hm := List.mem_append.1 hm
      · exact before_opens hXmem hXscopes hm
      · rw [List.mem_singleton.1 hm]
        exact hself
    · obtain hm' | hm' := List.mem_append.1 hm'
      · exact hcross m hm m' hm'
      · rw [List.mem_singleton.1 hm']
        exact before_closes m

end

/-- **The walk keeps the order of the tree.** -/
theorem pairwise_marks (s : Site) (hreg : s.node.Regular) : s.marks.Pairwise Mark.Before := by
  induction s using Site.induction with
  | h s ih =>
  have ih (c : Site) (hc : c ∈ s.children) : c.marks.Pairwise Mark.Before :=
    ih c (mem_children.1 hc) (regular_of_parent? hreg (mem_children.1 hc))
  cases hdef : s.node.isNode .functionDef with
  | true => exact pairwise_marks_of_functionDef hreg ih hdef
  | false =>
    cases hmember : s.node.isNode .initDeclarator with
    | true => exact pairwise_marks_of_initDeclarator hreg ih hmember
    | false => exact pairwise_marks_of_plain ih hreg (by simp [hasHead, hdef, hmember])

end Site

end Whittle
