import Mathlib.Data.List.Pairwise
import Whittle.Tree.Site

/-!
# Where the parts of a tree lie

* `Placed.Snug`: the parts of a tree follow each other without gap or overlap, and no token is
  empty. Placing a tree gives a snug one.
* `Path`: the way from the root to a site, by places among siblings.
* `Site.subsites`: the sites at or below a site.
* `Placed.pairwise_sites`: of two sites of a snug tree, **the later one lies below the earlier one,
  or it comes after it both in the tree and in the text.**
* `Placed.sites_induction`: what holds at the root and goes from a node to its children holds at
  every site.
-/

namespace Whittle

/-! ### Snug trees -/

namespace Placed

mutual

/-- Whether the parts below a part follow each other without gap or overlap. -/
def Snug : Placed → Prop
  | .token _ t => 0 < t.size
  | .node start _ children => SnugFrom start children

/-- Whether some parts follow each other from a byte on. -/
def SnugFrom (start : Nat) : List Placed → Prop
  | [] => True
  | t :: ts => t.start = start ∧ t.Snug ∧ SnugFrom t.stop ts

end

@[simp] theorem snugFrom_nil {start : Nat} : SnugFrom start [] := by simp [SnugFrom]

@[simp] theorem snugFrom_cons {start : Nat} {t : Placed} {ts : List Placed} :
    SnugFrom start (t :: ts) ↔ t.start = start ∧ t.Snug ∧ SnugFrom t.stop ts := by
  rw [SnugFrom]

@[simp] theorem snug_node {start : Nat} {kind : NodeKind} {children : List Placed} :
    (node start kind children).Snug ↔ SnugFrom start children := by
  rw [Snug]

@[simp] theorem start_node (start : Nat) (kind : NodeKind) (children : List Placed) :
    (node start kind children).start = start := rfl

@[simp] theorem stop_node (start : Nat) (kind : NodeKind) (children : List Placed) :
    (node start kind children).stop = stopAll start children := by
  rw [stop]

@[simp] theorem stop_token (start : Nat) (t : Token) :
    (token start t).stop = start + t.size := by
  rw [stop]

@[simp] theorem stopAll_nil (start : Nat) : stopAll start [] = start := by rw [stopAll]

@[simp] theorem stopAll_cons (start : Nat) (t : Placed) (ts : List Placed) :
    stopAll start (t :: ts) = stopAll t.stop ts := by
  rw [stopAll]

theorem stopAll_append (start : Nat) (ts us : List Placed) :
    stopAll start (ts ++ us) = stopAll (stopAll start ts) us := by
  induction ts generalizing start with
  | nil => simp
  | cons t ts ih => simp [ih]

theorem snugFrom_append {start : Nat} {ts us : List Placed} :
    SnugFrom start (ts ++ us) ↔ SnugFrom start ts ∧ SnugFrom (stopAll start ts) us := by
  induction ts generalizing start with
  | nil => simp
  | cons t ts ih => simp [ih, and_assoc]

mutual

theorem start_le_stop (t : Placed) (h : t.Snug) : t.start ≤ t.stop := by
  cases t with
  | token start t => simp [Placed.start]
  | node start kind children => simpa using le_stopAll children (snug_node.1 h)

theorem le_stopAll {start : Nat} (ts : List Placed) (h : SnugFrom start ts) :
    start ≤ stopAll start ts := by
  cases ts with
  | nil => simp
  | cons t ts =>
    obtain ⟨hstart, ht, hts⟩ := snugFrom_cons.1 h
    have hle := start_le_stop t ht
    have hle' := le_stopAll ts hts
    simp only [stopAll_cons]
    omega

end

/-- Where a part stands among the parts it follows and the parts that follow it. -/
theorem snugFrom_middle {start : Nat} {l r : List Placed} {t : Placed}
    (h : SnugFrom start (l ++ t :: r)) :
    start ≤ t.start ∧ t.Snug ∧ t.stop ≤ stopAll start (l ++ t :: r) := by
  rw [snugFrom_append, snugFrom_cons] at h
  obtain ⟨hl, hstart, ht, hr⟩ := h
  rw [stopAll_append, stopAll_cons]
  exact ⟨hstart ▸ le_stopAll l hl, ht, le_stopAll r hr⟩

theorem snugFrom_mem {start : Nat} {ts : List Placed} {t : Placed} (h : SnugFrom start ts)
    (ht : t ∈ ts) : start ≤ t.start ∧ t.Snug ∧ t.stop ≤ stopAll start ts := by
  obtain ⟨l, r, rfl⟩ := List.append_of_mem ht
  exact snugFrom_middle h

/-- A part ends before those that stand after it start. -/
theorem stop_le_of_snugFrom {start : Nat} {l r : List Placed} {t u : Placed}
    (h : SnugFrom start (l ++ t :: r)) (hu : u ∈ r) : t.stop ≤ u.start := by
  rw [snugFrom_append, snugFrom_cons] at h
  exact (snugFrom_mem h.2.2.2 hu).1

end Placed

namespace Tree

mutual

theorem stop_place (start : Nat) (t : Tree) : (t.place start).stop = start + t.size := by
  cases t with
  | token t => simp [place, size]
  | node kind children => simp [place, size, stopAll_placeAll]

theorem stopAll_placeAll (start : Nat) (ts : List Tree) :
    Placed.stopAll start (placeAll start ts) = start + sizeAll ts := by
  cases ts with
  | nil => simp [placeAll, sizeAll]
  | cons t ts =>
    rw [placeAll, Placed.stopAll_cons, stop_place, stopAll_placeAll, sizeAll, Nat.add_assoc]

end

@[simp] theorem start_place (start : Nat) (t : Tree) : (t.place start).start = start := by
  cases t <;> rfl

theorem placeAll_append (start : Nat) (ts us : List Tree) :
    placeAll start (ts ++ us) = placeAll start ts ++ placeAll (start + sizeAll ts) us := by
  induction ts generalizing start with
  | nil => simp [placeAll, sizeAll]
  | cons t ts ih => simp [placeAll, sizeAll, ih, Nat.add_assoc]

mutual

/-- Placing a tree without empty tokens gives a snug one. -/
theorem snug_place (start : Nat) (t : Tree) (h : ∀ l ∈ t.leaves, 0 < l.size) :
    (t.place start).Snug := by
  cases t with
  | token t => simpa [place, Placed.Snug, leaves] using h
  | node kind children =>
    rw [place, Placed.snug_node]
    exact snugFrom_placeAll start children (by simpa [leaves] using h)

theorem snugFrom_placeAll (start : Nat) (ts : List Tree)
    (h : ∀ l ∈ leavesAll ts, 0 < l.size) : Placed.SnugFrom start (placeAll start ts) := by
  cases ts with
  | nil => simp [placeAll]
  | cons t ts =>
    simp only [leavesAll, List.mem_append] at h
    rw [placeAll, Placed.snugFrom_cons, stop_place]
    exact ⟨start_place start t, snug_place start t fun l hl => h l (.inl hl),
      snugFrom_placeAll _ ts fun l hl => h l (.inr hl)⟩

end

end Tree

/-! ### Paths -/

/-- The way from the root of a tree to a part, by places among siblings. -/
abbrev Path := List Nat

namespace Path

/-- Whether the part at one path ends before the part at another one starts. -/
def Precedes : Path → Path → Prop
  | i :: p, j :: q => i < j ∨ i = j ∧ Precedes p q
  | _, _ => False

/-- Whether the part at one path ends before the part at another one ends: it comes before it or
lies within it. -/
def EndsBefore : Path → Path → Prop
  | i :: p, j :: q => i < j ∨ i = j ∧ EndsBefore p q
  | _ :: _, [] => True
  | [], _ => False

instance decidablePrecedes : (p q : Path) → Decidable (Precedes p q)
  | i :: p, j :: q =>
    have := decidablePrecedes p q
    inferInstanceAs (Decidable (i < j ∨ i = j ∧ Precedes p q))
  | [], _ => .isFalse (by simp [Precedes])
  | _ :: _, [] => .isFalse (by simp [Precedes])

instance decidableEndsBefore : (p q : Path) → Decidable (EndsBefore p q)
  | i :: p, j :: q =>
    have := decidableEndsBefore p q
    inferInstanceAs (Decidable (i < j ∨ i = j ∧ EndsBefore p q))
  | _ :: _, [] => .isTrue trivial
  | [], _ => .isFalse (by simp [EndsBefore])

theorem precedes_of_lt (p a b : Path) {i j : Nat} (h : i < j) :
    Precedes (p ++ i :: a) (p ++ j :: b) := by
  induction p with
  | nil => exact .inl h
  | cons k p ih => exact .inr ⟨rfl, ih⟩

theorem Precedes.endsBefore {p q : Path} (h : Precedes p q) : EndsBefore p q := by
  fun_induction Precedes p q with
  | case1 i p j q ih => exact h.imp id fun ⟨hij, h⟩ => ⟨hij, ih h⟩
  | case2 p q hne => exact h.elim

theorem endsBefore_append (p : Path) {q : Path} (hq : q ≠ []) : EndsBefore (p ++ q) p := by
  induction p with
  | nil => cases q with
    | nil => exact absurd rfl hq
    | cons i q => trivial
  | cons i p ih => exact .inr ⟨rfl, ih⟩

theorem EndsBefore.asymm {p q : Path} (h : EndsBefore p q) : ¬ EndsBefore q p := by
  fun_induction EndsBefore p q with
  | case1 i p j q ih =>
    rintro (h' | ⟨rfl, h'⟩)
    · omega
    · obtain h | ⟨-, h⟩ := h
      · omega
      · exact ih h h'
  | case2 => exact id
  | case3 => exact h.elim

/-- What ends first comes first, unless it lies within the other. -/
theorem EndsBefore.precedes {p q : Path} (h : EndsBefore p q) (hpre : ¬ q <+: p) :
    Precedes p q := by
  fun_induction EndsBefore p q with
  | case1 i p j q ih =>
    refine h.imp id fun ⟨hij, h⟩ => ⟨hij, ih h fun hqp => hpre ?_⟩
    exact List.cons_prefix_cons.2 ⟨hij.symm, hqp⟩
  | case2 => exact absurd (List.nil_prefix) hpre
  | case3 => exact h.elim

/-- A path that precedes another one leads to a different branch. -/
theorem Precedes.not_prefix {p q : Path} (h : Precedes p q) : ¬ p <+: q ∧ ¬ q <+: p := by
  fun_induction Precedes p q with
  | case1 i p j q ih =>
    simp only [List.cons_prefix_cons]
    obtain hlt | ⟨rfl, h⟩ := h
    · omega
    · simpa using ih h
  | case2 => exact h.elim

end Path

/-! ### Sites -/

namespace Placed

/-- Whether a part is a node. -/
def isInner : Placed → Bool
  | .token _ _ => false
  | .node _ _ _ => true

@[simp] theorem isInner_node (start : Nat) (kind : NodeKind) (children : List Placed) :
    (node start kind children).isInner = true := rfl

@[simp] theorem isInner_token (start : Nat) (t : Token) : (token start t).isInner = false := rfl

theorem isInner_of_isNode {t : Placed} {k : NodeKind} (h : t.isNode k = true) :
    t.isInner = true := by
  cases t with
  | token start t => simp [isNode, kind] at h
  | node start kind children => rfl

theorem exists_kind {t : Placed} (h : t.isInner = true) : ∃ k, t.kind = .node k := by
  cases t with
  | token start t => cases h
  | node start k children => exact ⟨k, rfl⟩

theorem not_isNode_of_not_isInner {t : Placed} (k : NodeKind) (h : t.isInner = false) :
    t.isNode k = false := by
  by_contra hne
  rw [isInner_of_isNode (by simpa using hne)] at h
  cases h

end Placed

namespace Site

/-- The way from the root to a site. -/
def path (s : Site) : Path := s.address.reverse

/-- The sites at or below a site. -/
def subsites (s : Site) : List Site := s.node.sitesUnder s.above

variable {s t u : Site}

/-- A site is one step up if its node holds the other and gives it its surroundings. -/
theorem parent?_eq_some : t.parent? = some s ↔
    ∃ start kind l r, s.node = .node start kind (l ++ t.node :: r) ∧
      t.above = ⟨kind, start, l.reverse, r⟩ :: s.above := by
  obtain ⟨node, above⟩ := t
  obtain ⟨node', above'⟩ := s
  cases above with
  | nil => simp [parent?]
  | cons c rest =>
    obtain ⟨kind, start, before, after⟩ := c
    simp only [parent?, Option.some.injEq, mk.injEq, List.cons.injEq, Crumb.mk.injEq]
    constructor
    · rintro ⟨rfl, rfl⟩
      exact ⟨start, kind, before.reverse, after, rfl, by simp⟩
    · rintro ⟨start, kind, l, r, rfl, ⟨rfl, rfl, rfl, rfl⟩, rfl⟩
      simp

theorem parent?_eq_none : s.parent? = none ↔ s.above = [] := by
  obtain ⟨node, above⟩ := s
  cases above <;> simp [parent?]

theorem path_of_parent? (h : t.parent? = some s) : t.path = s.path ++ [t.before.length] := by
  obtain ⟨start, kind, l, r, -, ht⟩ := parent?_eq_some.1 h
  simp [path, address, before, ht]

end Site

namespace Placed

variable {motive : Site → Prop} {above : List Crumb} {start : Nat} {kind : NodeKind}

mutual

theorem sitesUnder_induction
    (hstep : ∀ s c, motive s → c.parent? = some s → c.node.isInner → motive c)
    (above : List Crumb) (t : Placed) (h : t.isInner → motive ⟨t, above⟩) :
    ∀ s ∈ t.sitesUnder above, motive s := by
  cases t with
  | token start t => simp [sitesUnder]
  | node start kind children =>
    intro s hs
    rw [sitesUnder, List.mem_cons] at hs
    obtain rfl | hs := hs
    · exact h rfl
    · exact sitesAmong_induction hstep start kind above [] children (h rfl) s hs

theorem sitesAmong_induction
    (hstep : ∀ s c, motive s → c.parent? = some s → c.node.isInner → motive c)
    (start : Nat) (kind : NodeKind) (above : List Crumb) (before ts : List Placed)
    (h : motive ⟨.node start kind (before.reverse ++ ts), above⟩) :
    ∀ s ∈ sitesAmong start kind above before ts, motive s := by
  cases ts with
  | nil => simp [sitesAmong]
  | cons t ts =>
    intro s hs
    rw [sitesAmong, List.mem_append] at hs
    obtain hs | hs := hs
    · exact sitesUnder_induction hstep _ t (hstep _ ⟨t, _⟩ h rfl) s hs
    · exact sitesAmong_induction hstep start kind above (t :: before) ts (by simpa using h) s hs

end

/-- What holds at the root and goes from a node to its children holds at every site. -/
theorem sites_induction {root : Placed}
    (hstep : ∀ s c, motive s → c.parent? = some s → c.node.isInner → motive c)
    (h : root.isInner → motive ⟨root, []⟩) : ∀ s ∈ root.sites, motive s :=
  sitesUnder_induction hstep [] root h

theorem mem_sitesAmong {before ts : List Placed} {s : Site} :
    s ∈ sitesAmong start kind above before ts ↔
      ∃ l c r, ts = l ++ c :: r ∧
        s ∈ c.sitesUnder (⟨kind, start, l.reverse ++ before, r⟩ :: above) := by
  induction ts generalizing before with
  | nil => simp [sitesAmong]
  | cons t ts ih =>
    rw [sitesAmong, List.mem_append, ih]
    constructor
    · rintro (hs | ⟨l, c, r, rfl, hs⟩)
      · exact ⟨[], t, ts, rfl, hs⟩
      · exact ⟨t :: l, c, r, rfl, by simpa using hs⟩
    · rintro ⟨l, c, r, hts, hs⟩
      cases l with
      | nil =>
        obtain ⟨rfl, rfl⟩ := List.cons.inj hts
        exact .inl hs
      | cons u l =>
        obtain ⟨rfl, rfl⟩ := List.cons.inj hts
        exact .inr ⟨l, c, r, rfl, by simpa using hs⟩

/-- The sites of the nodes below a node are those at or below its children. -/
theorem mem_sitesUnder_node {children : List Placed} {s : Site} :
    s ∈ (node start kind children).sitesUnder above ↔
      s = ⟨node start kind children, above⟩ ∨
        ∃ l c r, children = l ++ c :: r ∧
          s ∈ c.sitesUnder (⟨kind, start, l.reverse, r⟩ :: above) := by
  rw [sitesUnder, List.mem_cons, mem_sitesAmong]
  simp

end Placed

namespace Site

variable {s t u : Site} {root : Placed}

/-- What holds at a site and goes from a node to its children holds at every site below. -/
theorem subsites_induction {motive : Site → Prop}
    (hstep : ∀ s c, motive s → c.parent? = some s → c.node.isInner → motive c)
    (h : s.node.isInner → motive s) : ∀ t ∈ s.subsites, motive t :=
  Placed.sitesUnder_induction hstep s.above s.node h

theorem isInner_of_mem_subsites (h : t ∈ s.subsites) : t.node.isInner = true :=
  subsites_induction (motive := fun t => t.node.isInner = true) (fun _ _ _ _ h => h) id t h

theorem mem_subsites_self (h : s.node.isInner = true) : s ∈ s.subsites := by
  obtain ⟨node, above⟩ := s
  cases node with
  | token start t => simp at h
  | node start kind children => simp [subsites, Placed.sitesUnder]

theorem subsites_subset_of_parent? (h : t.parent? = some s) : t.subsites ⊆ s.subsites := by
  obtain ⟨start, kind, l, r, hs, ht⟩ := parent?_eq_some.1 h
  intro u hu
  rw [subsites, hs, Placed.mem_sitesUnder_node]
  exact .inr ⟨l, t.node, r, rfl, by rwa [subsites, ht] at hu⟩

theorem subsites_subset (h : t ∈ s.subsites) : t.subsites ⊆ s.subsites :=
  subsites_induction (motive := fun t => t.subsites ⊆ s.subsites)
    (fun _ _ hs hc _ => List.Subset.trans (subsites_subset_of_parent? hc) hs)
    (fun _ => List.Subset.refl _) t h

/-- A site at or below another is that one, or at or below one of its children. -/
theorem mem_subsites_iff : u ∈ s.subsites ↔
    (u = s ∧ s.node.isInner = true) ∨ ∃ t : Site, t.parent? = some s ∧ u ∈ t.subsites := by
  constructor
  · intro hu
    obtain ⟨node, above⟩ := s
    cases node with
    | token start t => simp [subsites, Placed.sitesUnder] at hu
    | node start kind children =>
      rw [subsites, Placed.mem_sitesUnder_node] at hu
      obtain rfl | ⟨l, c, r, rfl, hu⟩ := hu
      · exact .inl ⟨rfl, rfl⟩
      · exact .inr ⟨⟨c, _⟩, parent?_eq_some.2 ⟨start, kind, l, r, rfl, rfl⟩, hu⟩
  · rintro (⟨rfl, h⟩ | ⟨t, ht, hu⟩)
    · exact mem_subsites_self h
    · exact subsites_subset_of_parent? ht hu

theorem isInner_of_subsites (h : t ∈ s.subsites) : s.node.isInner = true := by
  obtain ⟨node, above⟩ := s
  cases node with
  | token start u => cases h
  | node start kind children => rfl

theorem mem_subsites_of_parent? (h : t.parent? = some s) (hinner : t.node.isInner = true) :
    t ∈ s.subsites :=
  subsites_subset_of_parent? h (mem_subsites_self hinner)

/-- What stands around a site and is not the site itself stands around its parent. -/
theorem parent_mem_subsites (h : t ∈ u.subsites) (hne : t ≠ u) (hparent : t.parent? = some s) :
    s ∈ u.subsites := by
  have key : ∀ t ∈ u.subsites, t ∈ u.subsites ∧ (t = u ∨ ∃ s ∈ u.subsites, t.parent? = some s) := by
    refine subsites_induction (fun v c hv hc hinner => ⟨?_, .inr ⟨v, hv.1, hc⟩⟩)
      fun hinner => ⟨mem_subsites_self hinner, .inl rfl⟩
    exact subsites_subset hv.1 (mem_subsites_of_parent? hc hinner)
  obtain rfl | ⟨s', hs', hparent'⟩ := (key t h).2
  · exact absurd rfl hne
  · rw [hparent] at hparent'
    exact Option.some.inj hparent' ▸ hs'

theorem path_prefix_of_mem_subsites (h : t ∈ s.subsites) : s.path <+: t.path :=
  subsites_induction (motive := fun t => s.path <+: t.path)
    (fun u c hu hc _ => by
      rw [path_of_parent? hc]
      exact hu.trans (List.prefix_append _ _))
    (fun _ => List.prefix_rfl) t h

/-- Of the sites at or below a site, only that one has its path. -/
theorem eq_of_mem_subsites_of_path_eq (h : t ∈ s.subsites) (hpath : t.path = s.path) : t = s := by
  obtain ⟨rfl, -⟩ | ⟨u, hu, htu⟩ := mem_subsites_iff.1 h
  · rfl
  · have hle := (path_prefix_of_mem_subsites htu).length_le
    rw [path_of_parent? hu, hpath, List.length_append, List.length_singleton] at hle
    omega

theorem mem_sites_of_mem_subsites (hs : s ∈ root.sites) (h : t ∈ s.subsites) : t ∈ root.sites :=
  subsites_subset (s := ⟨root, []⟩) hs h

/-- The site one step up is a site of the same tree. -/
theorem mem_sites_of_parent? (ht : t ∈ root.sites) (h : t.parent? = some s) : s ∈ root.sites := by
  have key : ∀ u ∈ root.sites, u ∈ root.sites ∧ ∀ s, u.parent? = some s → s ∈ root.sites := by
    refine Placed.sites_induction (fun u c hu hc hinner => ⟨?_, fun s hs => ?_⟩) ?_
    · exact mem_sites_of_mem_subsites hu.1 (subsites_subset_of_parent? hc (mem_subsites_self hinner))
    · rw [hc, Option.some.injEq] at hs
      exact hs ▸ hu.1
    · intro hroot
      exact ⟨mem_subsites_self hroot, by simp [parent?]⟩
  exact (key t ht).2 s h

/-- The part of the text a site covers holds those of the sites below. -/
theorem span_of_mem_subsites (hsnug : s.node.Snug) (h : t ∈ s.subsites) :
    t.node.Snug ∧ s.node.start ≤ t.node.start ∧ t.node.stop ≤ s.node.stop := by
  refine subsites_induction (motive := fun t => t.node.Snug ∧ s.node.start ≤ t.node.start ∧
    t.node.stop ≤ s.node.stop) (fun u c hu hc _ => ?_) (fun _ => ⟨hsnug, by simp⟩) t h
  obtain ⟨start, kind, l, r, hnode, -⟩ := parent?_eq_some.1 hc
  rw [hnode, Placed.snug_node, Placed.start_node, Placed.stop_node] at hu
  obtain ⟨hstart, hc, hstop⟩ := Placed.snugFrom_middle hu.1
  exact ⟨hc, by omega, by omega⟩

/-- The sites of some children of a node, tokens included. -/
def childrenFrom (start : Nat) (kind : NodeKind) (above : List Crumb) (before : List Placed) :
    List Placed → List Site
  | [] => []
  | t :: ts => ⟨t, ⟨kind, start, before, ts⟩ :: above⟩ ::
      childrenFrom start kind above (t :: before) ts

/-- The sites one step down from a site, tokens included. -/
def children (s : Site) : List Site :=
  match s.node with
  | .token _ _ => []
  | .node start kind children => childrenFrom start kind s.above [] children

theorem mem_childrenFrom {start : Nat} {kind : NodeKind} {above : List Crumb}
    {before ts : List Placed} :
    t ∈ childrenFrom start kind above before ts ↔
      ∃ l r, ts = l ++ t.node :: r ∧ t.above = ⟨kind, start, l.reverse ++ before, r⟩ :: above := by
  induction ts generalizing before with
  | nil => simp [childrenFrom]
  | cons u ts ih =>
    rw [childrenFrom, List.mem_cons, ih]
    constructor
    · rintro (rfl | ⟨l, r, rfl, habove⟩)
      · exact ⟨[], ts, rfl, rfl⟩
      · exact ⟨u :: l, r, rfl, by simp [habove]⟩
    · rintro ⟨l, r, hts, habove⟩
      cases l with
      | nil =>
        obtain ⟨rfl, rfl⟩ := List.cons.inj hts
        obtain ⟨node, crumbs⟩ := t
        exact .inl (by simpa using habove)
      | cons v l =>
        obtain ⟨rfl, rfl⟩ := List.cons.inj hts
        exact .inr ⟨l, r, rfl, by simp [habove]⟩

theorem mem_children : t ∈ s.children ↔ t.parent? = some s := by
  obtain ⟨node, above⟩ := s
  rw [parent?_eq_some]
  cases node with
  | token start u => simp [children]
  | node start kind ts =>
    rw [children, mem_childrenFrom]
    constructor
    · rintro ⟨l, r, rfl, habove⟩
      exact ⟨start, kind, l, r, rfl, by simpa using habove⟩
    · rintro ⟨_, _, l, r, ⟨⟩, habove⟩
      exact ⟨l, r, rfl, by simpa using habove⟩

theorem map_node_childrenFrom (start : Nat) (kind : NodeKind) (above : List Crumb)
    (before ts : List Placed) : (childrenFrom start kind above before ts).map (·.node) = ts := by
  induction ts generalizing before with
  | nil => rfl
  | cons t ts ih => simp [childrenFrom, ih]

theorem map_node_children (s : Site) : s.children.map (·.node) = s.node.children := by
  obtain ⟨node, above⟩ := s
  cases node with
  | token start t => rfl
  | node start kind ts => exact map_node_childrenFrom ..

theorem pairwise_childrenFrom (start : Nat) (kind : NodeKind) (above : List Crumb)
    (before ts : List Placed) :
    (childrenFrom start kind above before ts).Pairwise
      fun c c' => c.before.length < c'.before.length := by
  induction ts generalizing before with
  | nil => simp [childrenFrom]
  | cons t ts ih =>
    rw [childrenFrom, List.pairwise_cons]
    refine ⟨fun c hc => ?_, ih _⟩
    obtain ⟨l, r, -, habove⟩ := mem_childrenFrom.1 hc
    simp only [Site.before, habove, List.head?_cons, Option.map_some, Option.getD_some,
      List.length_append, List.length_reverse, List.length_cons]
    omega

/-- The children of a site have the places among siblings in turn. -/
theorem pairwise_children (s : Site) :
    s.children.Pairwise fun c c' => c.before.length < c'.before.length := by
  obtain ⟨node, above⟩ := s
  cases node with
  | token start t => simp [children]
  | node start kind ts => exact pairwise_childrenFrom ..

theorem before_of_childrenFrom {start : Nat} {kind : NodeKind} {above : List Crumb}
    {before ts : List Placed} {L R : List Site}
    (h : childrenFrom start kind above before ts = L ++ t :: R) :
    t.before.length = before.length + L.length := by
  induction ts generalizing before L with
  | nil => simp [childrenFrom] at h
  | cons u ts ih =>
    rw [childrenFrom] at h
    cases L with
    | nil =>
      obtain ⟨rfl, -⟩ := List.cons.inj h
      rfl
    | cons v L =>
      have hrest := ih (List.cons.inj h).2
      simp only [List.length_cons] at hrest ⊢
      omega

/-- The path of a child ends with its place. -/
theorem path_of_children {L R : List Site} (h : s.children = L ++ t :: R) :
    t.path = s.path ++ [L.length] := by
  have hparent : t.parent? = some s := mem_children.1 (by simp [h])
  obtain ⟨node, above⟩ := s
  cases node with
  | token start u => simp [children] at h
  | node start kind ts =>
    have hlength := before_of_childrenFrom h
    rw [path_of_parent? hparent, hlength, List.length_nil, Nat.zero_add]

/-- A child of a node is the node of a child of the site. -/
theorem children_split {l r : List Placed} {x : Placed} (h : s.node.children = l ++ x :: r) :
    ∃ L X R, s.children = L ++ X :: R ∧ L.map (·.node) = l ∧ X.node = x ∧
      R.map (·.node) = r := by
  rw [← map_node_children] at h
  obtain ⟨L, R', hchildren, hL, hR'⟩ := List.map_eq_append_iff.1 h
  obtain ⟨X, R, rfl, hX, hR⟩ := List.map_eq_cons_iff.1 hR'
  exact ⟨L, X, R, hchildren, hL, hX, hR⟩

theorem sizeOf_lt_of_parent? (h : t.parent? = some s) : sizeOf t.node < sizeOf s.node := by
  obtain ⟨start, kind, l, r, hnode, -⟩ := parent?_eq_some.1 h
  have hlt : sizeOf t.node < sizeOf (l ++ t.node :: r) := List.sizeOf_lt_of_mem (by simp)
  rw [hnode, Placed.node.sizeOf_spec]
  omega

/-- What goes from the children of a site to the site holds of all sites. -/
theorem induction {motive : Site → Prop}
    (h : ∀ s, (∀ c, c.parent? = some s → motive c) → motive s) (s : Site) : motive s := by
  induction hsize : sizeOf s.node using Nat.strongRecOn generalizing s with
  | _ size ih =>
  subst hsize
  exact h s fun c hc => ih _ (sizeOf_lt_of_parent? hc) c rfl

/-- Whether a site comes before another, in the tree and in the text. -/
def Before (s t : Site) : Prop := s.node.stop ≤ t.node.start ∧ s.path.Precedes t.path

/-- Siblings come one before the other, and so does all that lies below them. -/
theorem before_of_siblings {above : List Crumb} {c c' : Crumb} {p q : Placed}
    (hs : s ∈ p.sitesUnder (c :: above)) (ht : t ∈ q.sitesUnder (c' :: above))
    (hp : p.Snug) (hq : q.Snug) (hpq : p.stop ≤ q.start)
    (hlt : c.before.length < c'.before.length) : s.Before t := by
  have hstop : s.node.stop ≤ p.stop := (span_of_mem_subsites (s := ⟨p, c :: above⟩) hp hs).2.2
  have hstart : q.start ≤ t.node.start :=
    (span_of_mem_subsites (s := ⟨q, c' :: above⟩) hq ht).2.1
  refine ⟨by omega, ?_⟩
  obtain ⟨a, ha⟩ := path_prefix_of_mem_subsites (s := ⟨p, c :: above⟩) hs
  obtain ⟨b, hb⟩ := path_prefix_of_mem_subsites (s := ⟨q, c' :: above⟩) ht
  have hprec := Path.precedes_of_lt (above.map (·.before.length)).reverse a b hlt
  simp only [path, address, List.map_cons, List.reverse_cons, List.append_assoc,
    List.singleton_append] at ha hb
  rwa [ha, hb] at hprec

end Site

namespace Placed

/-- Whether a site lies below another one or comes after it. -/
def Follows (t s : Site) : Prop := (t ∈ s.subsites ∧ t.path ≠ s.path) ∨ s.Before t

mutual

theorem pairwise_sitesUnder (above : List Crumb) (t : Placed) (h : t.Snug) :
    (t.sitesUnder above).Pairwise fun s u => Follows u s := by
  cases t with
  | token start t => simp [sitesUnder]
  | node start kind children =>
    rw [sitesUnder, List.pairwise_cons]
    refine ⟨fun u hu => .inl ⟨?_, fun hpath => ?_⟩, pairwise_sitesAmong _ _ _ _ _ (snug_node.1 h)⟩
    · exact List.mem_cons_of_mem _ hu
    · obtain ⟨l, c, r, -, hu⟩ := mem_sitesAmong.1 hu
      have hle := (Site.path_prefix_of_mem_subsites (s := ⟨c, _⟩) hu).length_le
      rw [hpath] at hle
      simp only [Site.path, Site.address, List.length_reverse, List.length_map,
        List.length_cons] at hle
      omega

theorem pairwise_sitesAmong (start : Nat) (kind : NodeKind) (above : List Crumb)
    (before ts : List Placed) {first : Nat} (h : SnugFrom first ts) :
    (sitesAmong start kind above before ts).Pairwise fun s u => Follows u s := by
  cases ts with
  | nil => simp [sitesAmong]
  | cons t ts =>
    obtain ⟨-, ht, hts⟩ := snugFrom_cons.1 h
    rw [sitesAmong, List.pairwise_append]
    refine ⟨pairwise_sitesUnder _ t ht, pairwise_sitesAmong _ _ _ _ ts hts, fun s hs u hu => ?_⟩
    obtain ⟨l, c, r, rfl, hc⟩ := mem_sitesAmong.1 hu
    obtain ⟨hstart, hsnug, -⟩ := snugFrom_middle hts
    exact .inr (Site.before_of_siblings hs hc ht hsnug hstart (by simp; omega))

end

/-- **Of two sites of a snug tree, the later one lies below the earlier one, or it comes after it
both in the tree and in the text.** -/
theorem pairwise_sites {root : Placed} (h : root.Snug) :
    root.sites.Pairwise fun s u => Follows u s :=
  pairwise_sitesUnder [] root h

/-- What follows a site stands at another place. -/
theorem Follows.path_ne {s t : Site} (h : Follows t s) : s.path ≠ t.path := by
  intro heq
  rcases h with ⟨-, hne⟩ | ⟨-, hprec⟩
  · exact hne heq.symm
  · rw [heq] at hprec
    exact hprec.endsBefore.asymm hprec.endsBefore

theorem follows_total {root : Placed} (h : root.Snug) {s t : Site} (hs : s ∈ root.sites)
    (ht : t ∈ root.sites) : s = t ∨ Follows t s ∨ Follows s t := by
  have horder := pairwise_sites h
  exact List.Pairwise.forall_of_forall_of_flip
    (R := fun s t => s = t ∨ Follows t s ∨ Follows s t) (fun _ _ => .inl rfl)
    (horder.imp fun h => .inr (.inl h)) (horder.imp fun h => .inr (.inr h)) hs ht

/-- The path tells the sites of a tree apart. -/
theorem eq_of_path_eq {root : Placed} (h : root.Snug) {s t : Site} (hs : s ∈ root.sites)
    (ht : t ∈ root.sites) (hpath : s.path = t.path) : s = t := by
  obtain rfl | hfollows | hfollows := follows_total h hs ht
  · rfl
  · exact absurd hpath hfollows.path_ne
  · exact absurd hpath.symm hfollows.path_ne

/-- The sites whose paths go on from that of a site lie at or below it. -/
theorem mem_subsites_of_prefix {root : Placed} (h : root.Snug) {s t : Site} (hs : s ∈ root.sites)
    (ht : t ∈ root.sites) (hpath : s.path <+: t.path) : t ∈ s.subsites := by
  obtain rfl | (⟨hmem, -⟩ | ⟨-, hprec⟩) | (⟨hmem, hne⟩ | ⟨-, hprec⟩) := follows_total h hs ht
  · exact Site.mem_subsites_self (Site.isInner_of_mem_subsites (s := ⟨root, []⟩) hs)
  · exact hmem
  · exact absurd hpath hprec.not_prefix.1
  · exact absurd (hpath.eq_of_length_le (Site.path_prefix_of_mem_subsites hmem).length_le) hne
  · exact absurd hpath hprec.not_prefix.2

end Placed

end Whittle
