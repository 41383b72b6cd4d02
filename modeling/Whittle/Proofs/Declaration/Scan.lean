import Mathlib.Data.List.Nodup
import Whittle.Proofs.Removal.Safety

/-!
# The inventory as one walk

A walk goes into every node and later out of it. It opens a group where it goes into one and closes
it where it goes out, so the group that it has opened last and not closed yet is the one that a
member belongs to.

* `Visit`: one step of a walk. `Placed.visits`: the whole walk over a tree.
* `Scan.step`: what one step does to the lists of declarations and groups and to the open groups.
* `Scan.reached`: where a walk stands, said without the walk.
* `Scan.foldl_visitsUnder`: **a walk over a subtree leaves just the groups open that were open
  before it.**
* `Inventory.scan_eq`: the walk comes to the inventory.
-/

namespace Whittle

/-- One step of a walk over a tree. -/
inductive Visit where
  | enters (s : Site)
  | leaves (s : Site)

namespace Placed

mutual

/-- The walk over a part with known surroundings. -/
def visitsUnder (above : List Crumb) : Placed → List Visit
  | .token _ _ => []
  | .node start kind children =>
    .enters ⟨.node start kind children, above⟩ ::
      (visitsAmong start kind above [] children ++ [.leaves ⟨.node start kind children, above⟩])

/-- The walk over the parts of a node, from some of its children on. -/
def visitsAmong (start : Nat) (kind : NodeKind) (above : List Crumb) (before : List Placed) :
    List Placed → List Visit
  | [] => []
  | t :: ts =>
    t.visitsUnder (⟨kind, start, before, ts⟩ :: above) ++
      visitsAmong start kind above (t :: before) ts

end

/-- The walk over a tree. -/
def visits (root : Placed) : List Visit := root.visitsUnder []

end Placed

/-- How far a walk has come. -/
structure Scan where
  declarations : List Declaration
  groups : List DeclGroup
  /-- The numbers of the groups that the walk is in, the innermost first. -/
  opened : List Nat

namespace Scan

/-- Write down what a site declares, and that it is a member of a group. -/
def push (used : List Span) (w : Scan) (site : Site) (group : Option Nat)
    (found : Leaf × DeclKind × Storage) : Scan :=
  let id := w.declarations.length
  { w with
    declarations := w.declarations ++
      [{ id, name := found.1, kind := found.2.1, storage := found.2.2, site, group
         isReferenced := used.contains found.1.span }]
    groups := match group with
      | some n => w.groups.modify n fun g => { g with members := g.members ++ [id] }
      | none => w.groups }

/-- Go into a node. -/
def enter (used : List Span) (w : Scan) (s : Site) : Scan :=
  if s.node.isNode .declGroup then
    { w with groups := w.groups ++ [⟨s, []⟩], opened := w.groups.length :: w.opened }
  else
    match s.declares? with
    | some found =>
      w.push used s (if s.node.isNode .initDeclarator then w.opened.head? else none) found
    | none => w

/-- Go out of a node. -/
def leave (w : Scan) (s : Site) : Scan :=
  if s.node.isNode .declGroup then { w with opened := w.opened.tail } else w

/-- One step of the walk. -/
def step (used : List Span) (w : Scan) : Visit → Scan
  | .enters s => w.enter used s
  | .leaves s => w.leave s

end Scan

namespace Inventory

/-- The inventory that a walk comes to. -/
def scan (root : Placed) : Inventory :=
  let w := root.visits.foldl (Scan.step (references root)) ⟨[], [], []⟩
  ⟨w.declarations, w.groups⟩

/-! ### Declarations and groups of some of the sites -/

section

variable {groups : List (List Nat)} {used : List Span} {sites : List Site} {s : Site}
  {ds : List Declaration}

/-- The declaration that a site makes when some have been made before it. -/
def declarationAt (groups : List (List Nat)) (used : List Span) (id : Nat) (s : Site)
    (found : Leaf × DeclKind × Storage) : Declaration :=
  { id, name := found.1, kind := found.2.1, storage := found.2.2, site := s
    group := if s.node.isNode .initDeclarator then groups.idxOf? s.address.tail else none
    isReferenced := used.contains found.1.span }

theorem length_declarationsAt :
    (declarationsAt groups used sites).length = (found sites).length := by
  simp [declarationsAt, found]

theorem declarationsAt_concat_none (h : s.declares? = none) :
    declarationsAt groups used (sites ++ [s]) = declarationsAt groups used sites := by
  simp [declarationsAt, List.filterMap_append, h]

theorem declarationsAt_concat_some {x : Leaf × DeclKind × Storage} (h : s.declares? = some x) :
    declarationsAt groups used (sites ++ [s]) =
      declarationsAt groups used sites ++
        [declarationAt groups used (declarationsAt groups used sites).length s x] := by
  rw [length_declarationsAt]
  simp [declarationsAt, List.filterMap_append, h, List.zipIdx_append, found, declarationAt]

/-- The groups among some sites, with the declarations that have their numbers. -/
def groupsAt (sites : List Site) (ds : List Declaration) : List DeclGroup :=
  (sites.filter (·.node.isNode .declGroup)).zipIdx.map fun (site, number) =>
    ⟨site, (ds.filter (·.group = some number)).map (·.id)⟩

theorem length_groupsAt :
    (groupsAt sites ds).length = (sites.filter (·.node.isNode .declGroup)).length := by
  simp [groupsAt]

theorem groupsAt_concat_group (h : s.node.isNode .declGroup = true)
    (hds : ∀ d ∈ ds, d.group ≠ some (groupsAt sites ds).length) :
    groupsAt (sites ++ [s]) ds = groupsAt sites ds ++ [⟨s, []⟩] := by
  have hempty : ds.filter (·.group = some (groupsAt sites ds).length) = [] := by
    simpa [List.filter_eq_nil_iff] using hds
  rw [length_groupsAt] at hempty
  simp [groupsAt, List.filter_append, h, List.zipIdx_append, hempty]

theorem groupsAt_concat_other (h : s.node.isNode .declGroup = false) :
    groupsAt (sites ++ [s]) ds = groupsAt sites ds := by
  simp [groupsAt, List.filter_append, h]

/-- A further declaration is a member of the group that has its number. -/
theorem groupsAt_concat_declaration (d : Declaration) :
    groupsAt sites (ds ++ [d]) = match d.group with
      | some n => (groupsAt sites ds).modify n fun g => { g with members := g.members ++ [d.id] }
      | none => groupsAt sites ds := by
  cases hgroup : d.group with
  | none => simp [groupsAt, List.filter_append, hgroup]
  | some n =>
    refine List.ext_getElem? fun k => ?_
    simp only [groupsAt, List.getElem?_modify, List.getElem?_map, List.getElem?_zipIdx,
      Option.map_map, Nat.zero_add]
    cases (sites.filter (·.node.isNode .declGroup))[k]? with
    | none => rfl
    | some g =>
      by_cases hk : n = k
      · simp [hk, List.filter_append, hgroup]
      · simp [hk, List.filter_append, hgroup]

end

section

variable {t : Text} {done rest : List Site} {s g : Site}

/-- A node does not come after those that stand in it. -/
theorem not_follows_of_parent? (h : s.parent? = some g) : ¬ Placed.Follows g s := by
  have hpath := Site.path_of_parent? h
  rintro (⟨hmem, -⟩ | ⟨-, hprec⟩)
  · have hle := (Site.path_prefix_of_mem_subsites hmem).length_le
    rw [hpath, List.length_append, List.length_singleton] at hle
    omega
  · exact hprec.not_prefix.2 (hpath ▸ List.prefix_append ..)

/-- The number of a group: how many groups come before it. -/
def groupNumber (root : Placed) (g : Site) : Nat :=
  ((groupSites root).map (·.address)).idxOf g.address

theorem groupSites_append (h : (parse t).root.sites = done ++ rest) :
    groupSites (parse t).root =
      done.filter (·.node.isNode .declGroup) ++ rest.filter (·.node.isNode .declGroup) := by
  rw [groupSites, h, List.filter_append]

theorem address_ne_of_follows {u : Site} (h : Placed.Follows u s) : s.address ≠ u.address :=
  fun heq => h.path_ne (by rw [Site.path, Site.path, heq])

/-- The sites that a walk has still to enter come after those it has entered. -/
theorem follows_of_append (h : (parse t).root.sites = done ++ rest) {u : Site} (hs : s ∈ done)
    (hu : u ∈ rest) : Placed.Follows u s := by
  have horder := Placed.pairwise_sites (regular_parse t).snug
  rw [h, List.pairwise_append] at horder
  exact horder.2.2 s hs u hu

theorem groupNumber_eq (h : (parse t).root.sites = done ++ s :: rest)
    (hs : s.node.isNode .declGroup = true) :
    groupNumber (parse t).root s = (done.filter (·.node.isNode .declGroup)).length := by
  have hnew : s.address ∉ (done.filter (·.node.isNode .declGroup)).map (·.address) := by
    intro hmem
    obtain ⟨u, hu, haddress⟩ := List.mem_map.1 hmem
    exact address_ne_of_follows
      (follows_of_append h (List.mem_filter.1 hu).1 List.mem_cons_self) haddress
  rw [groupNumber, groupSites_append h, List.map_append, List.idxOf_append_of_notMem hnew]
  simp [hs]

theorem idxOf?_groupSites {root : Placed} (h : g ∈ groupSites root) :
    ((groupSites root).map (·.address)).idxOf? g.address = some (groupNumber root g) := by
  have hmem : g.address ∈ (groupSites root).map (·.address) := List.mem_map.2 ⟨g, h, rfl⟩
  obtain ⟨n, hn⟩ := Option.isSome_iff_exists.1 (List.isSome_idxOf?.2 hmem)
  rw [groupNumber, List.idxOf_eq_getD_idxOf?, hn, Option.getD_some]

/-- The group that a member has the number of has been entered before it. -/
theorem group_lt (h : (parse t).root.sites = done ++ rest) {d : Declaration} {n : Nat}
    (hd : d ∈ declarationsAt ((groupSites (parse t).root).map (·.address))
      (references (parse t).root) done) (hn : d.group = some n) :
    n < (done.filter (·.node.isNode .declGroup)).length := by
  obtain ⟨⟨⟨s, x⟩, id⟩, hmem, rfl⟩ := List.mem_map.1 hd
  have hs : s ∈ done := (mem_found.1 (List.fst_mem_of_mem_zipIdx hmem)).1
  dsimp only at hn
  split at hn
  · rename_i hmember
    have hmem : s ∈ (parse t).root.sites := h ▸ List.mem_append_left _ hs
    obtain ⟨g, hg, hparent, haddress⟩ := exists_groupSite hmem hmember
    have hgdone : g ∈ done.filter (·.node.isNode .declGroup) := by
      rw [groupSites_append h, List.mem_append] at hg
      refine hg.resolve_right fun hrest => ?_
      exact not_follows_of_parent? hparent
        (follows_of_append h hs (List.mem_filter.1 hrest).1)
    rw [haddress, groupSites_append h, List.map_append, List.idxOf?_eq_some_iff] at hn
    obtain ⟨_, -, hfirst⟩ := hn
    obtain ⟨k, hk, hget⟩ := List.getElem_of_mem hgdone
    -- the group stands at a place among those entered, and no earlier place has its address
    by_contra hle
    refine hfirst k (by omega) ?_
    rw [List.getElem_append_left (by simpa using hk), List.getElem_map, hget]
  · cases hn

end

end Inventory

namespace Scan

variable {t : Text} {done rest opened : List Site} {s : Site}

open Inventory

/-- Where a walk stands that has entered some sites and is in some groups. -/
def reached (root : Placed) (done opened : List Site) : Scan :=
  let declarations :=
    declarationsAt ((groupSites root).map (·.address)) (references root) done
  { declarations
    groups := groupsAt done declarations
    opened := opened.map (groupNumber root) }

/-- The groups that a walk is in after it went into a site. -/
def openedAt (opened : List Site) (s : Site) : List Site :=
  if s.node.isNode .declGroup then s :: opened else opened

theorem declares?_of_declGroup (h : s.node.isNode .declGroup = true) : s.declares? = none := by
  simp only [Placed.isNode, decide_eq_true_eq] at h
  simp [Site.declares?, h]

/-- **Going into a node.** A member has to stand in the group that was opened last. -/
theorem enter_reached (h : (parse t).root.sites = done ++ s :: rest)
    (hmember : s.node.isNode .initDeclarator = true → opened.head? = s.parent?) :
    (reached (parse t).root done opened).enter (references (parse t).root) s =
      reached (parse t).root (done ++ [s]) (openedAt opened s) := by
  unfold enter openedAt
  by_cases hgroup : s.node.isNode .declGroup = true
  · -- a new group has no members yet
    rw [if_pos hgroup, if_pos hgroup]
    have hnone := declares?_of_declGroup hgroup
    simp only [reached, declarationsAt_concat_none hnone, List.map_cons, groupNumber_eq h hgroup,
      length_groupsAt]
    rw [groupsAt_concat_group hgroup]
    intro d hd hn
    have hlt := group_lt h hd hn
    rw [length_groupsAt] at hlt
    omega
  · rw [if_neg hgroup, if_neg hgroup]
    rw [Bool.not_eq_true] at hgroup
    cases hdeclares : s.declares? with
    | none =>
      simp only [reached, declarationsAt_concat_none hdeclares, groupsAt_concat_other hgroup]
    | some found =>
      -- the innermost open group is the one whose address the declaration looks up
      have hnumber : (if s.node.isNode .initDeclarator then
            (reached (parse t).root done opened).opened.head? else none) =
          if s.node.isNode .initDeclarator then
            ((groupSites (parse t).root).map (·.address)).idxOf? s.address.tail else none := by
        split
        · rename_i hs
          have hsites : s ∈ (parse t).root.sites := by simp [h]
          obtain ⟨g, hg, hparent, haddress⟩ := exists_groupSite hsites hs
          rw [haddress, idxOf?_groupSites hg, reached, List.head?_map, hmember hs, hparent,
            Option.map_some]
        · rfl
      simp only [hnumber, push]
      simp only [reached, declarationsAt_concat_some hdeclares, groupsAt_concat_other hgroup]
      rw [groupsAt_concat_declaration]
      rfl

/-- **Going out of a node** that the walk is in. -/
theorem leave_reached (root : Placed) (done opened : List Site) (s : Site) :
    (reached root done (openedAt opened s)).leave s = reached root done opened := by
  unfold leave openedAt
  split <;> simp [reached]

/-- Whether a site that stands in a group stands in the one that was opened last. -/
def Filed (opened : List Site) (s : Site) : Prop :=
  s.parentKind? = some .declGroup → opened.head? = s.parent?

theorem Filed.head? (hs : s ∈ (parse t).root.sites) (h : Filed opened s)
    (hmember : s.node.isNode .initDeclarator = true) : opened.head? = s.parent? := by
  obtain ⟨g, hparent, hgroup⟩ := exists_group hs hmember
  obtain ⟨start, kind, l, r, hnode, habove⟩ := Site.parent?_eq_some.1 hparent
  refine h ?_
  rw [hnode, Placed.isNode_node] at hgroup
  simp [Site.parentKind?, habove, hgroup]

mutual

/-- **A walk over a subtree** enters its sites and leaves just the groups open that were open
before it, however many it opens in between. -/
theorem foldl_visitsUnder (above : List Crumb) (p : Placed) (done rest opened : List Site)
    (h : (parse t).root.sites = done ++ p.sitesUnder above ++ rest)
    (hopened : Filed opened ⟨p, above⟩) :
    (p.visitsUnder above).foldl (step (references (parse t).root))
        (reached (parse t).root done opened) =
      reached (parse t).root (done ++ p.sitesUnder above) opened := by
  cases p with
  | token start u => simp [Placed.visitsUnder, Placed.sitesUnder]
  | node start kind children =>
    rw [Placed.visitsUnder, List.foldl_cons, List.foldl_append, List.foldl_cons, List.foldl_nil]
    rw [Placed.sitesUnder] at h ⊢
    have hsites : (⟨.node start kind children, above⟩ : Site) ∈ (parse t).root.sites := by simp [h]
    have henter := enter_reached
      (h.trans (by rw [List.append_assoc, List.cons_append])) (hopened.head? hsites)
    have hchildren := foldl_visitsAmong start kind above [] children
      (done ++ [⟨.node start kind children, above⟩]) rest
      (openedAt opened ⟨.node start kind children, above⟩) (by simpa using h)
      (fun hkind => by simp [openedAt, hkind])
    simp only [step]
    rw [henter, hchildren, leave_reached, List.append_assoc, List.singleton_append]

/-- A walk over some of the parts of a node. If the node is a group, it is the innermost one before
each of the parts. -/
theorem foldl_visitsAmong (start : Nat) (kind : NodeKind) (above : List Crumb)
    (before ts : List Placed) (done rest opened : List Site)
    (h : (parse t).root.sites = done ++ Placed.sitesAmong start kind above before ts ++ rest)
    (hopened : kind = .declGroup →
      opened.head? = some ⟨.node start kind (before.reverse ++ ts), above⟩) :
    (Placed.visitsAmong start kind above before ts).foldl (step (references (parse t).root))
        (reached (parse t).root done opened) =
      reached (parse t).root (done ++ Placed.sitesAmong start kind above before ts) opened := by
  cases ts with
  | nil => simp [Placed.visitsAmong, Placed.sitesAmong]
  | cons p ts =>
    rw [Placed.visitsAmong, List.foldl_append]
    rw [Placed.sitesAmong] at h ⊢
    have hfiled : Filed opened ⟨p, ⟨kind, start, before, ts⟩ :: above⟩ := fun hkind =>
      hopened (by simpa [Site.parentKind?] using hkind)
    rw [foldl_visitsUnder _ p done _ opened (by rw [h, List.append_assoc, List.append_assoc,
        List.append_assoc]) hfiled,
      foldl_visitsAmong start kind above (p :: before) ts _ rest opened (by simpa using h)
        (fun hkind => by simpa using hopened hkind), List.append_assoc]

end

end Scan

namespace Inventory

/-- The walk comes to the inventory. -/
theorem scan_eq (t : Text) : scan (parse t).root = ofTree (parse t).root := by
  have hrun := Scan.foldl_visitsUnder (t := t) [] (parse t).root [] [] [] (by simp [Placed.sites])
    (by simp [Scan.Filed, Site.parentKind?])
  rw [List.nil_append] at hrun
  unfold scan
  rw [Placed.visits, show (⟨[], [], []⟩ : Scan) = Scan.reached (parse t).root [] [] from rfl, hrun]
  rfl

/-! ### What the lists of an inventory say -/

/-- The parts of a group that are members with a name, in the order of the text. -/
def namedMembers (g : Site) : List Site :=
  g.children.filter fun c => c.node.isNode .initDeclarator && c.node.childDeclaredName?.isSome

/-- Whether the declarations and groups of an inventory are those of a tree, and refer to each
other as they stand in it. -/
structure Exact (root : Placed) (i : Inventory) : Prop where
  /-- There is one group for each node that is one. -/
  groups : i.groups.map (·.site) = root.sites.filter (·.node.isNode .declGroup)
  /-- There is one declaration for each node that makes one. -/
  declarations : i.declarations.map (·.site) = root.sites.filter (·.declares?.isSome)
  /-- Declarations are numbered in turn. -/
  id : ∀ (k : Nat) (d : Declaration), i.declarations[k]? = some d → d.id = k
  /-- Just the members of groups have one. -/
  group_isSome : ∀ d ∈ i.declarations,
    d.group.isSome = true ↔ d.site.node.isNode .initDeclarator = true
  /-- It is the one that the member stands in. -/
  parent : ∀ d ∈ i.declarations, ∀ n, d.group = some n →
    ∃ g, i.groups[n]? = some g ∧ d.site.parent? = some g.site
  /-- A group lists the declarations of its named members, each once and in their order. -/
  members : ∀ g ∈ i.groups,
    g.members.map (fun id => (i.declaration? id).map (·.site)) = (namedMembers g.site).map some
  sorted : ∀ g ∈ i.groups, g.members.Pairwise (· < ·)
  /-- No declaration is listed by two groups. -/
  unique : ∀ (n n' : Nat) (g g' : DeclGroup), i.groups[n]? = some g → i.groups[n']? = some g' →
    ∀ id ∈ g.members, id ∈ g'.members → n = n'

section

variable {t : Text} {d : Declaration} {s g : Site} {n : Nat}

theorem isSome_declares?_of_member (h : s.node.isNode .initDeclarator = true) :
    s.declares?.isSome = s.node.childDeclaredName?.isSome := by
  simp only [Placed.isNode, decide_eq_true_eq] at h
  simp only [Site.declares?, h, Placed.childDeclaredName?, Option.bind_eq_bind]
  cases s.node.child? .declarator with
  | none => rfl
  | some x => cases hname : x.declaredName? <;> simp [hname]

theorem nodup_groupSites (t : Text) : (groupSites (parse t).root).Nodup := by
  refine ((Placed.pairwise_sites (regular_parse t).snug).sublist List.filter_sublist).imp ?_
  rintro s u hfollows rfl
  exact hfollows.path_ne rfl

/-- What has a group is a member. -/
theorem isMember_of_group {root : Placed} (hd : d ∈ (ofTree root).declarations)
    (hn : d.group = some n) : d.site.node.isNode .initDeclarator = true := by
  rw [group_eq hd] at hn
  by_contra hmember
  simp [hmember] at hn

/-- A member has the number of the group that it stands in. -/
theorem group_of_parent? (hd : d ∈ (ofTree (parse t).root).declarations)
    (hmember : d.site.node.isNode .initDeclarator = true) (hparent : d.site.parent? = some g) :
    d.group = some (groupNumber (parse t).root g) ∧
      (groupSites (parse t).root)[groupNumber (parse t).root g]? = some g := by
  obtain ⟨g', hg, hparent', haddress⟩ := exists_groupSite (mem_declarations hd).1 hmember
  obtain rfl : g' = g := Option.some.inj (hparent'.symm.trans hparent)
  have hgroup : d.group = some (groupNumber (parse t).root g') := by
    rw [group_eq hd, if_pos hmember, haddress, idxOf?_groupSites hg]
  obtain ⟨hlt, -⟩ := List.idxOf?_eq_some_iff.1 (idxOf?_groupSites hg)
  rw [List.length_map] at hlt
  obtain ⟨-, hparent''⟩ := parent?_of_group hd hgroup (List.getElem?_eq_getElem hlt)
  rw [hparent', Option.some.injEq] at hparent''
  exact ⟨hgroup, by rw [List.getElem?_eq_getElem hlt, ← hparent'']⟩

/-- The declarations with the number of a group are those of its named members. -/
theorem sites_of_group (hg : (groupSites (parse t).root)[n]? = some g) :
    ((ofTree (parse t).root).declarations.filter (·.group = some n)).map (·.site) =
      namedMembers g := by
  have hof {d : Declaration}
      (hd : d ∈ (ofTree (parse t).root).declarations.filter (·.group = some n)) :
      d ∈ (ofTree (parse t).root).declarations ∧
        d.site.node.isNode .initDeclarator = true ∧ d.site.parent? = some g := by
    obtain ⟨hd, hn⟩ := List.mem_filter.1 hd
    exact ⟨hd, parent?_of_group hd (by simpa using hn) hg⟩
  -- both sides stand in the order of the siblings, so it is enough that they have the same sites
  have hleft : (((ofTree (parse t).root).declarations.filter (·.group = some n)).map
      (·.site)).Pairwise fun c c' => c.before.length < c'.before.length := by
    rw [List.pairwise_map]
    have horder := (pairwise_declarations (regular_parse t).snug).sublist
      (List.filter_sublist (p := fun d => d.group = some n))
    exact horder.imp_of_mem fun hd hd' hfollows =>
      Site.lt_of_follows (hof hd).2.2 (hof hd').2.2 hfollows
  have hright : (namedMembers g).Pairwise fun c c' => c.before.length < c'.before.length :=
    (Site.pairwise_children g).sublist List.filter_sublist
  have hnodup {cs : List Site}
      (h : cs.Pairwise fun c c' => c.before.length < c'.before.length) : cs.Nodup :=
    h.imp fun hlt heq => by rw [heq] at hlt; omega
  have hperm : (((ofTree (parse t).root).declarations.filter (·.group = some n)).map
      (·.site)).Perm (namedMembers g) := by
    refine (List.perm_ext_iff_of_nodup (hnodup hleft) (hnodup hright)).2 fun s => ?_
    simp only [namedMembers, List.mem_map, List.mem_filter, Site.mem_children, Bool.and_eq_true,
      decide_eq_true_eq]
    constructor
    · rintro ⟨d, ⟨hd, hn⟩, rfl⟩
      obtain ⟨hmember, hparent⟩ := parent?_of_group hd hn hg
      have hdeclares := (mem_declarations hd).2.1
      rw [← isSome_declares?_of_member hmember, hdeclares]
      exact ⟨hparent, hmember, rfl⟩
    · rintro ⟨hparent, hmember, hnamed⟩
      rw [← isSome_declares?_of_member hmember] at hnamed
      obtain ⟨⟨name, kind, storage⟩, hdeclares⟩ := Option.isSome_iff_exists.1 hnamed
      have hgroup : g ∈ (parse t).root.sites :=
        (List.mem_filter.1 (List.mem_of_getElem? hg)).1
      have hs := Site.mem_sites_of_mem_subsites hgroup
        (Site.mem_subsites_of_parent? hparent (Placed.isInner_of_isNode hmember))
      obtain ⟨d, hd, rfl, -⟩ := exists_mem_declarations hs hdeclares
      obtain ⟨hnumber, hget⟩ := group_of_parent? hd hmember hparent
      obtain ⟨hlt, hgetn⟩ := List.getElem?_eq_some_iff.1 hg
      obtain ⟨hlt', hget⟩ := List.getElem?_eq_some_iff.1 hget
      have heq := (nodup_groupSites t).getElem_inj_iff.1 (hgetn.trans hget.symm)
      exact ⟨d, ⟨hd, by rw [hnumber, heq]⟩, rfl⟩
  exact hperm.eq_of_pairwise (fun c c' _ _ hlt hlt' => by omega) hleft hright

theorem of_getElem?_groups {g : DeclGroup} (h : (ofTree (parse t).root).groups[n]? = some g) :
    (groupSites (parse t).root)[n]? = some g.site ∧
      g.members = ((ofTree (parse t).root).declarations.filter (·.group = some n)).map (·.id) := by
  rw [getElem?_groups, Option.map_eq_some_iff] at h
  obtain ⟨s, hs, rfl⟩ := h
  exact ⟨hs, rfl⟩

theorem id_of_getElem? {root : Placed} (h : (ofTree root).declarations[n]? = some d) :
    d.id = n := by
  simp only [ofTree, declarationsAt, List.getElem?_map, List.getElem?_zipIdx, Option.map_map,
    Option.map_eq_some_iff] at h
  obtain ⟨x, -, rfl⟩ := h
  exact Nat.zero_add n

/-- A member is listed by the group whose number it has, and by no other. -/
theorem group_of_mem_members {g : DeclGroup}
    (hg : (ofTree (parse t).root).groups[n]? = some g) {id : Nat} (hid : id ∈ g.members) :
    ∃ d, (ofTree (parse t).root).declaration? id = some d ∧ d.group = some n := by
  rw [(of_getElem?_groups hg).2] at hid
  obtain ⟨d, hd, rfl⟩ := List.mem_map.1 hid
  obtain ⟨hd, hn⟩ := List.mem_filter.1 hd
  exact ⟨d, declaration?_id hd, by simpa using hn⟩

end

/-- **The index of declarations and groups is exact**: the walk that keeps the open groups on a
stack comes to an inventory whose groups are all groups of the tree in their order, where a
declaration is numbered by its place, has a group just if it is a member of one, and then the one
that it stands in, and where each group lists just its own named members, whatever is nested in
it. -/
theorem scan_exact (t : Text) :
    scan (parse t).root = ofTree (parse t).root ∧ (scan (parse t).root).Exact (parse t).root := by
  refine ⟨scan_eq t, ?_⟩
  rw [scan_eq]
  refine ⟨?_, sites_declarations _, fun k d => id_of_getElem?, fun d hd => ⟨fun hgroup => ?_,
    fun hmember => ?_⟩, fun d hd n hn => ?_, fun g hg => ?_, fun g hg => ?_,
    fun n n' g g' hg hg' id hid hid' => ?_⟩
  · refine List.ext_getElem? fun n => ?_
    rw [List.getElem?_map, getElem?_groups, groupSites]
    cases ((parse t).root.sites.filter (·.node.isNode .declGroup))[n]? <;> rfl
  · obtain ⟨n, hn⟩ := Option.isSome_iff_exists.1 hgroup
    exact isMember_of_group hd hn
  · obtain ⟨g, -, hparent, -⟩ := exists_groupSite (mem_declarations hd).1 hmember
    rw [(group_of_parent? hd hmember hparent).1]
    rfl
  · have hmember := isMember_of_group hd hn
    obtain ⟨g, -, hparent, -⟩ := exists_groupSite (mem_declarations hd).1 hmember
    obtain ⟨hnumber, hget⟩ := group_of_parent? hd hmember hparent
    obtain rfl : n = groupNumber (parse t).root g := Option.some.inj (hn.symm.trans hnumber)
    rw [getElem?_groups, hget]
    exact ⟨_, rfl, hparent⟩
  · obtain ⟨n, hn⟩ := List.mem_iff_getElem?.1 hg
    obtain ⟨hsite, hmembers⟩ := of_getElem?_groups hn
    rw [hmembers, ← sites_of_group hsite, List.map_map, List.map_map]
    refine List.map_congr_left fun d hd => ?_
    simp [declaration?_id (List.mem_filter.1 hd).1]
  · obtain ⟨n, hn⟩ := List.mem_iff_getElem?.1 hg
    rw [(of_getElem?_groups hn).2]
    exact List.pairwise_map.2 ((pairwise_id (parse t).root).sublist List.filter_sublist)
  · obtain ⟨d, hd, hn⟩ := group_of_mem_members hg hid
    obtain ⟨d', hd', hn'⟩ := group_of_mem_members hg' hid'
    obtain rfl := Option.some.inj (hd.symm.trans hd')
    exact Option.some.inj (hn.symm.trans hn')

end Inventory

end Whittle
