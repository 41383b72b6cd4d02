import Mathlib.Data.List.Induction
import Whittle.Proofs.Name.Order
import Whittle.Proofs.Tree.Leaves

/-!
# Resolution and the scoping rule

Resolution follows the walk over a tree with a stack of scopes. This module shows that it comes to
what `Sees` says of the sites.

* `Resolution.ofMarks`: what is known after some of the marks of the walk.
* `meaning`: what a name means in a scope after some marks.
* `find?_ofMarks`: **the stack holds, scope by scope, what the names mean.**
* `find?_eq_some_iff`: **a use of a name finds the declaration that it sees.**
* `isReferenced_iff_sees`: **a variable counts as used just if the scoping rule says so.**
-/

namespace Whittle

/-! ### Following marks -/

namespace Resolution

/-- Follow the events of a mark. -/
def mark (r : Resolution) (m : Mark) : Resolution := m.events.foldl step r

/-- Follow marks from the start of a program. -/
def ofMarks (ms : List Mark) : Resolution := ms.foldl mark initial

theorem ofMarks_concat (ms : List Mark) (m : Mark) : ofMarks (ms ++ [m]) = (ofMarks ms).mark m := by
  rw [ofMarks, List.foldl_append]
  rfl

theorem ofEvents_flatMap (ms : List Mark) : ofEvents (ms.flatMap Mark.events) = ofMarks ms := by
  rw [ofEvents, List.foldl_flatMap]
  rfl

variable {r : Resolution} {s : Site} {name : Leaf} {entity : Entity}

theorem mark_opens (r : Resolution) (s : Site) :
    r.mark (.opens s) = { r with scopes := .empty s.scopeKind :: r.scopes } := rfl

theorem mark_closes (r : Resolution) : r.mark .closes = { r with scopes := r.scopes.tail } := rfl

theorem mark_declares (r : Resolution) (s : Site) :
    r.mark (.declares s) = match s.entity? with
      | none => r
      | some (name, entity) => r.declare name entity := by
  cases h : s.entity? <;> simp [mark, Mark.events, h, step]

theorem mark_uses (r : Resolution) (s : Site) :
    r.mark (.uses s) = match s.node.firstToken? with
      | none => r
      | some name => r.use name.text := by
  cases h : s.node.firstToken? <;> simp [mark, Mark.events, h, step]

theorem scopes_use (r : Resolution) (name : Text) : (r.use name).scopes = r.scopes := by
  unfold use
  split <;> rfl

/-- What holds in the end and not at the start came about at some mark. -/
theorem ofMarks_iff {P : Resolution → Prop} {Q : Resolution → Mark → Prop} (hinitial : ¬ P initial)
    (hstep : ∀ r m, P (r.mark m) ↔ P r ∨ Q r m) (ms : List Mark) :
    P (ofMarks ms) ↔ ∃ before m after, ms = before ++ m :: after ∧ Q (ofMarks before) m := by
  induction ms using List.reverseRecOn with
  | nil => simp [ofMarks, hinitial]
  | append_singleton ms m ih =>
    rw [ofMarks_concat, hstep, ih]
    constructor
    · rintro (⟨before, m', after, rfl, hQ⟩ | hQ)
      · exact ⟨before, m', after ++ [m], by simp, hQ⟩
      · exact ⟨ms, m, [], rfl, hQ⟩
    · rintro ⟨before, m', after, heq, hQ⟩
      rcases List.eq_nil_or_concat after with rfl | ⟨after, last, rfl⟩
      · obtain ⟨rfl, hlast⟩ := List.append_inj' heq rfl
        obtain rfl := List.singleton_inj.1 hlast
        exact .inr hQ
      · rw [List.concat_eq_append, ← List.cons_append, ← List.append_assoc] at heq
        obtain ⟨rfl, -⟩ := List.append_inj' heq rfl
        exact .inl ⟨before, m', after, rfl, hQ⟩

end Resolution

/-! ### What names mean -/

/-- What a mark makes a name mean in a scope. -/
def Mark.binds (σ : Path) (name : Text) : Mark → Option Entity
  | .declares s =>
    if s.scopes.head? = some σ then (s.entity?.filter (·.1.text = name)).map (·.2) else none
  | _ => none

/-- What a name means in a scope after some marks. -/
def meaning (ms : List Mark) (name : Text) (σ : Path) : Option Entity :=
  ms.reverse.findSome? (Mark.binds σ name)

section

variable {ms : List Mark} {m : Mark} {σs τs : List Path} {σ : Path} {name : Text}

theorem meaning_concat : meaning (ms ++ [m]) name σ = (m.binds σ name).or (meaning ms name σ) := by
  rw [meaning, List.reverse_append]
  cases h : m.binds σ name <;> simp [meaning, h]

theorem meaning_eq_none_iff : meaning ms name σ = none ↔ ∀ m ∈ ms, m.binds σ name = none := by
  simp [meaning]

/-- A name means the last thing that it was made to mean. -/
theorem exists_of_meaning {e : Entity} (h : meaning ms name σ = some e) :
    ∃ before m after, ms = before ++ m :: after ∧ m.binds σ name = some e ∧
      ∀ m' ∈ after, m'.binds σ name = none := by
  obtain ⟨after, m, before, heq, hm, hafter⟩ := List.findSome?_eq_some_iff.1 h
  refine ⟨before.reverse, m, after.reverse, ?_, hm, by simpa using hafter⟩
  rw [List.reverse_eq_iff.1 heq]
  simp

theorem exists_of_binds {e : Entity} (h : m.binds σ name = some e) :
    ∃ s leaf, m = .declares s ∧ s.scopes.head? = some σ ∧ s.entity? = some (leaf, e) ∧
      leaf.text = name := by
  cases m with
  | declares s =>
    rw [Mark.binds] at h
    split at h
    · rename_i hσ
      rw [Option.map_eq_some_iff] at h
      obtain ⟨⟨leaf, e'⟩, hfilter, rfl⟩ := h
      rw [Option.filter_eq_some_iff] at hfilter
      exact ⟨s, leaf, rfl, hσ, hfilter.1, by simpa using hfilter.2⟩
    · cases h
  | opens _ | closes | uses _ => cases h

theorem binds_declares {s : Site} {leaf : Leaf} {e : Entity} (hσ : s.scopes.head? = some σ)
    (h : s.entity? = some (leaf, e)) (hname : leaf.text = name) :
    (Mark.declares s).binds σ name = some e := by
  simp [Mark.binds, hσ, h, hname]

/-- The stack of scopes holds what a name means in each of the open ones. -/
def Resolution.Holds (r : Resolution) (name : Text) (ms : List Mark) (σs : List Path) : Prop :=
  r.scopes.map (·.find? name) = σs.map (meaning ms name)

namespace Resolution.Holds

variable {r : Resolution}

theorem concat_of_binds (h : r.Holds name ms σs) (hm : ∀ σ ∈ σs, m.binds σ name = none) :
    r.Holds name (ms ++ [m]) σs := by
  rw [Holds, h]
  refine List.map_congr_left fun σ hσ => ?_
  rw [meaning_concat, hm σ hσ, Option.none_or]

/-- A new scope is empty, and nothing was declared in it before. -/
theorem opens {s : Site} (h : r.Holds name ms σs) (hbefore : ∀ m ∈ ms, m.Before (.opens s)) :
    (r.mark (.opens s)).Holds name (ms ++ [.opens s]) (s.path :: σs) := by
  have hnew : meaning ms name s.path = none := by
    refine meaning_eq_none_iff.2 fun m hm => ?_
    by_contra hne
    obtain ⟨e, he⟩ := Option.ne_none_iff_exists'.1 hne
    obtain ⟨t, leaf, rfl, hσ, -, -⟩ := exists_of_binds he
    exact (hbefore _ hm).scope t s rfl rfl (List.mem_of_mem_head? hσ)
  have hrest := h.concat_of_binds (m := .opens s) fun _ _ => rfl
  rw [Holds, Resolution.mark_opens, List.map_cons, List.map_cons, hrest, meaning_concat, hnew]
  rfl

theorem closes (h : r.Holds name ms σs) :
    (r.mark .closes).Holds name (ms ++ [.closes]) σs.tail := by
  have hrest := h.concat_of_binds (m := .closes) fun _ _ => rfl
  rw [Holds, Resolution.mark_closes, List.map_tail, hrest, List.map_tail]

/-- A name is declared in the innermost scope and in no other one. -/
theorem declares {s : Site} (h : r.Holds name ms s.scopes) :
    (r.mark (.declares s)).Holds name (ms ++ [.declares s]) s.scopes := by
  rw [Resolution.mark_declares]
  cases hentity : s.entity? with
  | none => exact h.concat_of_binds fun σ _ => by simp [Mark.binds, hentity]
  | some x =>
    obtain ⟨leaf, e⟩ := x
    have hpairwise := s.pairwise_scopes
    rw [Holds] at h ⊢
    cases hscopes : s.scopes with
    | nil =>
      rw [hscopes, List.map_nil, List.map_eq_nil_iff] at h
      simp [Resolution.declare, h]
    | cons σ σs =>
      rw [hscopes, List.map_cons, List.map_eq_cons_iff] at h
      obtain ⟨top, below, hr, htop, hbelow⟩ := h
      rw [hscopes, List.pairwise_cons] at hpairwise
      have hothers : below.map (·.find? name) = σs.map (meaning (ms ++ [.declares s]) name) := by
        rw [hbelow]
        refine List.map_congr_left fun τ hτ => ?_
        have hne : σ ≠ τ := by
          rintro rfl
          exact absurd (hpairwise.1 σ hτ) (Nat.lt_irrefl _)
        rw [meaning_concat]
        simp [Mark.binds, hscopes, hne]
      have hfirst : (top.declare leaf.text e).find? name =
          meaning (ms ++ [.declares s]) name σ := by
        rw [meaning_concat, ← htop]
        by_cases hname : leaf.text = name
        · rw [binds_declares (by simp [hscopes]) hentity hname]
          simp [Scope.declare, Scope.find?, hname]
        · have hname' : (name == leaf.text) = false := by simpa using Ne.symm hname
          simp [Mark.binds, hscopes, hentity, Scope.declare, Scope.find?, List.lookup_cons, hname,
            hname', Option.filter]
      simp only [Resolution.declare, hr, List.map_cons, hfirst, hothers]

theorem uses {s : Site} (h : r.Holds name ms σs) :
    (r.mark (.uses s)).Holds name (ms ++ [.uses s]) σs := by
  have hscopes : (r.mark (.uses s)).scopes = r.scopes := by
    rw [Resolution.mark_uses]
    split
    · rfl
    · exact Resolution.scopes_use ..
  rw [Holds, hscopes]
  exact h.concat_of_binds fun _ _ => rfl

/-- One mark keeps the stack in step with the tree. -/
theorem mark (h : r.Holds name ms σs) (hfits : m.Fits σs) (hbefore : ∀ m' ∈ ms, m'.Before m) :
    (r.mark m).Holds name (ms ++ [m]) (m.move σs) := by
  cases m with
  | opens s => exact h.opens hbefore
  | closes => exact h.closes
  | declares s =>
    obtain rfl : σs = s.scopes := hfits
    exact h.declares
  | uses s => exact h.uses

end Resolution.Holds

/-- **The stack holds, scope by scope, what the names mean.** -/
theorem find?_ofMarks (hscoped : Scoped [] ms σs) (horder : ms.Pairwise Mark.Before) (name : Text) :
    (Resolution.ofMarks ms).Holds name ms σs := by
  induction ms using List.reverseRecOn generalizing σs with
  | nil =>
    cases hscoped
    rfl
  | append_singleton ms m ih =>
    obtain ⟨τs, hms, hm⟩ := hscoped.split
    obtain ⟨hbefore, -, hlast⟩ := List.pairwise_append.1 horder
    cases hm with
    | cons hfits hend =>
      cases hend
      rw [Resolution.ofMarks_concat]
      exact (ih hms hbefore).mark hfits fun m' hm' => hlast m' hm' m List.mem_cons_self

end

/-! ### What a use finds -/

namespace Declaration

/-- What the name of a declaration stands for. -/
def entity (d : Declaration) : Entity :=
  if d.kind = .var then .var d.name.span d.site.linkage else .other

theorem entity_eq_var {d : Declaration} {span : Span} {linkage : Bool} :
    d.entity = .var span linkage ↔
      d.kind = .var ∧ d.name.span = span ∧ d.site.linkage = linkage := by
  unfold entity
  split
  · simp [*]
  · simp [*]

end Declaration

section

variable {t : Text} {d : Declaration} {s r : Site}

/-- What the walk over a text does. -/
def Text.marks (t : Text) : List Mark := (Site.mk (parse t).root []).marks

theorem Text.scoped_marks (t : Text) : Scoped [] t.marks [] :=
  Site.scoped_marks ⟨_, []⟩ (regular_parse t)

theorem Text.pairwise_marks (t : Text) : t.marks.Pairwise Mark.Before :=
  Site.pairwise_marks ⟨_, []⟩ (regular_parse t)

theorem events_parse (t : Text) : (parse t).root.events = t.marks.flatMap Mark.events := by
  have hmem : Site.mk (parse t).root [] ∈ (parse t).root.sites := Site.mem_subsites_self rfl
  exact Site.eventsIn_eq _ hmem

theorem references_parse (t : Text) :
    references (parse t).root = (Resolution.ofMarks t.marks).references := by
  rw [references, events_parse, Resolution.ofEvents_flatMap]

theorem Inventory.entity?_of_mem (hd : d ∈ (Inventory.ofTree (parse t).root).declarations) :
    d.site.entity? = some (d.name, d.entity) := by
  rw [Site.entity?, (Inventory.mem_declarations hd).2.1]
  rfl

/-- What a mark declares is in the inventory. -/
theorem exists_declaration {leaf : Leaf} {e : Entity} (hmark : .declares s ∈ t.marks)
    (hentity : s.entity? = some (leaf, e)) :
    ∃ d ∈ (Inventory.ofTree (parse t).root).declarations,
      d.site = s ∧ d.name = leaf ∧ d.entity = e := by
  obtain ⟨_, hs, rfl, -⟩ := Site.exists_of_mem_marks hmark (by simp)
  have hsome := hentity
  rw [Site.entity?, Option.map_eq_some_iff] at hsome
  obtain ⟨⟨name, kind, storage⟩, hdeclares, -⟩ := hsome
  obtain ⟨d, hd, rfl, -, -, -⟩ := Inventory.exists_mem_declarations hs hdeclares
  rw [Inventory.entity?_of_mem hd, Option.some.injEq, Prod.mk.injEq] at hentity
  exact ⟨d, hd, rfl, hentity.1, hentity.2⟩

theorem Inventory.declares_mem_marks (hd : d ∈ (Inventory.ofTree (parse t).root).declarations) :
    .declares d.site ∈ t.marks := by
  obtain ⟨hs, hdeclares, -⟩ := Inventory.mem_declarations hd
  exact Site.declares_mem_marks hs
    (Placed.regular_of_mem_subsites (s := ⟨_, []⟩) (regular_parse t) hs)
    (Site.isDeclaring_of_declares? hdeclares)

/-- Whatever declares a name stands in the file. -/
theorem Site.scopes_ne_nil (hs : s ∈ (parse t).root.sites) (hdecl : s.node.isDeclaring = true) :
    s.scopes ≠ [] := by
  have key : ∀ s ∈ (Site.mk (parse t).root []).subsites,
      s = ⟨(parse t).root, []⟩ ∨ s.scopes ≠ [] := by
    refine Site.subsites_induction (fun u c hu hc _ => .inr ?_) (fun _ => .inl rfl)
    rw [Site.scopes_of_parent? hc]
    obtain rfl | hu := hu
    · exact List.cons_ne_nil _ _
    · split
      · exact List.cons_ne_nil _ _
      · exact hu
  refine (key s hs).resolve_left ?_
  rintro rfl
  cases hdecl

/-- The scope that a name belongs to is the innermost one around its site. -/
theorem Inventory.head?_scopes (hd : d ∈ (Inventory.ofTree (parse t).root).declarations) :
    d.site.scopes.head? = some d.scope := by
  obtain ⟨hs, hdeclares, -⟩ := Inventory.mem_declarations hd
  have hne := Site.scopes_ne_nil hs (Site.isDeclaring_of_declares? hdeclares)
  obtain ⟨σ, σs, hscopes⟩ := List.exists_cons_of_ne_nil hne
  simp [Declaration.scope, hscopes]

/-- The part after which a name is declared is no use of a name. -/
theorem Site.exists_point (hs : s ∈ (parse t).root.sites) (hdecl : s.node.isDeclaring = true) :
    ∃ p ∈ (parse t).root.sites, p.path = s.point ∧ p.node.isNode .nameRef = false := by
  have hreg := Placed.regular_of_mem_subsites (s := ⟨_, []⟩) (regular_parse t) hs
  have hpart {k part : NodeKind} (hk : s.node.isNode k = true)
      (hpart : k = .functionDef ∧ part = .specifiers ∨ k = .initDeclarator ∧ part = .declarator) :
      ∃ p ∈ (parse t).root.sites, p.path = s.point ∧ p.node.isNode .nameRef = false := by
    obtain ⟨L, X, R, hchildren, -, hX, -, hpoint⟩ := Site.exists_head hreg hk hpart
    have hparent := Site.mem_children.1 (show X ∈ s.children by simp [hchildren])
    have hmem := Site.mem_sites_of_mem_subsites hs
      (Site.mem_subsites_of_parent? hparent (Placed.isInner_of_isNode hX))
    refine ⟨X, hmem, hpoint.symm, ?_⟩
    obtain ⟨start, children, hnode⟩ := Placed.exists_of_isNode hX
    obtain ⟨-, rfl⟩ | ⟨-, rfl⟩ := hpart
    · simp [hnode, Placed.isNode_eq_decide]
    · simp [hnode, Placed.isNode_eq_decide]
  obtain hdef | hmember | hother := Site.isNode_of_isDeclaring hdecl
  · exact hpart hdef (.inl ⟨rfl, rfl⟩)
  · exact hpart hmember (.inr ⟨rfl, rfl⟩)
  · refine ⟨s, hs, (Site.point_of_whole hother).symm, ?_⟩
    by_contra hname
    rw [Site.isDeclaring_of_isNode (by simpa using hname)] at hdecl
    cases hdecl

section

variable {before after : List Mark} {name : Text}

/-- What is declared before a use in the walk is declared before it in the tree. -/
theorem declares_mem_iff (hmarks : t.marks = before ++ .uses r :: after)
    (hd : d ∈ (Inventory.ofTree (parse t).root).declarations) :
    .declares d.site ∈ before ↔ d.site.point.Precedes r.path := by
  have horder := t.pairwise_marks
  have hmem := Inventory.declares_mem_marks hd
  obtain ⟨hs, hdeclares, -⟩ := Inventory.mem_declarations hd
  have hr : .uses r ∈ t.marks := by simp [hmarks]
  obtain ⟨_, hr, rfl, hname⟩ := Site.exists_of_mem_marks hr (by simp)
  rw [hmarks, List.pairwise_append, List.pairwise_cons] at horder
  obtain ⟨-, ⟨hafter, -⟩, hbefore⟩ := horder
  constructor
  · intro hin
    have hends := (hbefore _ hin _ List.mem_cons_self).place _ _ rfl rfl
    refine hends.precedes fun hunder => ?_
    -- the declaration would lie within the use, which holds a token only
    obtain ⟨p, hp, hpath, hpname⟩ := Site.exists_point hs (Site.isDeclaring_of_declares? hdeclares)
    rw [← hpath] at hunder
    obtain ⟨rfl, -⟩ | ⟨c, hc, hpc⟩ :=
      Site.mem_subsites_iff.1 (Placed.mem_subsites_of_prefix (regular_parse t).snug hr hp hunder)
    · rw [hname] at hpname
      cases hpname
    · have hreg := Placed.regular_of_mem_subsites (s := ⟨_, []⟩) (regular_parse t) hr
      have hinner := Site.isInner_of_subsites hpc
      rw [Site.not_isInner_of_tokens hreg hname rfl hc] at hinner
      cases hinner
  · intro hprecedes
    rw [hmarks, List.mem_append, List.mem_cons] at hmem
    obtain hmem | hmem | hmem := hmem
    · exact hmem
    · cases hmem
    · have hends := (hafter _ hmem).place _ _ rfl rfl
      exact absurd hends hprecedes.endsBefore.asymm

/-- What a use finds is what the name means in the innermost scope that knows it. -/
theorem find?_of_use (hmarks : t.marks = before ++ .uses r :: after) (name : Text) :
    (Resolution.ofMarks before).find? name = r.scopes.findSome? (meaning before name) := by
  have horder := t.pairwise_marks
  have hscoped := t.scoped_marks
  rw [hmarks] at horder hscoped
  obtain ⟨σs, hbefore, hrest⟩ := hscoped.split
  cases hrest with
  | cons hfits _ =>
    obtain rfl : σs = r.scopes := hfits
    have hholds := find?_ofMarks hbefore (List.pairwise_append.1 horder).1 name
    calc (Resolution.ofMarks before).find? name
        = ((Resolution.ofMarks before).scopes.map (·.find? name)).findSome? id := by
          rw [List.findSome?_map]
          rfl
      _ = r.scopes.findSome? (meaning before name) := by
          rw [hholds, List.findSome?_map]
          rfl

/-- A visible declaration is among the marks before the use and gives its name a meaning. -/
theorem binds_of_visible (hmarks : t.marks = before ++ .uses r :: after)
    (hd : d ∈ (Inventory.ofTree (parse t).root).declarations) (hvisible : d.Visible r) :
    .declares d.site ∈ before ∧
      (Mark.declares d.site).binds d.scope d.name.text = some d.entity :=
  ⟨(declares_mem_iff hmarks hd).2 hvisible.earlier,
    binds_declares (Inventory.head?_scopes hd) (Inventory.entity?_of_mem hd) rfl⟩

theorem Site.Uses.unique {name' : Text} (h : r.Uses name) (h' : r.Uses name') : name' = name :=
  Option.some.inj (h'.2.symm.trans h.2)

/-- A use finds the latest of the visible declarations. -/
theorem exists_sees (hmarks : t.marks = before ++ .uses r :: after) (huses : r.Uses name)
    {e : Entity} (hfind : (Resolution.ofMarks before).find? name = some e) :
    ∃ d, Sees (parse t).root r d ∧ d.entity = e := by
  rw [find?_of_use hmarks] at hfind
  obtain ⟨inner, σ, outer, hscopes, hmeaning, hinner⟩ := List.findSome?_eq_some_iff.1 hfind
  obtain ⟨older, m, newer, rfl, hbinds, hnewer⟩ := exists_of_meaning hmeaning
  obtain ⟨s, leaf, rfl, hσ, hentity, hleaf⟩ := exists_of_binds hbinds
  obtain ⟨d, hd, rfl, rfl, rfl⟩ := exists_declaration (t := t) (by simp [hmarks]) hentity
  have hscope : d.scope = σ := by
    rw [Inventory.head?_scopes hd] at hσ
    exact Option.some.inj hσ
  have hvisible : d.Visible r :=
    ⟨hleaf ▸ huses, by simp [hscope, hscopes], (declares_mem_iff hmarks hd).1 (by simp)⟩
  refine ⟨d, ⟨hd, hvisible, fun d' hd' hvisible' => ?_⟩, rfl⟩
  obtain ⟨hmem, hbinds'⟩ := binds_of_visible hmarks hd' hvisible'
  rw [huses.unique hvisible'.uses] at hbinds'
  have hσ' := hvisible'.scope
  rw [hscopes, List.mem_append, List.mem_cons] at hσ'
  obtain hσ' | hσ' | hσ' := hσ'
  · -- no scope further in knows the name
    have hnone := meaning_eq_none_iff.1 (hinner _ hσ') _ hmem
    rw [hbinds'] at hnone
    cases hnone
  · rw [List.mem_append, List.mem_cons] at hmem
    rw [hσ'] at hbinds'
    obtain hmem | hmem | hmem := hmem
    · -- both belong to one scope, the other one earlier
      have horder := t.pairwise_marks
      rw [hmarks, List.append_assoc, List.pairwise_append] at horder
      have hends := (horder.2.2 _ hmem (.declares d.site) (by simp)).place _ _ rfl rfl
      exact .inr (.inr ⟨hσ'.trans hscope.symm, hends⟩)
    · exact .inl (Inventory.eq_of_site_eq (regular_parse t).snug hd' hd (Mark.declares.inj hmem))
    · rw [hnewer _ hmem] at hbinds'
      cases hbinds'
  · have hpairwise := r.pairwise_scopes
    rw [hscopes, List.pairwise_append, List.pairwise_cons] at hpairwise
    rw [← hscope] at hpairwise
    exact .inr (.inl (hpairwise.2.1.1 _ hσ'))

/-- A use that finds nothing sees nothing. -/
theorem not_sees_of_find? (hmarks : t.marks = before ++ .uses r :: after) (huses : r.Uses name)
    (hfind : (Resolution.ofMarks before).find? name = none) :
    ¬ ∃ d, Sees (parse t).root r d := by
  rintro ⟨d, hsees⟩
  rw [find?_of_use hmarks, List.findSome?_eq_none_iff] at hfind
  obtain ⟨hmem, hbinds⟩ := binds_of_visible hmarks hsees.mem hsees.visible
  rw [huses.unique hsees.visible.uses] at hbinds
  have hnone := meaning_eq_none_iff.1 (hfind _ hsees.visible.scope) _ hmem
  rw [hbinds] at hnone
  cases hnone

/-- **A use of a name finds the declaration that it sees.** -/
theorem find?_eq_some_iff (hmarks : t.marks = before ++ .uses r :: after) (huses : r.Uses name)
    {e : Entity} : (Resolution.ofMarks before).find? name = some e ↔
      ∃ d, Sees (parse t).root r d ∧ d.entity = e := by
  refine ⟨exists_sees hmarks huses, ?_⟩
  rintro ⟨d, hsees, rfl⟩
  cases hfind : (Resolution.ofMarks before).find? name with
  | none => exact absurd ⟨d, hsees⟩ (not_sees_of_find? hmarks huses hfind)
  | some e =>
    obtain ⟨d', hsees', rfl⟩ := exists_sees hmarks huses hfind
    rw [sees_unique hsees hsees']

theorem find?_eq_none_iff (hmarks : t.marks = before ++ .uses r :: after) (huses : r.Uses name) :
    (Resolution.ofMarks before).find? name = none ↔ ¬ ∃ d, Sees (parse t).root r d := by
  refine ⟨not_sees_of_find? hmarks huses, fun hnot => ?_⟩
  cases hfind : (Resolution.ofMarks before).find? name with
  | none => rfl
  | some e =>
    obtain ⟨d, hsees, -⟩ := exists_sees hmarks huses hfind
    exact absurd ⟨d, hsees⟩ hnot

end

/-! ### What is noted -/

namespace Resolution

theorem mem_uses_use {r : Resolution} {span : Span} {name : Text} :
    span ∈ (r.use name).uses ↔ span ∈ r.uses ∨ r.find? name = some (.var span false) := by
  unfold use
  split <;> simp [*, eq_comm, or_comm]

theorem mem_linkedUses_use {r : Resolution} {name name' : Text} :
    name' ∈ (r.use name).linkedUses ↔ name' ∈ r.linkedUses ∨ name = name' ∧
      (r.find? name = none ∨ ∃ span, r.find? name = some (.var span true)) := by
  unfold use
  split <;> simp [*, eq_comm, or_comm]

theorem mem_linked_declare {r : Resolution} {leaf : Leaf} {entity : Entity} {x : Text × Span} :
    x ∈ (r.declare leaf entity).linked ↔ x ∈ r.linked ∨
      leaf.text = x.1 ∧ entity = .var x.2 true := by
  obtain ⟨name, span⟩ := x
  cases entity with
  | other => simp [declare]
  | var decl linkage => cases linkage <;> simp [declare, eq_comm, or_comm]

/-- A mark notes a use of a variable without linkage if it finds one. -/
theorem mem_uses_mark (span : Span) (r : Resolution) (m : Mark) :
    span ∈ (r.mark m).uses ↔ span ∈ r.uses ∨
      ∃ s leaf, m = .uses s ∧ s.node.firstToken? = some leaf ∧
        r.find? leaf.text = some (.var span false) := by
  cases m with
  | opens s => simp [mark_opens]
  | closes => simp [mark_closes]
  | declares s =>
    rw [mark_declares]
    cases s.entity? <;> simp [declare]
  | uses s =>
    rw [mark_uses]
    cases hleaf : s.node.firstToken? <;> simp [hleaf, mem_uses_use]

/-- A mark notes a name that is used for a variable with linkage if it finds one or nothing. -/
theorem mem_linkedUses_mark (name : Text) (r : Resolution) (m : Mark) :
    name ∈ (r.mark m).linkedUses ↔ name ∈ r.linkedUses ∨
      ∃ s leaf, m = .uses s ∧ s.node.firstToken? = some leaf ∧ leaf.text = name ∧
        (r.find? leaf.text = none ∨ ∃ span, r.find? leaf.text = some (.var span true)) := by
  cases m with
  | opens s => simp [mark_opens]
  | closes => simp [mark_closes]
  | declares s =>
    rw [mark_declares]
    cases s.entity? <;> simp [declare]
  | uses s =>
    rw [mark_uses]
    cases hleaf : s.node.firstToken? <;> simp [hleaf, mem_linkedUses_use]

/-- A mark notes a variable with linkage if it declares one. -/
theorem mem_linked_mark (x : Text × Span) (r : Resolution) (m : Mark) :
    x ∈ (r.mark m).linked ↔ x ∈ r.linked ∨
      ∃ s leaf, m = .declares s ∧ s.entity? = some (leaf, .var x.2 true) ∧ leaf.text = x.1 := by
  cases m with
  | opens s => simp [mark_opens]
  | closes => simp [mark_closes]
  | declares s =>
    rw [mark_declares]
    cases hentity : s.entity? with
    | none => simp [hentity]
    | some y => simp [hentity, mem_linked_declare, Prod.ext_iff, and_comm]
  | uses s =>
    rw [mark_uses]
    cases s.node.firstToken? with
    | none => simp
    | some leaf =>
      simp only [reduceCtorEq, false_and, exists_false, or_false]
      unfold use
      split <;> rfl

end Resolution

/-- The walk comes to every use of a name. -/
theorem exists_marks_of_uses {name : Text} (hr : r ∈ (parse t).root.sites) (huses : r.Uses name) :
    ∃ before after leaf, t.marks = before ++ .uses r :: after ∧
      r.node.firstToken? = some leaf ∧ leaf.text = name := by
  obtain ⟨before, after, hmarks⟩ := 
    List.append_of_mem (Site.uses_mem_marks (s := ⟨(parse t).root, []⟩) hr huses.1)
  obtain ⟨leaf, hleaf, hname⟩ := Option.map_eq_some_iff.1 huses.2
  exact ⟨before, after, leaf, hmarks, hleaf, hname⟩

theorem uses_of_marks {before after : List Mark} {leaf : Leaf}
    (hmarks : t.marks = before ++ .uses r :: after) (hleaf : r.node.firstToken? = some leaf) :
    r ∈ (parse t).root.sites ∧ r.Uses leaf.text := by
  have hmem : .uses r ∈ t.marks := by simp [hmarks]
  obtain ⟨_, hr, rfl, hname⟩ := Site.exists_of_mem_marks hmem (by simp)
  exact ⟨hr, hname, by simp [hleaf]⟩

theorem mem_uses_iff (t : Text) (span : Span) :
    span ∈ (Resolution.ofMarks t.marks).uses ↔
      ∃ r ∈ (parse t).root.sites, ∃ d, Sees (parse t).root r d ∧ d.entity = .var span false := by
  rw [Resolution.ofMarks_iff (P := fun r => span ∈ r.uses) (by simp [Resolution.initial])
    (Resolution.mem_uses_mark span)]
  constructor
  · rintro ⟨before, m, after, hmarks, r, leaf, rfl, hleaf, hfind⟩
    obtain ⟨hr, huses⟩ := uses_of_marks hmarks hleaf
    exact ⟨r, hr, (find?_eq_some_iff hmarks huses).1 hfind⟩
  · rintro ⟨r, hr, d, hsees, hentity⟩
    obtain ⟨before, after, leaf, hmarks, hleaf, hname⟩ := exists_marks_of_uses hr hsees.visible.uses
    have huses := (uses_of_marks hmarks hleaf).2
    exact ⟨before, _, after, hmarks, r, leaf, rfl, hleaf,
      (find?_eq_some_iff hmarks huses).2 ⟨d, hsees, hentity⟩⟩

theorem mem_linkedUses_iff (t : Text) (name : Text) :
    name ∈ (Resolution.ofMarks t.marks).linkedUses ↔
      ∃ r ∈ (parse t).root.sites, r.Uses name ∧
        ((∃ d, Sees (parse t).root r d ∧ d.kind = .var ∧ d.site.linkage = true) ∨
          ¬ ∃ d, Sees (parse t).root r d) := by
  rw [Resolution.ofMarks_iff (P := fun r => name ∈ r.linkedUses) (by simp [Resolution.initial])
    (Resolution.mem_linkedUses_mark name)]
  constructor
  · rintro ⟨before, m, after, hmarks, r, leaf, rfl, hleaf, rfl, hfind⟩
    obtain ⟨hr, huses⟩ := uses_of_marks hmarks hleaf
    refine ⟨r, hr, huses, ?_⟩
    obtain hnone | ⟨span, hsome⟩ := hfind
    · exact .inr ((find?_eq_none_iff hmarks huses).1 hnone)
    · obtain ⟨d, hsees, hentity⟩ := (find?_eq_some_iff hmarks huses).1 hsome
      obtain ⟨hkind, -, hlinkage⟩ := Declaration.entity_eq_var.1 hentity
      exact .inl ⟨d, hsees, hkind, hlinkage⟩
  · rintro ⟨r, hr, huses, hsees⟩
    obtain ⟨before, after, leaf, hmarks, hleaf, hname⟩ := exists_marks_of_uses hr huses
    obtain rfl := hname
    refine ⟨before, _, after, hmarks, r, leaf, rfl, hleaf, rfl, ?_⟩
    obtain ⟨d, hsees, hkind, hlinkage⟩ | hnot := hsees
    · exact .inr ⟨d.name.span, (find?_eq_some_iff hmarks huses).2
        ⟨d, hsees, Declaration.entity_eq_var.2 ⟨hkind, rfl, hlinkage⟩⟩⟩
    · exact .inl ((find?_eq_none_iff hmarks huses).2 hnot)

theorem mem_linked_iff (t : Text) (x : Text × Span) :
    x ∈ (Resolution.ofMarks t.marks).linked ↔
      ∃ d ∈ (Inventory.ofTree (parse t).root).declarations,
        d.entity = .var x.2 true ∧ d.name.text = x.1 := by
  rw [Resolution.ofMarks_iff (P := fun r => x ∈ r.linked) (by simp [Resolution.initial])
    (Resolution.mem_linked_mark x)]
  constructor
  · rintro ⟨before, m, after, hmarks, s, leaf, rfl, hentity, hname⟩
    obtain ⟨d, hd, -, rfl, hd'⟩ := exists_declaration (t := t) (by simp [hmarks]) hentity
    exact ⟨d, hd, hd', hname⟩
  · rintro ⟨d, hd, hentity, hname⟩
    obtain ⟨before, after, hmarks⟩ := List.append_of_mem (Inventory.declares_mem_marks hd)
    exact ⟨before, _, after, hmarks, d.site, d.name, rfl,
      hentity ▸ Inventory.entity?_of_mem hd, hname⟩

/-- The span of its name tells a variable from the others. -/
theorem eq_of_entity {d' : Declaration} {linkage : Bool}
    (hd : d ∈ (Inventory.ofTree (parse t).root).declarations)
    (hd' : d' ∈ (Inventory.ofTree (parse t).root).declarations)
    (hentity : d'.entity = .var d.name.span linkage) : d' = d :=
  Inventory.eq_of_name_span_eq (regular_parse t) hd' hd (Declaration.entity_eq_var.1 hentity).2.1

section

variable (hd : d ∈ (Inventory.ofTree (parse t).root).declarations) (hvar : d.kind = .var)

include hd hvar

/-- A use of a variable without linkage is noted just if it sees the variable. -/
theorem span_mem_uses_iff : d.name.span ∈ (Resolution.ofMarks t.marks).uses ↔
    d.site.linkage = false ∧ ∃ r ∈ (parse t).root.sites, Sees (parse t).root r d := by
  rw [mem_uses_iff]
  constructor
  · rintro ⟨r, hr, d', hsees, hentity⟩
    obtain rfl := eq_of_entity hd hsees.mem hentity
    exact ⟨(Declaration.entity_eq_var.1 hentity).2.2, r, hr, hsees⟩
  · rintro ⟨hlinkage, r, hr, hsees⟩
    exact ⟨r, hr, d, hsees, Declaration.entity_eq_var.2 ⟨hvar, rfl, hlinkage⟩⟩

/-- A variable is noted under its own name just if it has linkage. -/
theorem span_mem_linked_iff {name : Text} :
    (name, d.name.span) ∈ (Resolution.ofMarks t.marks).linked ↔
      name = d.name.text ∧ d.site.linkage = true := by
  rw [mem_linked_iff]
  constructor
  · rintro ⟨d', hd', hentity, rfl⟩
    obtain rfl := eq_of_entity hd hd' hentity
    exact ⟨rfl, (Declaration.entity_eq_var.1 hentity).2.2⟩
  · rintro ⟨rfl, hlinkage⟩
    exact ⟨d, hd, Declaration.entity_eq_var.2 ⟨hvar, rfl, hlinkage⟩, rfl⟩

/-- A variable counts as used if it is noted itself, or its name and it has linkage. -/
theorem isReferenced_iff_noted : d.isReferenced = true ↔
    d.name.span ∈ (Resolution.ofMarks t.marks).uses ∨
      d.site.linkage = true ∧ d.name.text ∈ (Resolution.ofMarks t.marks).linkedUses := by
  rw [(Inventory.mem_declarations hd).2.2, references_parse, List.contains_iff_mem,
    Resolution.references, List.mem_append, List.mem_map]
  refine or_congr_right ⟨?_, ?_⟩
  · rintro ⟨⟨name, span⟩, hmem, rfl⟩
    obtain ⟨hmem, huse⟩ := List.mem_filter.1 hmem
    obtain ⟨rfl, hlinkage⟩ := (span_mem_linked_iff hd hvar).1 hmem
    exact ⟨hlinkage, List.contains_iff_mem.1 huse⟩
  · rintro ⟨hlinkage, huse⟩
    exact ⟨(d.name.text, d.name.span), List.mem_filter.2
      ⟨(span_mem_linked_iff hd hvar).2 ⟨rfl, hlinkage⟩, List.contains_iff_mem.2 huse⟩, rfl⟩

end

/-- A variable that some use sees counts as used. -/
theorem isReferenced_of_sees (hr : r ∈ (parse t).root.sites) (hsees : Sees (parse t).root r d)
    (hvar : d.kind = .var) : d.isReferenced = true := by
  rw [isReferenced_iff_noted hsees.mem hvar, span_mem_uses_iff hsees.mem hvar, mem_linkedUses_iff]
  cases hlinkage : d.site.linkage with
  | false => exact .inl ⟨rfl, r, hr, hsees⟩
  | true => exact .inr ⟨rfl, r, hr, hsees.visible.uses, .inl ⟨d, hsees, hvar, hlinkage⟩⟩

end

/-- **A variable counts as used just if the scoping rule says so.** A variable without linkage is
used if some use of its name sees it. A variable with linkage is used if some use of its name sees a
variable with linkage or nothing at all. -/
theorem isReferenced_iff_sees (t : Text) (d : Declaration)
    (hd : d ∈ (Inventory.ofTree (parse t).root).declarations) (hvar : d.kind = .var) :
    d.isReferenced = true ↔ ∃ r ∈ (parse t).root.sites, r.Uses d.name.text ∧
      (d.site.linkage = false ∧ Sees (parse t).root r d ∨
        d.site.linkage = true ∧
          ((∃ d', Sees (parse t).root r d' ∧ d'.kind = .var ∧ d'.site.linkage = true) ∨
            ¬ ∃ d', Sees (parse t).root r d')) := by
  rw [isReferenced_iff_noted hd hvar, span_mem_uses_iff hd hvar, mem_linkedUses_iff]
  constructor
  · rintro (⟨hlinkage, r, hr, hsees⟩ | ⟨hlinkage, r, hr, huses, hsees⟩)
    · exact ⟨r, hr, hsees.visible.uses, .inl ⟨hlinkage, hsees⟩⟩
    · exact ⟨r, hr, huses, .inr ⟨hlinkage, hsees⟩⟩
  · rintro ⟨r, hr, huses, ⟨hlinkage, hsees⟩ | ⟨hlinkage, hsees⟩⟩
    · exact .inl ⟨hlinkage, r, hr, hsees⟩
    · exact .inr ⟨hlinkage, r, hr, huses, hsees⟩

/-- A variable in its own initializer hides one of the same name that nothing else uses. -/
theorem isReferenced_iff_sees_shadowed :
    let root := (parse "int x; void f(int y) \x7b int x = x + y; \x7d".toList).root
    ∃ d ∈ (Inventory.ofTree root).declarations, ∃ d' ∈ (Inventory.ofTree root).declarations,
      d.kind = .var ∧ d'.kind = .var ∧ d.name.text = d'.name.text ∧
        (¬ ∃ r ∈ root.sites, Sees root r d) ∧ ∃ r ∈ root.sites, Sees root r d' := by
  intro root
  have hpair : (Inventory.ofTree root).declarations.any (fun d =>
      (Inventory.ofTree root).declarations.any fun d' => d.kind = .var && d'.kind = .var &&
        decide (d.name.text = d'.name.text) && (d.site.linkage && !d.isReferenced) &&
        (!d'.site.linkage && d'.isReferenced)) = true := by
    decide +kernel
  obtain ⟨d, hd, hpair⟩ := List.any_eq_true.1 hpair
  obtain ⟨d', hd', hpair⟩ := List.any_eq_true.1 hpair
  simp only [Bool.and_eq_true, decide_eq_true_eq, Bool.not_eq_true'] at hpair
  obtain ⟨⟨⟨⟨hvar, hvar'⟩, hname⟩, hlinkage, hunused⟩, hlinkage', hused⟩ := hpair
  refine ⟨d, hd, d', hd', hvar, hvar', hname, ?_, ?_⟩
  · rintro ⟨r, hr, hsees⟩
    have hreferenced := (isReferenced_iff_sees _ d hd hvar).2
      ⟨r, hr, hsees.visible.uses, .inr ⟨hlinkage, .inl ⟨d, hsees, hvar, hlinkage⟩⟩⟩
    rw [hunused] at hreferenced
    cases hreferenced
  · obtain ⟨r, hr, -, ⟨-, hsees⟩ | ⟨hlinked, -⟩⟩ := (isReferenced_iff_sees _ d' hd' hvar').1 hused
    · exact ⟨r, hr, hsees⟩
    · rw [hlinkage'] at hlinked
      cases hlinked

end Whittle
