import Whittle.Declaration.Inventory
import Whittle.Proofs.Declaration.Name

/-!
# The inventory and its walks

* `Inventory.mem_declarations`: a declaration of the inventory is what its site declares.
* `Inventory.sites_declarations`: the sites of the declarations, in order.
* `Inventory.tally_eq`: **one walk over the declarations comes to the same as filtering first.**
* `Inventory.pairwise_candidates`: **the names of the candidates stand in the order of the list.**
-/

namespace Whittle.Inventory

variable {root : Placed} {d d' : Declaration}

/-! ### Declarations and sites -/

/-- The sites that declare something, with what they declare. -/
def found (sites : List Site) : List (Site × Leaf × DeclKind × Storage) :=
  sites.filterMap fun s => s.declares?.map (s, ·)

theorem mem_found {sites : List Site} {s : Site} {x : Leaf × DeclKind × Storage} :
    (s, x) ∈ found sites ↔ s ∈ sites ∧ s.declares? = some x := by
  simp only [found, List.mem_filterMap, Option.map_eq_some_iff, Prod.mk.injEq]
  constructor
  · rintro ⟨s, hs, x, hx, rfl, rfl⟩
    exact ⟨hs, hx⟩
  · rintro ⟨hs, hx⟩
    exact ⟨s, hs, x, hx, rfl, rfl⟩

theorem map_fst_found (sites : List Site) :
    (found sites).map (·.1) = sites.filter (·.declares?.isSome) := by
  induction sites with
  | nil => rfl
  | cons s sites ih =>
    rw [found] at ih ⊢
    cases h : s.declares? with
    | none => simp [h, ih]
    | some x => simp [h, ih]

/-- The sites of the declarations are those that declare something. -/
theorem sites_declarations (root : Placed) :
    (ofTree root).declarations.map (·.site) = root.sites.filter (·.declares?.isSome) := by
  rw [← map_fst_found, ofTree, declarationsAt, List.map_map]
  exact (List.map_map (f := Prod.fst) (g := Prod.fst) (l := (found root.sites).zipIdx)).symm.trans
    (by rw [List.zipIdx_map_fst])

/-- A declaration is what its site declares, and it is used if its name is. -/
theorem mem_declarations (h : d ∈ (ofTree root).declarations) :
    d.site ∈ root.sites ∧ d.site.declares? = some (d.name, d.kind, d.storage) ∧
      d.isReferenced = (references root).contains d.name.span := by
  obtain ⟨⟨⟨s, name, kind, storage⟩, id⟩, hmem, rfl⟩ := List.mem_map.1 h
  have hs := mem_found.1 (List.fst_mem_of_mem_zipIdx hmem)
  exact ⟨hs.1, hs.2, rfl⟩

/-- What a site declares is in the inventory. -/
theorem exists_mem_declarations {s : Site} {name : Leaf} {kind : DeclKind} {storage : Storage}
    (hs : s ∈ root.sites) (h : s.declares? = some (name, kind, storage)) :
    ∃ d ∈ (ofTree root).declarations,
      d.site = s ∧ d.name = name ∧ d.kind = kind ∧ d.storage = storage := by
  have hsite : s ∈ (ofTree root).declarations.map (·.site) := by
    rw [sites_declarations]
    simp [hs, h]
  obtain ⟨d, hd, rfl⟩ := List.mem_map.1 hsite
  have hd' := (mem_declarations hd).2.1
  rw [h, Option.some.injEq, Prod.mk.injEq, Prod.mk.injEq] at hd'
  exact ⟨d, hd, rfl, hd'.1.symm, hd'.2.1.symm, hd'.2.2.symm⟩

/-- Declarations stand in the order of their sites. -/
theorem pairwise_declarations (hroot : root.Snug) :
    (ofTree root).declarations.Pairwise fun d d' => Placed.Follows d'.site d.site := by
  rw [← List.pairwise_map (f := Declaration.site) (R := fun s t => Placed.Follows t s),
    sites_declarations]
  exact (Placed.pairwise_sites hroot).sublist List.filter_sublist

theorem not_follows_self (s : Site) : ¬ Placed.Follows s s := fun h => h.path_ne rfl

/-- A site makes one declaration. -/
theorem eq_of_site_eq (hroot : root.Snug) (hd : d ∈ (ofTree root).declarations)
    (hd' : d' ∈ (ofTree root).declarations) (h : d.site = d'.site) : d = d' := by
  have horder := pairwise_declarations hroot
  have key := List.Pairwise.forall_of_forall_of_flip
    (R := fun d d' : Declaration =>
      d = d' ∨ Placed.Follows d'.site d.site ∨ Placed.Follows d.site d'.site)
    (fun _ _ => .inl rfl) (horder.imp fun h => .inr (.inl h)) (horder.imp fun h => .inr (.inr h))
    hd hd'
  rw [h] at key
  exact key.resolve_right (by simp [not_follows_self])

/-- The declared name tells declarations apart. -/
theorem eq_of_name_span_eq (hroot : root.Regular) (hd : d ∈ (ofTree root).declarations)
    (hd' : d' ∈ (ofTree root).declarations) (h : d.name.span = d'.name.span) : d = d' := by
  obtain ⟨hs, hname, -⟩ := mem_declarations hd
  obtain ⟨hs', hname', -⟩ := mem_declarations hd'
  refine eq_of_site_eq hroot.snug hd hd' (by_contra fun hne => ?_)
  have hapart := Site.names_disjoint hroot hs hs' hname hname' hne
  have hsreg := Placed.regular_of_mem_subsites (s := ⟨root, []⟩) hroot hs
  have hwithin := Site.name_within hsreg hname
  have hstart : d.name.start = d'.name.start := congrArg Span.start h
  have hstop := congrArg Span.stop h
  omega

/-- Variables are members of groups. -/
theorem isNode_of_var {s : Site} {name : Leaf} {storage : Storage}
    (h : s.declares? = some (name, .var, storage)) : s.node.isNode .initDeclarator = true := by
  obtain ⟨node, above⟩ := s
  cases node with
  | token start t => simp [Site.declares?, Placed.kind] at h
  | node start k children =>
    cases k with
    | initDeclarator => rfl
    | _ => simp [Site.declares?, Placed.kind, Option.bind_eq_some_iff] at h

/-! ### Candidates -/

/-- One walk over some declarations comes to the same as filtering first. -/
theorem foldl_step (index : Nat) (ds : List Declaration) (t : Tally) :
    ds.foldl (Tally.step index) t =
      ⟨t.count + (ds.filter (·.isCandidate)).length,
        if t.count < index then ((ds.filter (·.isCandidate))[index - t.count - 1]?).or t.selected
        else t.selected⟩ := by
  induction ds generalizing t with
  | nil => simp
  | cons d ds ih =>
    rw [List.foldl_cons, ih, Tally.step]
    by_cases hd : d.isCandidate = true
    · rw [if_pos hd, List.filter_cons_of_pos hd, List.length_cons, Tally.mk.injEq]
      refine ⟨Nat.add_right_comm .., ?_⟩
      dsimp only
      rcases Nat.lt_trichotomy index (t.count + 1) with hlt | heq | hgt
      · rw [if_neg (by omega), if_neg (by omega), if_neg (by omega)]
      · rw [if_neg (by omega), if_pos heq.symm, if_pos (by omega),
          show index - t.count - 1 = 0 by omega]
        rfl
      · rw [if_pos hgt, if_neg (by omega), if_pos (by omega),
          show index - t.count - 1 = index - (t.count + 1) - 1 + 1 by omega,
          List.getElem?_cons_succ]
    · simp [hd]

/-- **One walk over the declarations counts the candidates and selects the one with the number.** -/
theorem tally_eq (i : Inventory) {index : Nat} (h : 0 < index) :
    i.tally index = ⟨i.candidates.length, i.candidates[index - 1]?⟩ := by
  simp [tally, foldl_step, h, candidates]

theorem count_eq (i : Inventory) : i.count = i.candidates.length := by
  simp [count, tally, foldl_step, candidates]

/-- **The names of the candidates do not overlap and stand in the order of the list.** -/
theorem pairwise_candidates (hroot : root.Regular) :
    (ofTree root).candidates.Pairwise fun d d' =>
      d.name.start < d'.name.start ∧ d.name.span.stop ≤ d'.name.start := by
  have horder := (pairwise_declarations hroot.snug).sublist
    (List.filter_sublist (p := fun d => d.isCandidate))
  refine List.Pairwise.imp_of_mem (fun {d d'} hd hd' hfollows => ?_) horder
  obtain ⟨hmem, hcand⟩ := List.mem_filter.1 hd
  obtain ⟨hs, hname, -⟩ := mem_declarations hmem
  obtain ⟨hs', hname', -⟩ := mem_declarations (List.mem_filter.1 hd').1
  have hkind : d.kind = .var := by simpa using (Bool.and_eq_true_iff.1 hcand).1
  have hle := Site.name_before_name hroot hs hs' hname hname'
    (isNode_of_var (hkind ▸ hname)) hfollows
  have hwithin := Site.name_within
    (Placed.regular_of_mem_subsites (s := ⟨root, []⟩) hroot hs) hname
  exact ⟨by omega, hle⟩

end Whittle.Inventory
