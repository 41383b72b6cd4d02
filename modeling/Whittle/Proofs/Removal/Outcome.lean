import Whittle.Proofs.Removal.Range
import Whittle.Removal.Outcome

/-!
# What removals come to

* `Text.Without`: a text is another one with a span deleted.
* `cut_of_applied`: **a removal that succeeds deletes the span that goes with the selected
  variable.**
* `removeUnused_enumerates`: **listing, counting and removing agree on the unused variables and
  their order.**
-/

namespace Whittle

namespace Text

/-- Whether a text becomes another one when a span is deleted. -/
def Without (t : Text) (s : Span) (u : Text) : Prop :=
  ∃ before removed after, t = before ++ removed ++ after ∧
    s = ⟨size before, size (before ++ removed)⟩ ∧ u = before ++ after

theorem eq_nil_of_size_eq_zero {t : Text} (h : t.size = 0) : t = [] := by
  cases t with
  | nil => rfl
  | cons c cs =>
    have := Char.utf8Size_pos c
    simp only [size] at h
    omega

theorem upTo_size_append (s t : Text) : upTo s.size (s ++ t) = s := by
  induction s with
  | nil =>
    cases t with
    | nil => rfl
    | cons c cs =>
      have := Char.utf8Size_pos c
      rw [List.nil_append, size, upTo, if_neg (by omega)]
  | cons c cs ih =>
    rw [List.cons_append, upTo, size, if_pos (by omega), Nat.add_sub_cancel_left, ih]

theorem after_size_append (s t : Text) : after s.size (s ++ t) = t := by
  have h := upTo_append_after s.size (s ++ t)
  rw [upTo_size_append] at h
  exact List.append_cancel_left h

/-- A boundary splits a text in two. -/
theorem exists_of_isBoundary {n : Nat} {t : Text} (h : t.isBoundary n = true) :
    ∃ s u, t = s ++ u ∧ s.size = n := by
  induction t generalizing n with
  | nil => exact ⟨[], [], rfl, (beq_iff_eq.1 h).symm⟩
  | cons c cs ih =>
    rw [isBoundary, Bool.or_eq_true, Bool.and_eq_true, beq_iff_eq, decide_eq_true_eq] at h
    obtain rfl | ⟨hle, h⟩ := h
    · exact ⟨[], c :: cs, rfl, rfl⟩
    · obtain ⟨s, u, rfl, hs⟩ := ih h
      refine ⟨c :: s, u, rfl, ?_⟩
      rw [size, hs]
      omega

/-- Of two texts at the start of a third the longer one starts with the other. -/
theorem exists_append_of_size_le {s s' u u' : Text} (h : s ++ u = s' ++ u')
    (hle : s.size ≤ s'.size) : ∃ v, s' = s ++ v := by
  obtain ⟨v, rfl, -⟩ | ⟨v, rfl, -⟩ := List.append_eq_append_iff.1 h
  · exact ⟨v, rfl⟩
  · have hv : size v = 0 := by
      simp only [size_append] at hle
      omega
    exact ⟨[], by simp [eq_nil_of_size_eq_zero hv]⟩

/-- Two boundaries split a text in three, and deleting what is between them leaves the outer two. -/
theorem without_of_isBoundary {s : Span} {t : Text} (hstart : t.isBoundary s.start = true)
    (hstop : t.isBoundary s.stop = true) (hle : s.start ≤ s.stop) :
    t.Without s (t.upTo s.start ++ t.after s.stop) := by
  obtain ⟨start, stop⟩ := s
  obtain ⟨x, w, rfl, rfl⟩ := exists_of_isBoundary hstart
  obtain ⟨v, z, hv, rfl⟩ := exists_of_isBoundary hstop
  obtain ⟨y, rfl⟩ := exists_append_of_size_le hv hle
  refine ⟨x, y, z, hv, rfl, ?_⟩
  simp only [upTo_size_append]
  rw [hv, after_size_append]

end Text

/-! ### Carrying out a removal -/

theorem Patch.apply_of_remove {t : Text} {s : Span} {q : Patch}
    (h : (Patch.ofText t).remove s = .ok q) :
    q.apply = t.upTo s.start ++ t.after s.stop ∧ t.isBoundary s.start = true ∧
      t.isBoundary s.stop = true := by
  unfold remove replace at h
  split at h
  · cases h
  rename_i hfits
  split at h
  · cases h
  obtain rfl := Except.ok.inj h
  have hfits : (Patch.ofText t).fits s = true := by simpa using hfits
  simp only [fits, ofText, Bool.and_eq_true] at hfits
  refine ⟨?_, hfits.1.2, hfits.2⟩
  simp [apply, ofText, Edit.insert, Edit.applyFrom]

namespace Program

variable {p : Program} {target : Declaration} {group : DeclGroup} {out : Text}

/-- A declaration that is taken out has a span that goes with it, and what is left passes the
check. -/
theorem exists_of_without (h : p.without target group = .ok out) :
    ∃ range patch, target.removal group = .ok range ∧
      (Patch.ofText p.text).remove range = .ok patch ∧ patch.apply = out ∧
      checkEdit p.root out = .ok () := by
  unfold without Patch.removeDeclaration at h
  cases hrange : target.removal group with
  | error e => simp [hrange, bind, Except.bind] at h
  | ok range =>
    cases hpatch : (Patch.ofText p.text).remove range with
    | error e => simp [hrange, hpatch, bind, Except.bind] at h
    | ok patch =>
      cases hcheck : checkEdit p.root patch.apply with
      | error e => simp [hrange, hpatch, hcheck, bind, Except.bind] at h
      | ok =>
        simp only [hrange, hpatch, hcheck, bind, Except.bind, pure, Except.pure,
          Except.ok.injEq] at h
        exact ⟨range, patch, rfl, hpatch, h, h ▸ hcheck⟩

/-- A declaration that is taken out leaves the text without the span that goes with it. -/
theorem cut_of_without (hroot : p.root.Snug) (htarget : target.site ∈ p.root.sites)
    (hgroup : group.site ∈ p.root.sites) (h : p.without target group = .ok out) :
    ∃ range, target.removal group = .ok range ∧ p.text.Without range out := by
  obtain ⟨range, patch, hrange, hpatch, rfl, -⟩ := exists_of_without h
  obtain ⟨happly, hstart, hstop⟩ := Patch.apply_of_remove hpatch
  have hle := (Declaration.cut_of_removal hrange).2.start_le_stop hroot htarget hgroup
  exact ⟨range, hrange, happly ▸ Text.without_of_isBoundary hstart hstop hle⟩

end Program

namespace Inventory

theorem group_mem_sites {root : Placed} {g : DeclGroup} (h : g ∈ (ofTree root).groups) :
    g.site ∈ root.sites ∧ g.site.node.isNode .declGroup = true := by
  obtain ⟨⟨site, number⟩, hmem, rfl⟩ := List.mem_map.1 h
  exact List.mem_filter.1 (List.fst_mem_of_mem_zipIdx hmem)

theorem mem_groups_of_groupOf? {i : Inventory} {id : Nat} {g : DeclGroup}
    (h : i.groupOf? id = some g) : g ∈ i.groups := by
  simp only [groupOf?, Option.bind_eq_bind, Option.bind_eq_some_iff] at h
  obtain ⟨d, -, number, -, hg⟩ := h
  exact List.mem_of_getElem? hg

end Inventory

theorem Parsed.place_tree (t : Text) : (parse t).tree.place 0 = (parse t).root := rfl

/-- The program of a text without syntax errors. -/
def Program.ofText (t : Text) (h : (Whittle.parse t).errors = []) : Program :=
  ⟨t, (Whittle.parse t).tree.place 0, Parsed.place_tree t, h⟩

theorem Outcome.eq_applied_of_output? {o : Outcome} {out : Text} (h : o.output? = some out) :
    o = .applied out := by
  cases o with
  | applied output => rw [Option.some.inj h]
  | _ => cases h

/-- The tree of a program is regular. -/
theorem Program.regular (p : Program) : p.root.Regular := p.root_eq ▸ regular_parse p.text

/-- A removal that succeeds takes the selected variable out of its group. -/
theorem without_of_applied {p : Program} {counter : Counter} {out : Text}
    (h : removeUnused p (.apply counter) = .applied out) :
    ∃ target group,
      (Inventory.ofTree p.root).candidates[counter.val - 1]? = some target ∧
      (Inventory.ofTree p.root).groupOf? target.id = some group ∧
      p.without target group = .ok out := by
  obtain ⟨index, hindex⟩ := counter
  simp only [removeUnused, Inventory.tally_eq _ hindex] at h
  split at h
  · cases h
  split at h
  · cases h
  rename_i target hselected
  split at h
  · cases h
  rename_i group hgroup
  split at h
  · rename_i output hwithout
    obtain rfl := Outcome.applied.inj h
    exact ⟨target, group, hselected, hgroup, hwithout⟩
  · cases h

/-- **A removal that succeeds deletes the span that goes with the selected variable.** -/
theorem cut_of_applied {p : Program} {counter : Counter} {out : Text}
    (h : removeUnused p (.apply counter) = .applied out) :
    ∃ target group range,
      (Inventory.ofTree p.root).candidates[counter.val - 1]? = some target ∧
      (Inventory.ofTree p.root).groupOf? target.id = some group ∧
      target.removal group = .ok range ∧ p.text.Without range out := by
  obtain ⟨target, group, hselected, hgroup, hwithout⟩ := without_of_applied h
  have htarget := (Inventory.mem_declarations
    (List.mem_filter.1 (List.mem_of_getElem? hselected)).1).1
  have hsite := (Inventory.group_mem_sites (Inventory.mem_groups_of_groupOf? hgroup)).1
  obtain ⟨range, hrange, hout⟩ := Program.cut_of_without p.regular.snug htarget hsite hwithout
  exact ⟨target, group, range, hselected, hgroup, hrange, hout⟩

theorem length_unusedVariables (root : Placed) :
    (unusedVariables root).length = (Inventory.ofTree root).candidates.length := by
  simp [unusedVariables]

theorem getElem?_unusedVariables (root : Placed) (k : Nat) :
    (unusedVariables root)[k]? =
      ((Inventory.ofTree root).candidates[k]?).map fun d => ⟨k + 1, d⟩ := by
  simp [unusedVariables, Nat.add_comm, Function.comp_def]

/-- **Listing, counting and removing agree on the unused variables and their order.** The list is
numbered from one and follows the text. A query reports its length, a counter beyond it is out of
range, and every other counter selects the variable with that number, so that a removal deletes
what goes with that variable. -/
theorem removeUnused_enumerates (p : Program) :
    let listed := unusedVariables p.root
    let inventory := Inventory.ofTree p.root
    (∀ k u, listed[k]? = some u → u.index = k + 1) ∧
    (listed.map (·.declaration.name.span)).Pairwise
      (fun s t => s.start < t.start ∧ s.stop ≤ t.start) ∧
    removeUnused p .query = .counted listed.length ∧
    (∀ counter : Counter, listed.length < counter →
      removeUnused p (.apply counter) = .outOfRange counter listed.length) ∧
    ∀ counter : Counter, counter ≤ listed.length →
      ∃ u, listed[counter.val - 1]? = some u ∧
        inventory.tally counter = ⟨listed.length, some u.declaration⟩ ∧
        ∀ out, removeUnused p (.apply counter) = .applied out →
          ∃ group range, inventory.groupOf? u.declaration.id = some group ∧
            u.declaration.removal group = .ok range ∧ p.text.Without range out := by
  intro listed inventory
  have hlength : listed.length = inventory.candidates.length := length_unusedVariables p.root
  refine ⟨fun k u hu => ?_, ?_, ?_, fun ⟨index, hpos⟩ hlt => ?_, fun ⟨index, hpos⟩ hle => ?_⟩
  · rw [getElem?_unusedVariables] at hu
    obtain ⟨d, -, rfl⟩ := Option.map_eq_some_iff.1 hu
    rfl
  · have hspans : listed.map (·.declaration.name.span) =
        inventory.candidates.map (·.name.span) := by
      refine List.ext_getElem? fun k => ?_
      simp only [List.getElem?_map, listed, getElem?_unusedVariables, Option.map_map]
      rfl
    rw [hspans, List.pairwise_map]
    exact Inventory.pairwise_candidates p.regular
  · rw [removeUnused, Inventory.count_eq, hlength]
  · have hlt : inventory.candidates.length < index := hlength ▸ hlt
    rw [hlength]
    simp [removeUnused, Inventory.tally_eq _ hpos, inventory, hlt]
  · have hlt : index - 1 < inventory.candidates.length := by
      have : index ≤ listed.length := hle
      omega
    have hselected := List.getElem?_eq_getElem hlt
    refine ⟨⟨index - 1 + 1, inventory.candidates[index - 1]⟩, ?_, ?_, fun out hout => ?_⟩
    · rw [getElem?_unusedVariables, hselected]
      rfl
    · rw [Inventory.tally_eq _ hpos, hlength, hselected]
    · obtain ⟨target, group, range, htarget, hgroup, hrange, hwithout⟩ := cut_of_applied hout
      obtain rfl := Option.some.inj (hselected.symm.trans htarget)
      exact ⟨group, range, hgroup, hrange, hwithout⟩

/-- Two unused variables and a used one between them: the second one goes with the comma before
it. -/
theorem removeUnused_enumerates_two :
    let p := Program.ofText "int a, b, *c = &b;".toList (by decide +kernel)
    removeUnused p .query = .counted 2 ∧
    removeUnused p (.apply ⟨3, by decide⟩) = .outOfRange 3 2 ∧
    ∃ u, (unusedVariables p.root)[1]? = some u ∧
      ∃ group range, (Inventory.ofTree p.root).groupOf? u.declaration.id = some group ∧
        u.declaration.removal group = .ok range ∧ p.text.Without range "int a, b;".toList := by
  intro p
  have hlength : (unusedVariables p.root).length = 2 := by decide +kernel
  have happlied : removeUnused p (.apply ⟨2, by decide⟩) = .applied "int a, b;".toList :=
    Outcome.eq_applied_of_output? (by decide +kernel)
  obtain ⟨-, -, hquery, hbeyond, hwithin⟩ := removeUnused_enumerates p
  obtain ⟨u, hu, -, hcut⟩ := hwithin ⟨2, by decide⟩ (Nat.le_of_eq hlength.symm)
  rw [hlength] at hquery hbeyond
  exact ⟨hquery, hbeyond ⟨3, by decide⟩ (by decide), u, hu, hcut _ happlied⟩

end Whittle
