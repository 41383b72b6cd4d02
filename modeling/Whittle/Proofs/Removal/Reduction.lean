import Whittle.Proofs.Removal.Escape

/-!
# Chains of removals

A program can be reduced by one removal after another, each from the text that the one before it
left. Every removal takes a stretch with a name in it out of the text, so that such a chain comes to
an end, and what it leaves is a program at every step.

* `Text.Loses`: a text becomes another one by losing a stretch that holds a name.
* `loses_of_applied`: **a removal that succeeds leaves a program, which has lost the name.**
* `Reduces`: a text becomes another one by the removals that some counters select.
* `reduces_progress`: **chains of removals stay programs, get shorter and end.**
-/

namespace Whittle

namespace Text

/-- Whether a text becomes another one by losing a stretch that is not empty, starts and stops
between characters and holds a name. -/
structure Loses (t : Text) (range : Span) (name : Leaf) (u : Text) : Prop where
  without : t.Without range u
  nonempty : range.start < range.stop
  isBoundary_start : t.isBoundary range.start = true
  isBoundary_stop : t.isBoundary range.stop = true
  start_le : range.start ≤ name.start
  le_stop : name.span.stop ≤ range.stop

theorem Without.size_eq {t u : Text} {s : Span} (h : t.Without s u) :
    t.size = u.size + s.size := by
  obtain ⟨before, removed, after, rfl, rfl, rfl⟩ := h
  simp only [size_append, Span.size]
  omega

theorem Loses.size_lt {t u : Text} {range : Span} {name : Leaf} (h : t.Loses range name u) :
    u.size < t.size := by
  have hsize := h.without.size_eq
  have hnonempty := h.nonempty
  unfold Span.size at hsize
  omega

end Text

/-! ### One removal -/

theorem Program.parse_eq_ok {t : Text} (h : (Whittle.parse t).errors = []) :
    Program.parse t = .ok (Program.ofText t h) := by
  unfold Program.parse
  exact dif_pos h

theorem Program.text_of_parse {t : Text} {p : Program} (h : Program.parse t = .ok p) :
    p.text = t := by
  unfold Program.parse at h
  dsimp only at h
  split at h
  · rw [← Except.ok.inj h]
  · cases h

/-- The name of a member lies within every cut that takes the member out. -/
theorem Declaration.Cut.name_within {t : Text} {target : Declaration} {group : DeclGroup}
    {range : Span} (h : Cut target group range)
    (htarget : target ∈ (Inventory.ofTree (parse t).root).declarations)
    (hgroup : Inventory.IsGroupOf t group target) :
    range.start ≤ target.name.start ∧ target.name.start < target.name.span.stop ∧
      target.name.span.stop ≤ range.stop := by
  have hroot := regular_parse t
  obtain ⟨hsite, hdeclares, -⟩ := Inventory.mem_declarations htarget
  obtain ⟨hgsite, -⟩ := List.mem_filter.1 hgroup.site_mem
  have hreg := Placed.regular_of_mem_subsites (s := ⟨(parse t).root, []⟩) hroot hsite
  obtain ⟨hstart, hlt, hstop⟩ := Site.name_within hreg hdeclares
  rcases h.fills hroot.snug hsite hgsite with ⟨-, hfills⟩ | hfills
  · -- the member lies within its group
    have hinner := Site.isInner_of_mem_subsites (s := ⟨(parse t).root, []⟩) hsite
    have hgsnug := (Site.span_of_mem_subsites (s := ⟨_, []⟩) hroot.snug hgsite).1
    obtain ⟨-, hgstart, hgstop⟩ :=
      Site.span_of_mem_subsites hgsnug (Site.mem_subsites_of_parent? hgroup.parent hinner)
    have hfstart := hfills.start_le
    have hfstop := hfills.le_stop
    omega
  · have hfstart := hfills.start_le
    have hfstop := hfills.le_stop
    omega

/-- **A removal that succeeds leaves a program, which has lost the name of the selected
variable.** -/
theorem loses_of_applied {p : Program} {counter : Counter} {out : Text}
    (h : removeUnused p (.apply counter) = .applied out) :
    (∃ q, Program.parse out = .ok q) ∧
    ∃ target range, (Inventory.ofTree p.root).candidates[counter.val - 1]? = some target ∧
      p.text.Loses range target.name out := by
  obtain ⟨target, group, hselected, hgroup, hwithout⟩ := without_of_applied h
  obtain ⟨t, root, rfl, hsound⟩ := p
  obtain ⟨htarget, hcandidate⟩ := List.mem_filter.1 (List.mem_of_getElem? hselected)
  obtain ⟨hsite, hdeclares, -⟩ := Inventory.mem_declarations htarget
  have hkind : target.kind = .var := by simpa using (Bool.and_eq_true_iff.1 hcandidate).1
  obtain ⟨group', hgroup', hof⟩ :=
    Inventory.exists_isGroupOf htarget (Inventory.isNode_of_var (hkind ▸ hdeclares))
  obtain rfl := Option.some.inj (hgroup.symm.trans hgroup')
  obtain ⟨range, patch, hrange, hpatch, rfl, hcheck⟩ := Program.exists_of_without hwithout
  have hcut := (Declaration.cut_of_removal hrange).2
  obtain ⟨happly, hstart, hstop⟩ := Patch.apply_of_remove hpatch
  obtain ⟨hname, hlt, hname'⟩ := hcut.name_within htarget hof
  refine ⟨⟨_, Program.parse_eq_ok (checkEdit_eq_ok.1 hcheck).1⟩, target, range, hselected, ?_⟩
  exact ⟨happly ▸ Text.without_of_isBoundary hstart hstop (by omega), by omega, hstart, hstop,
    hname, hname'⟩

/-! ### Any number of removals -/

/-- Whether a text becomes another one by the removals that some counters select, each from the text
that the one before it left. -/
inductive Reduces : Text → List Counter → Text → Prop
  | refl (t : Text) : Reduces t [] t
  | step {t u v : Text} {counter : Counter} {counters : List Counter} {p : Program}
      (hparse : Program.parse t = .ok p) (happlied : removeUnused p (.apply counter) = .applied u)
      (hrest : Reduces u counters v) : Reduces t (counter :: counters) v

/-- Every removal of a chain takes at least one byte, and what is left in the end is a program. -/
theorem Reduces.shortens {t u : Text} {counters : List Counter} (h : Reduces t counters u)
    (ht : ∃ p, Program.parse t = .ok p) :
    (∃ q, Program.parse u = .ok q) ∧ u.size + counters.length ≤ t.size := by
  induction h with
  | refl t => exact ⟨ht, by simp⟩
  | step hparse happlied _ ih =>
    obtain ⟨hprogram, target, range, -, hloses⟩ := loses_of_applied happlied
    obtain ⟨hlast, hle⟩ := ih hprogram
    have hlt := hloses.size_lt
    rw [Program.text_of_parse hparse] at hlt
    refine ⟨hlast, ?_⟩
    rw [List.length_cons]
    omega

/-- **Chains of removals stay programs, get shorter and end.** Whatever a chain of removals makes of
a program is a program again, shorter by at least one byte for each removal, so that there are no
more removals than the first text has bytes. The next counter either takes one stretch out of it,
which holds the name of the variable that the counter selects, or ends the chain, because it is out
of range or because the edit fails. -/
theorem reduces_progress (t u : Text) (counters : List Counter)
    (ht : ∃ p, Program.parse t = .ok p) (h : Reduces t counters u) :
    ∃ q, Program.parse u = .ok q ∧ q.text = u ∧
      counters.length ≤ t.size ∧ u.size + counters.length ≤ t.size ∧
      ∀ counter : Counter,
        (∃ v target range, removeUnused q (.apply counter) = .applied v ∧
          (Inventory.ofTree q.root).candidates[counter.val - 1]? = some target ∧
          u.Loses range target.name v ∧ v.size < u.size ∧ ∃ r, Program.parse v = .ok r) ∨
        (∃ count, removeUnused q (.apply counter) = .outOfRange counter count) ∨
        ∃ error, removeUnused q (.apply counter) = .failed error := by
  obtain ⟨⟨q, hparse⟩, hsize⟩ := h.shortens ht
  have htext := Program.text_of_parse hparse
  refine ⟨q, hparse, htext, by omega, hsize, fun counter => ?_⟩
  obtain ⟨-, hrange⟩ | ⟨-, ⟨v, happlied⟩ | ⟨errors, hfailed⟩⟩ := removeUnused_cases q counter
  · exact .inr (.inl ⟨_, hrange⟩)
  · obtain ⟨hprogram, target, range, hselected, hloses⟩ := loses_of_applied happlied
    rw [htext] at hloses
    exact .inl ⟨v, target, range, happlied, hselected, hloses, hloses.size_lt, hprogram⟩
  · exact .inr (.inr ⟨_, hfailed⟩)

/-- Two variables go one after the other, the later one first. In between stands a program from which
the other one can still be taken. -/
theorem reduces_progress_two :
    let p := Program.ofText "int *a, b;".toList (by decide +kernel)
    let q := Program.ofText "int *a;".toList (by decide +kernel)
    (∃ p', Program.parse p.text = .ok p') ∧ Reduces p.text [⟨2, by decide⟩] q.text ∧
      (∃ v range name, removeUnused q (.apply ⟨1, by decide⟩) = .applied v ∧
        q.text.Loses range name v) ∧
      ∃ count, removeUnused q (.apply ⟨2, by decide⟩) = .outOfRange 2 count := by
  intro p q
  have happlied : removeUnused p (.apply ⟨2, by decide⟩) = .applied q.text :=
    Outcome.eq_applied_of_output? (by decide +kernel)
  have hparse : Program.parse p.text = .ok p := Program.parse_eq_ok p.errors_eq_nil
  have hchain : Reduces p.text [⟨2, by decide⟩] q.text := .step hparse happlied (.refl _)
  obtain ⟨q', hparse', -, -, -, hnext⟩ := reduces_progress _ _ _ ⟨p, hparse⟩ hchain
  obtain rfl : q = q' := Except.ok.inj ((Program.parse_eq_ok q.errors_eq_nil).symm.trans hparse')
  refine ⟨⟨p, hparse⟩, hchain, ?_, ?_⟩
  · have hout : (removeUnused q (.apply ⟨1, by decide⟩)).output? = some [] := by decide +kernel
    rcases hnext ⟨1, by decide⟩ with ⟨v, target, range, hv, -, hloses, -⟩ | ⟨count, hrange⟩ |
      ⟨error, hfailed⟩
    · exact ⟨v, range, target.name, hv, hloses⟩
    · rw [hrange] at hout
      cases hout
    · rw [hfailed] at hout
      cases hout
  · have hcount : (unusedVariables q.root).length = 1 := by decide +kernel
    rw [length_unusedVariables] at hcount
    rcases removeUnused_cases q ⟨2, by decide⟩ with ⟨-, hrange⟩ | ⟨hle, -⟩
    · exact ⟨_, hrange⟩
    · rw [hcount] at hle
      exact absurd hle (by decide)

end Whittle
