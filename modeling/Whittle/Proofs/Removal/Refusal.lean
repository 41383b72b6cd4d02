import Whittle.Proofs.Removal.Safety

/-!
# When removals are refused

What is left after a removal is read again, and it is handed out only if it is sound. A removal may
well break the syntax of a program: nothing is put in the place of the first of several declarators,
so that the specifiers before it may run into the name after it.

* `removeUnused_checked`: **the edited program is handed out just if it is sound, and else its
  errors are.**
* `removal_breaks_syntax`: a removal may break the syntax.
-/

namespace Whittle

/-- The errors that a removal failed with, if it failed with errors. -/
def Outcome.diagnostics? : Outcome → Option (List SyntaxError)
  | .failed (.diagnostics errors) => some errors
  | _ => none

theorem Outcome.eq_failed_of_diagnostics? {o : Outcome} {errors : List SyntaxError}
    (h : o.diagnostics? = some errors) : o = .failed (.diagnostics errors) := by
  unfold diagnostics? at h
  split at h
  · rw [Option.some.inj h]
  · cases h

/-- **The edited program is handed out just if it is sound, and else its errors are.** A counter in
range selects a variable, and the span that goes with it is deleted from the text. The text that is
left is the outcome just if it has no syntax errors and no more labels than before stand directly
before the end of their block. Otherwise the removal fails with all of its syntax errors or, if it
has none, with the errors for these labels. -/
theorem removeUnused_checked (p : Program) (counter : Counter)
    (h : counter ≤ (unusedVariables p.root).length) :
    ∃ u group range out, (unusedVariables p.root)[counter.val - 1]? = some u ∧
      (Inventory.ofTree p.root).groupOf? u.declaration.id = some group ∧
      u.declaration.removal group = .ok range ∧ p.text.Without range out ∧
      (∀ text, removeUnused p (.apply counter) = .applied text ↔
        text = out ∧ (parse out).errors = [] ∧
          (parse out).root.danglingLabels.length ≤ p.root.danglingLabels.length) ∧
      ∀ errors, removeUnused p (.apply counter) = .failed (.diagnostics errors) ↔
        ((parse out).errors ≠ [] ∧ errors = (parse out).errors) ∨
        ((parse out).errors = [] ∧
          p.root.danglingLabels.length < (parse out).root.danglingLabels.length ∧
          errors = out.labelErrors) := by
  obtain ⟨u, group, range, out, hu, hgroup, hrange, hout, houtcome⟩ :=
    removeUnused_of_le p counter h
  refine ⟨u, group, range, out, hu, hgroup, hrange, hout, fun text => ?_, fun errors => ?_⟩
  · rw [← checkEdit_eq_ok, houtcome]
    cases checkEdit p.root out with
    | ok => simp [eq_comm]
    | error error => simp
  · rw [← checkEdit_eq_error, houtcome]
    cases checkEdit p.root out <;> simp

/-- A label that stood before the end of its block already does not keep a removal from being handed
out. -/
theorem removeUnused_checked_label :
    let p := Program.ofText "void f(void)\x7b int a; l: \x7d".toList (by decide +kernel)
    1 ≤ (unusedVariables p.root).length ∧
    ∃ range out, p.text.Without range out ∧ out = "void f(void)\x7b l: \x7d".toList ∧
      removeUnused p (.apply ⟨1, by decide⟩) = .applied out ∧ (parse out).errors = [] ∧
      (parse out).root.danglingLabels.length ≤ p.root.danglingLabels.length := by
  intro p
  have hcount : 1 ≤ (unusedVariables p.root).length := by decide +kernel
  have happlied : removeUnused p (.apply ⟨1, by decide⟩) =
      .applied "void f(void)\x7b l: \x7d".toList :=
    Outcome.eq_applied_of_output? (by decide +kernel)
  obtain ⟨u, group, range, out, -, -, -, hout, hiff, -⟩ :=
    removeUnused_checked p ⟨1, by decide⟩ hcount
  obtain ⟨rfl, herrors, hlabels⟩ := (hiff _).1 happlied
  exact ⟨hcount, range, _, hout, rfl, happlied, herrors, hlabels⟩

/-- **A removal may break the syntax of a program.** Without the first declarator and its comma,
`int` runs into the name after it and the declaration becomes an assignment. Braces cannot stand on
the right of one, so that the variable, though listed, is never removed. No label is involved. -/
theorem removal_breaks_syntax :
    let p := Program.ofText "void f(void)\x7bint*a,b=\x7b1\x7d;\x7d".toList (by decide +kernel)
    ∃ u group range out, (unusedVariables p.root)[0]? = some u ∧
      (Inventory.ofTree p.root).groupOf? u.declaration.id = some group ∧
      u.declaration.removal group = .ok range ∧ p.text.Without range out ∧
      (parse out).errors.map (·.fault) =
        [.noExpression, .expressionEnd, .expressionEnd, .noDeclaration] ∧
      removeUnused p (.apply ⟨1, by decide⟩) = .failed (.diagnostics (parse out).errors) := by
  intro p
  have hread : 1 ≤ (unusedVariables p.root).length ∧
      (removeUnused p (.apply ⟨1, by decide⟩)).diagnostics?.map (·.map (·.fault)) =
        some [.noExpression, .expressionEnd, .expressionEnd, .noDeclaration] := by
    decide +kernel
  obtain ⟨errors, herrors, hfaults⟩ := Option.map_eq_some_iff.1 hread.2
  obtain ⟨u, group, range, out, hu, hgroup, hrange, hout, houtcome⟩ :=
    removeUnused_of_le p ⟨1, by decide⟩ hread.1
  have hfailed := Outcome.eq_failed_of_diagnostics? herrors
  have hcheck : checkEdit p.root out = .error (.diagnostics errors) := by
    rw [houtcome] at hfailed
    cases hcheck : checkEdit p.root out with
    | ok => rw [hcheck] at hfailed; cases hfailed
    | error error => rw [hcheck] at hfailed; exact congrArg _ (Outcome.failed.inj hfailed)
  rcases checkEdit_eq_error.1 hcheck with ⟨-, rfl⟩ | ⟨-, -, rfl⟩
  · exact ⟨u, group, range, out, hu, hgroup, hrange, hout, hfaults, hfailed⟩
  · -- the faults of labels are of another kind
    have hlabel : Fault.noExpression ∈ out.labelErrors.map (·.fault) := by simp [hfaults]
    simp [Text.labelErrors] at hlabel

end Whittle
