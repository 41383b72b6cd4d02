import Whittle.Removal.Outcome

/-!
# Repeated removal

* `sweep`: what comes of removing each unused variable of a program, one at a time.
* `reduce`: removes one unused variable after another as long as that succeeds.
-/

namespace Whittle

/-- The outcomes of removing the first, second, … unused variable of a program, each from the
program as it is. The last one is of a counter that is out of range. -/
def sweep (p : Program) : List Outcome :=
  (List.range ((Inventory.ofTree p.root).count + 1)).map fun n =>
    removeUnused p (.apply ⟨n + 1, n.succ_pos⟩)

/-- Which unused variable a reduction removes next. -/
inductive Pick where
  | first
  | last

/-- The counter that a pick stands for; one if there is nothing to pick. -/
def Pick.counter (pick : Pick) (count : Nat) : Counter :=
  match pick with
  | .first => ⟨1, Nat.one_pos⟩
  | .last => ⟨max count 1, by omega⟩

/-- One step of a reduction: the outcome of a removal, or the errors of a text that is no
program. -/
abbrev ReductionStep := Except (List SyntaxError) Outcome

/-- Remove the picked unused variable of a text. -/
def reduceOnce (pick : Pick) (t : Text) : ReductionStep := do
  let p ← Program.parse t
  return removeUnused p (.apply (pick.counter (Inventory.ofTree p.root).count))

/-- Remove at most `n` unused variables of a text, one after the other. Gives all steps and the text
they end with. -/
def reduce (pick : Pick) : Nat → Text → List ReductionStep × Text
  | 0, t => ([], t)
  | n + 1, t =>
    match reduceOnce pick t with
    | .ok (.applied output) =>
      let r := reduce pick n output
      (.ok (.applied output) :: r.1, r.2)
    | step => ([step], t)

end Whittle
