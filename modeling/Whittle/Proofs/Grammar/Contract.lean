import Whittle.Grammar.Reading

/-!
# What a rule achieves, given what the constructs it reads achieve

A `Contract` says when a construct may be read and what comes of it. `Rule.wp` carries a rule out on
contracts in place of readings, so that each rule of the grammar is looked at by itself.

* `Rule.wp`: the weakest condition on a state under which a rule ends as wanted. Under a strict
  contract nothing is asked after a fault.
* `Steady`: relations between states that every single effect keeps, and so every run.
* `Rule.run_of_wp`: what `wp` promises holds of the run, if the constructs that are read keep their
  contracts.
* `Rule.run_congr`: two readers that agree where a rule reads give the same run.
-/

namespace Whittle.Grammar

/-- When a construct may be read, and what then comes of it. -/
structure Contract where
  pre : Construct → State → Prop
  post : (c : Construct) → State → c.Result → State → Prop
  /-- Only readings without faults are spoken of. -/
  strict : Bool

namespace State

/-- The kind of the next symbol. -/
def next (s : State) : Option TokenKind := s.view.kindAt 0

/-- The state in which the inside of a segment starts. -/
def opened (s : State) : State := { s.act .settle with built := [] }

/-- The state after a segment, from the state its inside ends in. -/
def joined (inner outer : State) : State :=
  { inner with built := inner.built ++ (outer.act .settle).built }

/-- The state in which the inside of a scope starts. -/
def entered (s : State) (names : Names) : State := { s with scopes := names :: s.scopes }

/-- The state after a scope, from the state its inside ends in. -/
def closed (s : State) : State := { s with scopes := s.scopes.tail }

/-- The state after a declaration of a name, if there is a name. -/
def declaring (s : State) (name : Option Nat) (isTypedef : Bool) : State :=
  match name with
  | some n => s.act (.declare n isTypedef)
  | none => s

theorem next_eq_some {s : State} {k : TokenKind} (h : s.next = some k) :
    ∃ x rest, s.ahead = x :: rest ∧ x.kind = k := by
  unfold next View.kindAt view at h
  cases hs : s.ahead with
  | nil => simp [hs] at h
  | cons x rest => exact ⟨x, rest, rfl, by simpa [hs] using h⟩

theorem next_eq_none {s : State} : s.next = none ↔ s.ahead = [] := by
  unfold next View.kindAt view
  cases s.ahead <;> simp

@[grind →]
theorem length_pos_of_next_ne_none {s : State} (h : ¬s.next = none) : 0 < s.ahead.length :=
  List.length_pos_iff.2 fun hs => h (next_eq_none.2 hs)

@[grind →]
theorem length_pos_of_next {s : State} {k : TokenKind} (h : s.next = some k) :
    0 < s.ahead.length :=
  length_pos_of_next_ne_none (by simp [h])

theorem act_bump {s : State} {x : Symbol} {rest : List Symbol} (h : s.ahead = x :: rest) :
    s.act .bump = { s with ahead := rest, built := .leaf x :: s.built } := by
  simp [act, h]

@[simp] theorem ahead_bump (s : State) : (s.act .bump).ahead = s.ahead.tail := by
  unfold act; cases s.ahead <;> rfl

@[simp] theorem ahead_settle (s : State) : (s.act .settle).ahead = s.ahead := rfl

@[simp] theorem ahead_gather (s : State) (k : NodeKind) : (s.act (.gather k)).ahead = s.ahead := rfl

@[simp] theorem ahead_fault (s : State) (f : Fault) : (s.act (.fault f)).ahead = s.ahead := rfl

@[simp] theorem ahead_declare (s : State) (n : Nat) (b : Bool) :
    (s.act (.declare n b)).ahead = s.ahead := by
  unfold act; cases s.scopes <;> rfl

@[simp] theorem ahead_declaring (s : State) (n : Option Nat) (b : Bool) :
    (s.declaring n b).ahead = s.ahead := by
  cases n <;> simp [declaring]

@[simp] theorem ahead_opened (s : State) : s.opened.ahead = s.ahead := rfl

@[simp] theorem ahead_joined (i o : State) : (i.joined o).ahead = i.ahead := rfl

@[simp] theorem ahead_entered (s : State) (names : Names) : (s.entered names).ahead = s.ahead := rfl

@[simp] theorem ahead_closed (s : State) : s.closed.ahead = s.ahead := rfl

@[simp] theorem ahead_view (s : State) : s.view.ahead = s.ahead := rfl

@[simp] theorem scopes_bump (s : State) : (s.act .bump).scopes = s.scopes := by
  unfold act; cases s.ahead <;> rfl

@[simp] theorem scopes_settle (s : State) : (s.act .settle).scopes = s.scopes := rfl

@[simp] theorem scopes_gather (s : State) (k : NodeKind) :
    (s.act (.gather k)).scopes = s.scopes := rfl

@[simp] theorem scopes_fault (s : State) (f : Fault) : (s.act (.fault f)).scopes = s.scopes := rfl

@[simp] theorem scopes_opened (s : State) : s.opened.scopes = s.scopes := rfl

@[simp] theorem scopes_joined (i o : State) : (i.joined o).scopes = i.scopes := rfl

@[simp] theorem scopes_entered (s : State) (ns : Names) :
    (s.entered ns).scopes = ns :: s.scopes := rfl

@[simp] theorem scopes_closed (s : State) : s.closed.scopes = s.scopes.tail := rfl

@[simp] theorem kindAt_zero (s : State) : s.view.kindAt 0 = s.next := rfl

@[simp] theorem kindAt_opened (s : State) (n : Nat) :
    s.opened.view.kindAt n = s.view.kindAt n := rfl

@[simp] theorem next_bump (s : State) : (s.act .bump).next = s.view.kindAt 1 := by
  unfold act next view View.kindAt
  cases s.ahead <;> rfl

@[simp] theorem next_settle (s : State) : (s.act .settle).next = s.next := rfl

@[simp] theorem next_gather (s : State) (k : NodeKind) : (s.act (.gather k)).next = s.next := rfl

@[simp] theorem next_fault (s : State) (f : Fault) : (s.act (.fault f)).next = s.next := rfl

@[simp] theorem next_declaring (s : State) (n : Option Nat) (b : Bool) :
    (s.declaring n b).next = s.next := by
  simp [next, view, View.kindAt]

@[simp] theorem next_opened (s : State) : s.opened.next = s.next := rfl

@[simp] theorem next_joined (i o : State) : (i.joined o).next = i.next := rfl

@[simp] theorem next_entered (s : State) (names : Names) : (s.entered names).next = s.next := rfl

@[simp] theorem next_closed (s : State) : s.closed.next = s.next := rfl

end State

namespace Rule

variable {α β : Type} {K : Contract} {s : State} {Q : α → State → Prop}

/-- **The weakest condition** on a state under which a rule ends with `Q`, if reading a construct
gives what its contract says. -/
def wp (K : Contract) {α : Type} : Rule α → State → (α → State → Prop) → Prop
  | .done a, s, Q => Q a s
  | .look next, s, Q => (next s.view).wp K s Q
  | .act (.fault f) next, s, Q => K.strict = true ∨ next.wp K (s.act (.fault f)) Q
  | .act .bump next, s, Q => next.wp K (s.act .bump) Q
  | .act .settle next, s, Q => next.wp K (s.act .settle) Q
  | .act (.gather k) next, s, Q => next.wp K (s.act (.gather k)) Q
  | .act (.declare n b) next, s, Q => next.wp K (s.act (.declare n b)) Q
  | .segment inner next, s, Q =>
    inner.wp K { s with built := [] } fun b s' =>
      (next b).wp K { s' with built := s'.built ++ s.built } Q
  | .scope names inner next, s, Q =>
    inner.wp K { s with scopes := names :: s.scopes } fun b s' =>
      (next b (s'.scopes.head?.getD [])).wp K { s' with scopes := s'.scopes.tail } Q
  | .call c next, s, Q => K.pre c s ∧ ∀ r s', K.post c s r s' → (next r).wp K s' Q

/-- More comes of a rule for which less is wanted. -/
theorem wp_mono {r : Rule α} {Q' : α → State → Prop} (h : r.wp K s Q)
    (hQ : ∀ a s', Q a s' → Q' a s') : r.wp K s Q' := by
  induction r generalizing s with
  | done a => exact hQ _ _ h
  | look next ih => exact ih s.view h hQ
  | act action next ih =>
    cases action with
    | fault f => exact h.imp_right fun h => ih h hQ
    | bump => exact ih h hQ
    | settle => exact ih h hQ
    | gather k => exact ih h hQ
    | declare n b => exact ih h hQ
  | segment inner next ihi ihn => exact ihi h fun b s' h' => ihn b h' hQ
  | scope names inner next ihi ihn => exact ihi h fun b s' h' => ihn b _ h' hQ
  | call c next ih => exact ⟨h.1, fun r s' hpost => ih r (h.2 r s' hpost) hQ⟩

theorem wp_of_forall (hpre : ∀ c s, K.pre c s) (r : Rule α) (hQ : ∀ a s, Q a s) : r.wp K s Q := by
  induction r generalizing s with
  | done a => exact hQ a s
  | look next ih => exact ih s.view hQ
  | act action next ih =>
    cases action with
    | fault f => exact .inr (ih hQ)
    | bump => exact ih hQ
    | settle => exact ih hQ
    | gather k => exact ih hQ
    | declare n b => exact ih hQ
  | segment inner next ihi ihn => exact ihi fun b s' => ihn b hQ
  | scope names inner next ihi ihn => exact ihi fun b s' => ihn b _ hQ
  | call c next ih => exact ⟨hpre c s, fun r s' _ => ih r hQ⟩

/-- Two things that come of a rule come of it together. -/
theorem wp_and {r : Rule α} {Q' : α → State → Prop} (h : r.wp K s Q) (h' : r.wp K s Q') :
    r.wp K s fun a s' => Q a s' ∧ Q' a s' := by
  induction r generalizing s with
  | done a => exact ⟨h, h'⟩
  | look next ih => exact ih s.view h h'
  | act action next ih =>
    cases action with
    | fault f =>
      rcases h with hstrict | h
      · exact .inl hstrict
      · exact h'.imp_right fun h' => ih h h'
    | bump => exact ih h h'
    | settle => exact ih h h'
    | gather k => exact ih h h'
    | declare n b => exact ih h h'
  | segment inner next ihi ihn =>
    rw [wp]
    exact wp_mono (ihi h h') fun b s' hs' => ihn b hs'.1 hs'.2
  | scope names inner next ihi ihn =>
    rw [wp]
    exact wp_mono (ihi h h') fun b s' hs' => ihn b _ hs'.1 hs'.2
  | call c next ih => exact ⟨h.1, fun r s' hpost => ih r (h.2 r s' hpost) (h'.2 r s' hpost)⟩

/-- What comes of a rule in each case comes of it in all cases, if constructs may be read
everywhere. -/
theorem wp_forall {ι : Sort _} (hpre : ∀ c s, K.pre c s) {r : Rule α} {Q : ι → α → State → Prop}
    (h : ∀ i, r.wp K s (Q i)) : r.wp K s fun a s' => ∀ i, Q i a s' := by
  induction r generalizing s with
  | done a => exact h
  | look next ih => exact ih s.view h
  | act action next ih =>
    cases action with
    | fault f =>
      by_cases hstrict : K.strict = true
      · exact .inl hstrict
      · exact .inr (ih fun i => (h i).resolve_left hstrict)
    | bump => exact ih h
    | settle => exact ih h
    | gather k => exact ih h
    | declare n b => exact ih h
  | segment inner next ihi ihn =>
    rw [wp]
    exact wp_mono (ihi h) fun b s' hs' => ihn b hs'
  | scope names inner next ihi ihn =>
    rw [wp]
    exact wp_mono (ihi h) fun b s' hs' => ihn b _ hs'
  | call c next ih => exact ⟨hpre c s, fun r s' hr => ih r fun i => (h i).2 r s' hr⟩

/-- What comes of a rule under a contract comes of it under one that asks for less and gives
more. -/
theorem wp_of_contract {P : Contract} (hstrict : P.strict = false)
    (hpre : ∀ c s, P.pre c s → K.pre c s)
    (hpost : ∀ c s r s', P.pre c s → K.post c s r s' → P.post c s r s') {r : Rule α}
    (h : r.wp P s Q) : r.wp K s Q := by
  induction r generalizing s with
  | done a => exact h
  | look next ih => exact ih s.view h
  | act action next ih =>
    cases action with
    | fault f => exact .inr (ih (h.resolve_left (by simp [hstrict])))
    | bump => exact ih h
    | settle => exact ih h
    | gather k => exact ih h
    | declare n b => exact ih h
  | segment inner next ihi ihn =>
    exact ihi (wp_mono h fun b s' hs' => ihn b hs')
  | scope names inner next ihi ihn =>
    exact ihi (wp_mono h fun b s' hs' => ihn b _ hs')
  | call c next ih =>
    exact ⟨hpre c s h.1, fun r s' hr => ih r (h.2 r s' (hpost c s r s' h.1 hr))⟩

/-! ### The conditions of the steps from which rules are made -/

@[simp] theorem wp_pure (a : α) : (pure a : Rule α).wp K s Q ↔ Q a s := Iff.rfl

@[simp] theorem wp_bind {r : Rule α} {f : α → Rule β} {Q : β → State → Prop} :
    (r >>= f).wp K s Q ↔ r.wp K s fun a s' => (f a).wp K s' Q := by
  change (r.bind f).wp K s Q ↔ _
  induction r generalizing s with
  | done a => exact Iff.rfl
  | look next ih => exact ih s.view
  | act action next ih =>
    cases action with
    | fault g => exact or_congr_right ih
    | bump => exact ih
    | settle => exact ih
    | gather k => exact ih
    | declare n b => exact ih
  | segment inner next _ ih =>
    simp only [Rule.bind, wp, ih]
  | scope names inner next _ ih =>
    simp only [Rule.bind, wp, ih]
  | call c next ih =>
    simp only [Rule.bind, wp, ih]

@[simp] theorem wp_ite {p : Prop} [Decidable p] {r t : Rule α} :
    (if p then r else t).wp K s Q ↔ (p → r.wp K s Q) ∧ (¬p → t.wp K s Q) := by
  by_cases h : p <;> simp [h]

@[simp] theorem wp_view {Q : View → State → Prop} : view.wp K s Q ↔ Q s.view s := Iff.rfl

@[simp] theorem wp_next {Q : Option TokenKind → State → Prop} :
    next.wp K s Q ↔ Q s.next s := Iff.rfl

@[simp] theorem wp_sees {k : TokenKind} {Q : Bool → State → Prop} :
    (sees k).wp K s Q ↔ Q (decide (s.next = some k)) s := by
  change Q (s.next == some k) s ↔ _
  rw [Bool.beq_eq_decide_eq]

@[simp] theorem wp_remaining {Q : Nat → State → Prop} :
    remaining.wp K s Q ↔ Q s.ahead.length s := Iff.rfl

@[simp] theorem wp_endsAt {k : TokenKind} {Q : Bool → State → Prop} :
    (endsAt k).wp K s Q ↔ Q (decide (s.next = none ∨ s.next = some k)) s := by
  change Q (s.ahead.isEmpty || s.next == some k) s ↔ _
  have h : (s.ahead.isEmpty || s.next == some k) = decide (s.next = none ∨ s.next = some k) := by
    rw [Bool.eq_iff_iff]
    simp [State.next_eq_none]
  rw [h]

@[simp] theorem wp_bump {Q : Unit → State → Prop} : bump.wp K s Q ↔ Q () (s.act .bump) := Iff.rfl

@[simp] theorem wp_settle {Q : Unit → State → Prop} :
    settle.wp K s Q ↔ Q () (s.act .settle) := Iff.rfl

@[simp] theorem wp_gather {k : NodeKind} {Q : Unit → State → Prop} :
    (gather k).wp K s Q ↔ Q () (s.act (.gather k)) := Iff.rfl

@[simp] theorem wp_fault {f : Fault} {Q : Unit → State → Prop} :
    (fault f).wp K s Q ↔ K.strict = true ∨ Q () (s.act (.fault f)) := Iff.rfl

@[simp] theorem wp_declare {n : Option Nat} {b : Bool} {Q : Unit → State → Prop} :
    (declare n b).wp K s Q ↔ Q () (s.declaring n b) := by
  cases n <;> exact Iff.rfl

@[simp] theorem wp_read {c : Construct} {Q : c.Result → State → Prop} :
    @wp K (no_index c.Result) (read c) s Q ↔ K.pre c s ∧ ∀ r s', K.post c s r s' → Q r s' := Iff.rfl

@[simp] theorem wp_apart {r : Rule α} :
    (apart r).wp K s Q ↔ r.wp K s.opened fun a s' => Q a (s'.joined s) := Iff.rfl

@[simp] theorem wp_node {k : NodeKind} {r : Rule α} :
    (node k r).wp K s Q ↔
      r.wp K s.opened fun a s' => Q a ((s'.act (.gather k)).joined s) := by
  simp [node]

@[simp] theorem wp_leafNode {k : NodeKind} {Q : Unit → State → Prop} :
    (leafNode k).wp K s Q ↔ Q () (((s.opened.act .bump).act (.gather k)).joined s) := by
  simp [leafNode]

@[simp] theorem wp_inScope {names : Names} {r : Rule Unit} {Q : Names → State → Prop} :
    (inScope names r).wp K s Q ↔
      r.wp K (s.entered names) fun _ s' => Q (s'.scopes.head?.getD []) s'.closed := Iff.rfl

@[simp] theorem wp_accept {k : TokenKind} {Q : Bool → State → Prop} :
    (accept k).wp K s Q ↔
      (s.next = some k → Q true (s.act .bump)) ∧ (s.next ≠ some k → Q false s) := by
  simp [accept]

@[simp] theorem wp_ifSees {k : TokenKind} {r : Rule Unit} {Q : Unit → State → Prop} :
    (ifSees k r).wp K s Q ↔
      (s.next = some k → r.wp K s Q) ∧ (s.next ≠ some k → Q () s) := by
  simp [ifSees]

@[simp] theorem wp_unlessSees {k : TokenKind} {r : Rule Unit} {Q : Unit → State → Prop} :
    (unlessSees k r).wp K s Q ↔
      (s.next = some k → Q () s) ∧ (s.next ≠ some k → r.wp K s Q) := by
  simp [unlessSees]

@[simp] theorem wp_ifAccepts {k : TokenKind} {r : Rule Unit} {Q : Unit → State → Prop} :
    (ifAccepts k r).wp K s Q ↔
      (s.next = some k → r.wp K (s.act .bump) Q) ∧ (s.next ≠ some k → Q () s) := by
  simp [ifAccepts]

@[simp] theorem wp_optional {k : TokenKind} {Q : Unit → State → Prop} :
    (optional k).wp K s Q ↔
      (s.next = some k → Q () (s.act .bump)) ∧ (s.next ≠ some k → Q () s) := by
  simp [optional]

@[simp] theorem wp_require {k : TokenKind} {f : Fault} {Q : Unit → State → Prop} :
    (require k f).wp K s Q ↔
      (s.next = some k → Q () (s.act .bump)) ∧
        (s.next ≠ some k → K.strict = true ∨ Q () (s.act (.fault f))) := by
  simp [require]

@[simp] theorem wp_requireThen {k : TokenKind} {f : Fault} {r : Rule Unit}
    {Q : Unit → State → Prop} :
    (requireThen k f r).wp K s Q ↔
      (s.next = some k → r.wp K (s.act .bump) Q) ∧
        (s.next ≠ some k → K.strict = true ∨ Q () (s.act (.fault f))) := by
  simp [requireThen]

@[simp] theorem wp_reject {f : Fault} {Q : Unit → State → Prop} :
    (reject f).wp K s Q ↔ K.strict = true ∨
      Q () ((((s.act (.fault f)).opened.act .bump).act (.gather .error)).joined
        (s.act (.fault f))) := by
  simp [reject]

@[simp] theorem wp_orReject {f : Fault} {r : Rule Unit} {Q : Unit → State → Prop} :
    (orReject r f).wp K s Q ↔ r.wp K s fun _ s' =>
      (s'.ahead.length = s.ahead.length → (reject f).wp K s' Q) ∧
        (s'.ahead.length ≠ s.ahead.length → Q () s') := by
  simp [orReject]

end Rule

/-! ### What holds of runs -/

/-- A relation between the state before and the state after that every single effect keeps. -/
structure Steady (R : State → State → Prop) : Prop where
  refl : ∀ s, R s s
  trans : ∀ {s t u}, R s t → R t u → R s u
  act : ∀ s a, R s (s.act a)
  segment : ∀ {s s'}, R { s with built := [] } s' → R s { s' with built := s'.built ++ s.built }
  scope : ∀ {s s'} (names : Names), R { s with scopes := names :: s.scopes } s' →
    R s { s' with scopes := s'.scopes.tail }
  stall : ∀ s, R s { s with stalled := true }

namespace Rule

variable {α : Type} {read : Reader} {R : State → State → Prop}

theorem run_steady (hR : Steady R) (hread : ∀ c s, R s (read c s).2) (r : Rule α) (s : State) :
    R s (r.run read s).2 := by
  induction r generalizing s with
  | done a => exact hR.refl s
  | look next ih => exact ih s.view s
  | act action next ih => exact hR.trans (hR.act s action) (ih _)
  | segment inner next ihi ihn => exact hR.trans (hR.segment (ihi _)) (ihn _ _)
  | scope names inner next ihi ihn => exact hR.trans (hR.scope names (ihi _)) (ihn _ _ _)
  | call c next ih => exact hR.trans (hread c s) (ih _ _)

/-- No effect takes back a fault. -/
theorem steady_faults : Steady fun s s' => s.faults.length ≤ s'.faults.length where
  refl _ := Nat.le_refl _
  trans := Nat.le_trans
  act s a := by
    cases a with
    | bump => unfold State.act; cases s.ahead <;> exact Nat.le_refl _
    | settle => exact Nat.le_refl _
    | gather k => exact Nat.le_refl _
    | fault f => exact Nat.le_succ _
    | declare n b => unfold State.act; cases s.scopes <;> exact Nat.le_refl _
  segment h := h
  scope _ h := h
  stall _ := Nat.le_refl _

/-- A run without new faults. -/
def Quiet (before after : State) : Prop := after.faults.length = before.faults.length

/-- **What the conditions promise holds of the run.** The first contract says when constructs may be
read at all, the second what is wanted of them. -/
theorem run_of_wp {P K : Contract} (hP : P.strict = false)
    (mono : ∀ c s, s.faults.length ≤ (read c s).2.faults.length)
    (hp : ∀ c s, P.pre c s → P.post c s (read c s).1 (read c s).2)
    (hk : ∀ c s, P.pre c s → K.pre c s → (K.strict = true → Quiet s (read c s).2) →
      K.post c s (read c s).1 (read c s).2)
    {r : Rule α} {s : State} {Q₁ Q₂ : α → State → Prop} (h₁ : r.wp P s Q₁) (h₂ : r.wp K s Q₂)
    (quiet : K.strict = true → Quiet s (r.run read s).2) :
    Q₁ (r.run read s).1 (r.run read s).2 ∧ Q₂ (r.run read s).1 (r.run read s).2 := by
  have grows {β : Type} (t : Rule β) (u : State) :
      u.faults.length ≤ (t.run read u).2.faults.length := run_steady steady_faults mono t u
  have between {a b c : Nat} (hab : a ≤ b) (hbc : b ≤ c) (hca : c = a) : b = a ∧ c = b := by omega
  unfold Quiet at *
  induction r generalizing s with
  | done a => exact ⟨h₁, h₂⟩
  | look next ih => exact ih s.view h₁ h₂ quiet
  | act action next ih =>
    cases action with
    | fault f =>
      have h₁' : next.wp P (s.act (.fault f)) Q₁ := h₁.resolve_left (by simp [hP])
      rcases h₂ with hs | h₂
      · -- a strict contract asks nothing after a fault, but the run is quiet
        have hq := quiet hs
        have hg := grows next (s.act (.fault f))
        simp only [run, State.act, List.length_cons] at hq hg
        omega
      · refine ih h₁' h₂ fun hs => ?_
        have hq := quiet hs
        have hg := grows next (s.act (.fault f))
        simp only [run, State.act, List.length_cons] at hq hg ⊢
        omega
    | bump =>
      refine ih h₁ h₂ fun hs => (quiet hs).trans ?_
      unfold State.act; cases s.ahead <;> rfl
    | settle => exact ih h₁ h₂ quiet
    | gather k => exact ih h₁ h₂ quiet
    | declare n b =>
      refine ih h₁ h₂ fun hs => (quiet hs).trans ?_
      unfold State.act; cases s.scopes <;> rfl
  | segment inner next ihi ihn =>
    have hi := grows inner { s with built := [] }
    have hn := grows (next (inner.run read { s with built := [] }).1)
      { (inner.run read { s with built := [] }).2 with
        built := (inner.run read { s with built := [] }).2.built ++ s.built }
    have mid := ihi h₁ h₂ fun hs => (between hi hn (quiet hs)).1
    exact ihn _ mid.1 mid.2 fun hs => (between hi hn (quiet hs)).2
  | scope names inner next ihi ihn =>
    have hi := grows inner { s with scopes := names :: s.scopes }
    have hn := grows (next (inner.run read { s with scopes := names :: s.scopes }).1
        ((inner.run read { s with scopes := names :: s.scopes }).2.scopes.head?.getD []))
      { (inner.run read { s with scopes := names :: s.scopes }).2 with
        scopes := (inner.run read { s with scopes := names :: s.scopes }).2.scopes.tail }
    have mid := ihi h₁ h₂ fun hs => (between hi hn (quiet hs)).1
    exact ihn _ _ mid.1 mid.2 fun hs => (between hi hn (quiet hs)).2
  | call c next ih =>
    have hi := mono c s
    have hn := grows (next (read c s).1) (read c s).2
    have hpost := hk c s h₁.1 h₂.1 fun hs => (between hi hn (quiet hs)).1
    exact ih _ (h₁.2 _ _ (hp c s h₁.1)) (h₂.2 _ _ hpost) fun hs => (between hi hn (quiet hs)).2

/-- Two readers that agree wherever a rule reads give the same run. -/
theorem run_congr {P : Contract} (hP : P.strict = false) {read' : Reader}
    (hp : ∀ c s, P.pre c s → P.post c s (read c s).1 (read c s).2)
    (agree : ∀ c s, P.pre c s → read' c s = read c s)
    {r : Rule α} {s : State} {Q : α → State → Prop} (h : r.wp P s Q) :
    r.run read' s = r.run read s ∧ Q (r.run read s).1 (r.run read s).2 := by
  induction r generalizing s with
  | done a => exact ⟨rfl, h⟩
  | look next ih => exact ih s.view h
  | act action next ih =>
    cases action with
    | fault f => exact ih (h.resolve_left (by simp [hP]))
    | bump => exact ih h
    | settle => exact ih h
    | gather k => exact ih h
    | declare n b => exact ih h
  | segment inner next ihi ihn =>
    obtain ⟨hrun, hinner⟩ := ihi h
    simp only [run, hrun]
    exact ihn _ hinner
  | scope names inner next ihi ihn =>
    obtain ⟨hrun, hinner⟩ := ihi h
    simp only [run, hrun]
    exact ihn _ _ hinner
  | call c next ih =>
    simp only [run, agree c s h.1]
    exact ih _ (h.2 _ _ (hp c s h.1))

end Rule

end Whittle.Grammar
