import Whittle.Proofs.Grammar.Form
import Mathlib.Logic.Relation

/-!
# Reading ends

Readings lie within each other: a construct is read by its rule, which reads other constructs. A
repetition is a construct that reads itself, so that its rounds lie within each other too.

* `Rule.Calls`: what a rule reads directly, and in which states.
* `Reading.Holds`: one reading lies directly within another.
* `Construct.routine`: a construct without its parameters.
* `Reading.Holds.step`, `Reading.Ready.run`: what one step into a reading keeps, and any number of
  them.
* `Reading.take_of_routine`: **between two readings of one routine, one within the other, a symbol is
  taken.**
* `parse_terminates`: **reading a text ends.**
-/

namespace Whittle

namespace Grammar

/-! ### What a rule reads -/

namespace Rule

variable {α β : Type} {read : Reader} {s u : State} {c : Construct}

/-- Whether a rule, carried out in a state, directly reads a construct in another state. -/
def Calls (read : Reader) {α : Type} : Rule α → State → Construct → State → Prop
  | .done _, _, _, _ => False
  | .look next, s, c, u => (next s.view).Calls read s c u
  | .act action next, s, c, u => next.Calls read (s.act action) c u
  | .segment inner next, s, c, u =>
    let r := inner.run read { s with built := [] }
    inner.Calls read { s with built := [] } c u ∨
      (next r.1).Calls read { r.2 with built := r.2.built ++ s.built } c u
  | .scope names inner next, s, c, u =>
    let r := inner.run read { s with scopes := names :: s.scopes }
    inner.Calls read { s with scopes := names :: s.scopes } c u ∨
      (next r.1 (r.2.scopes.head?.getD [])).Calls read { r.2 with scopes := r.2.scopes.tail } c u
  | .call c' next, s, c, u =>
    (c' = c ∧ s = u) ∨ (next (read c' s).1).Calls read (read c' s).2 c u

theorem calls_bind {r : Rule α} {f : α → Rule β} :
    (r >>= f).Calls read s c u ↔
      r.Calls read s c u ∨ (f (r.run read s).1).Calls read (r.run read s).2 c u := by
  change (r.bind f).Calls read s c u ↔ _
  induction r generalizing s with
  | done a => simp [Rule.bind, Calls, run]
  | look next ih => exact ih s.view
  | act action next ih => exact ih
  | segment inner next _ ih => simp only [Rule.bind, Calls, run, ih, or_assoc]
  | scope names inner next _ ih => simp only [Rule.bind, Calls, run, ih, or_assoc]
  | call c' next ih => simp only [Rule.bind, Calls, run, ih, or_assoc]

/-- A rule reads constructs only where a contract lets it. -/
theorem pre_of_calls {P : Contract} (hP : P.strict = false)
    (hp : ∀ c s, P.pre c s → P.post c s (read c s).1 (read c s).2)
    {r : Rule α} {Q : α → State → Prop} (h : r.wp P s Q) (hc : r.Calls read s c u) :
    P.pre c u := by
  induction r generalizing s with
  | done a => exact hc.elim
  | look next ih => exact ih s.view h hc
  | act action next ih =>
    cases action with
    | fault f => exact ih (h.resolve_left (by simp [hP])) hc
    | bump => exact ih h hc
    | settle => exact ih h hc
    | gather k => exact ih h hc
    | declare n b => exact ih h hc
  | segment inner next ihi ihn =>
    obtain hc | hc := hc
    · exact ihi h hc
    · exact ihn _ (run_congr (r := inner) hP hp (fun _ _ _ => rfl) h).2 hc
  | scope names inner next ihi ihn =>
    obtain hc | hc := hc
    · exact ihi h hc
    · exact ihn _ _ (run_congr (r := inner) hP hp (fun _ _ _ => rfl) h).2 hc
  | call c' next ih =>
    obtain ⟨rfl, rfl⟩ | hc := hc
    · exact h.1
    · exact ih _ (h.2 _ _ (hp _ _ h.1)) hc

/-- Symbols are taken from the front. -/
theorem steady_suffix : Steady fun s s' => s'.ahead <:+ s.ahead where
  refl _ := List.suffix_refl _
  trans h₁ h₂ := h₂.trans h₁
  act s a := by
    cases a with
    | bump => simpa using List.tail_suffix s.ahead
    | settle => exact List.suffix_refl _
    | gather k => exact List.suffix_refl _
    | fault f => exact List.suffix_refl _
    | declare n b => simp
  segment h := h
  scope _ h := h
  stall _ := List.suffix_refl _

/-- A rule reads constructs in states that are further on. -/
theorem ahead_of_calls (hread : ∀ c s, (read c s).2.ahead <:+ s.ahead) {r : Rule α}
    (hc : r.Calls read s c u) : u.ahead <:+ s.ahead := by
  have hrun {β : Type} (t : Rule β) (s : State) : (t.run read s).2.ahead <:+ s.ahead :=
    run_steady steady_suffix hread t s
  induction r generalizing s with
  | done a => exact hc.elim
  | look next ih => exact ih s.view hc
  | act action next ih => exact (ih hc).trans (steady_suffix.act s action)
  | segment inner next ihi ihn =>
    obtain hc | hc := hc
    · exact ihi (s := { s with built := [] }) hc
    · exact (ihn _ hc).trans (hrun inner _)
  | scope names inner next ihi ihn =>
    obtain hc | hc := hc
    · exact ihi (s := { s with scopes := names :: s.scopes }) hc
    · exact (ihn _ _ hc).trans (hrun inner _)
  | call c' next ih =>
    obtain ⟨-, rfl⟩ | hc := hc
    · exact List.suffix_refl _
    · exact (ih _ hc).trans (hread c' s)

end Rule

/-! ### Definitions -/

namespace Construct

open Rule

/-- What a rule comes to holds of the reading. -/
theorem read_of_wp {P : Contract} (hP : P.strict = false)
    (hp : ∀ c s, P.pre c s → P.post c s (c.read s).1 (c.read s).2) {c : Construct} {s : State}
    {Q : c.Result → State → Prop} (hs : c.Starts s.next) (h : c.rule.wp P s Q) :
    Q (c.read s).1 (c.read s).2 := by
  rw [read_eq c s hs]
  exact (run_congr hP hp (fun _ _ _ => rfl) h).2

theorem read_suffix (c : Construct) (s : State) : (c.read s).2.ahead <:+ s.ahead :=
  read_steady steady_suffix c s

/-- What the result of a reading tells about the symbols that were taken: a parameter list that was
not known before lies among them. -/
def Tells : (c : Construct) → State → c.Result → State → Prop
  | .suffixes _ known, s, r, s' => r = known ∨ s'.ahead.length < s.ahead.length
  | .declarator, s, r, s' => r.params.isSome = true → s'.ahead.length < s.ahead.length
  | _, _, _, _ => True

/-- Constructs are read where they start. -/
def advancing : Contract where
  pre c s := c.Starts s.next
  post c s _ s' := c.Advances s s'
  strict := false

theorem suffixes_tells (isFirst : Bool) (known : Option Names) (s : State) :
    (suffixes isFirst known).Tells s ((suffixes isFirst known).read s).1
      ((suffixes isFirst known).read s).2 := by
  refine read_of_wp (P := advancing) rfl read_advances trivial ?_
  rw [rule, Rule.suffixes, wp_bind, wp_next]
  split
  · next h =>
    refine wp_bind.2 (wp_read.2 ⟨h, fun _ s₁ h₁ => wp_read.2 ⟨trivial, fun _ s₂ h₂ => .inr ?_⟩⟩)
    exact Nat.lt_of_le_of_lt h₂.1 (h₁.2 trivial)
  · next h =>
    refine wp_bind.2 (wp_read.2 ⟨h, fun _ s₁ h₁ => wp_read.2 ⟨trivial, fun _ s₂ h₂ => .inr ?_⟩⟩)
    exact Nat.lt_of_le_of_lt h₂.1 (h₁.2 trivial)
  · exact .inl rfl

/-- Constructs take symbols from the front, and suffixes tell. -/
def suffixed : Contract where
  pre _ _ := True
  post c s r s' := s'.ahead.length ≤ s.ahead.length ∧
    (∀ isFirst known, c = suffixes isFirst known → c.Tells s r s')
  strict := false

/-- The core of a declarator knows parameters only from within its parentheses. -/
theorem declaratorCore_tells (s : State) :
    declaratorCore.wp suffixed s fun d s' => s'.ahead.length ≤ s.ahead.length ∧
      (d.params.isSome = true → s'.ahead.length < s.ahead.length) := by
  rw [declaratorCore, wp_bind, wp_view, State.kindAt_zero]
  split
  · rw [wp_bind, wp_leafNode, wp_pure]
    simp
  · next hopen =>
    have hpos := State.length_pos_of_next hopen
    rw [wp_ite]
    refine ⟨fun _ => ?_, fun _ => by simp⟩
    rw [wp_node, wp_bind, wp_bump, wp_bind]
    refine wp_read.2 ⟨trivial, fun _ s₁ h₁ => wp_bind.2 ?_⟩
    refine wp_read.2 ⟨trivial, fun d s₂ h₂ => wp_bind.2 ?_⟩
    have hlt : s₂.ahead.length < s.ahead.length := by
      have hlt := Nat.le_trans h₂.1 h₁.1
      rw [length_bump, State.ahead_opened] at hlt
      omega
    rw [wp_require]
    refine ⟨fun _ => ?_, fun _ => .inr ?_⟩
    · simp only [wp_pure, State.ahead_joined, State.ahead_gather, length_bump]
      omega
    · simp only [wp_pure, State.ahead_joined, State.ahead_gather, State.ahead_fault]
      omega
  · simp

theorem declarator_tells (s : State) :
    declarator.Tells s (declarator.read s).1 (declarator.read s).2 := by
  refine read_of_wp (P := suffixed) rfl (fun c s _ => ⟨(read_suffix c s).length_le, ?_⟩) trivial ?_
  · rintro isFirst known rfl
    exact suffixes_tells isFirst known s
  rw [rule, Rule.declarator, wp_node, wp_bind]
  refine wp_read.2 ⟨trivial, fun _ s₁ h₁ => wp_bind.2 ?_⟩
  refine wp_mono (declaratorCore_tells s₁) fun core s₂ h₂ => wp_bind.2 ?_
  refine wp_read.2 ⟨trivial, fun params s₃ h₃ => wp_bind.2 ?_⟩
  refine wp_read.2 ⟨trivial, fun _ s₄ h₄ => ?_⟩
  obtain ⟨h₁, -⟩ := h₁
  obtain ⟨h₂, hcore⟩ := h₂
  obtain ⟨h₃, htells⟩ := h₃
  obtain ⟨h₄, -⟩ := h₄
  rw [State.ahead_opened] at h₁
  rw [wp_pure, Tells, State.ahead_joined, State.ahead_gather]
  intro hparams
  -- the parameters are those of the core, or suffixes were taken for them
  obtain rfl | hlt := htells true core.params rfl
  · have := hcore hparams
    omega
  · omega

end Construct

/-- Until a symbol is taken, only constructs of a low rank are read. -/
def early (s₀ : State) : Contract where
  pre c s := s.ahead = s₀.ahead → c.rank < 14
  post c s r s' := s'.ahead <:+ s.ahead ∧ (c = .declarator → c.Tells s r s')
  strict := false

theorem State.next_congr {s s' : State} (h : s.ahead = s'.ahead) : s.next = s'.next := by
  simp [next, view, View.kindAt, h]

namespace Rule

variable {s₀ s : State}

theorem initPart_early (name : Option Nat) (isTypedef : Bool) :
    (initPart name isTypedef).wp (early s₀) s fun _ s' => s'.ahead <:+ s.ahead := by
  rw [initPart, wp_bind, wp_declare, wp_bind, wp_ifAccepts]
  refine ⟨fun _ => wp_read.2 ⟨fun _ => by decide, fun _ s₁ h₁ => ?_⟩, fun _ => ?_⟩
  · obtain ⟨h₁, -⟩ := h₁
    rw [State.ahead_bump, State.ahead_declaring] at h₁
    exact h₁.trans (List.tail_suffix _)
  · simp

/-- The first declarator opens a definition only after a symbol was taken. -/
theorem firstDeclarator_early (isTypedef : Bool) (hs : s.ahead <:+ s₀.ahead)
    (hbrace : s₀.next ≠ some .openBrace) :
    (firstDeclarator .file isTypedef).wp (early s₀) s fun d s' =>
      d.isSome = true → s'.ahead ≠ s₀.ahead := by
  rw [firstDeclarator, wp_apart, wp_bind]
  refine wp_read.2 ⟨fun _ => by decide, fun d s₁ h₁ => ?_⟩
  rw [wp_bind, wp_view, wp_ite]
  refine ⟨fun hdef _ heq => ?_, fun _ => wp_bind.2 ?_⟩
  · rw [State.ahead_joined] at heq
    simp only [decide_true, Bool.true_and, Bool.or_eq_true, Bool.and_eq_true,
      State.kindAt_zero] at hdef
    obtain hopen | ⟨hparams, -⟩ := hdef
    · exact hbrace (State.next_congr heq ▸ of_decide_eq_true hopen)
    · have hlt := h₁.2 rfl hparams
      have hle := hs.length_le
      rw [heq, State.ahead_opened] at hlt
      omega
  · exact wp_mono (initPart_early d.name isTypedef) fun _ _ _ h => by cases h

theorem declaration_early (hbrace : s.next ≠ some .openBrace) :
    (declaration .file).wp (early s) s fun _ _ => True := by
  rw [declaration, wp_apart, wp_bind]
  refine wp_read.2 ⟨fun _ => by decide, fun isTypedef s₁ h₁ => ?_⟩
  rw [wp_bind, wp_sees, wp_ite]
  refine ⟨fun _ => ?_, fun _ => wp_bind.2 ?_⟩
  · simp [unlessInHead]
  refine wp_mono (firstDeclarator_early isTypedef h₁.1 hbrace) fun d s₂ htaken => ?_
  cases d with
  | none =>
    refine wp_bind.2 (wp_read.2 ⟨fun _ => by simp [Construct.rank], fun _ s₃ _ => ?_⟩)
    simp [unlessInHead, early]
  | some d =>
    rw [wp_bind, wp_declare, wp_bind]
    refine wp_read.2 ⟨fun heq => absurd ?_ (htaken rfl), fun _ s₃ _ => wp_gather.2 trivial⟩
    rwa [State.ahead_declaring] at heq

end Rule

/-! ### Readings within readings -/

/-- A construct that is read, and the state it is read in. -/
structure Reading where
  construct : Construct
  state : State

/-- A construct without its parameters. -/
def Construct.routine : Construct → Construct
  | .declaration _ => .declaration .block
  | .moreDeclarators _ => .moreDeclarators false
  | .functionBody _ => .functionBody []
  | .specifierList _ _ => .specifierList false false
  | .attributes _ => .attributes false
  | .balanced _ => .balanced 0
  | .suffixes _ _ => .suffixes true none
  | .binary _ => .binary 1
  | .binaryTail _ => .binaryTail 1
  | .series _ => .series .strings
  | c => c

theorem Construct.rank_routine (c : Construct) :
    c.rank = c.routine.rank ∨ c = .declaration .file := by
  cases c with
  | declaration place =>
    cases place with
    | file => exact .inr rfl
    | _ => exact .inl rfl
  | _ => exact .inl rfl

namespace Reading

/-- Whether a reading directly carries out another one. -/
def Holds (outer inner : Reading) : Prop :=
  outer.construct.rule.Calls Construct.read outer.state inner.construct inner.state

/-- Whether a construct is read where it starts. -/
def Ready (r : Reading) : Prop := r.construct.Starts r.state.next

/-- What grows smaller from a reading to those within it. -/
def measure (r : Reading) : Nat := r.construct.measure r.state

variable {r u v : Reading}

/-- **One step into a reading**: what is read starts there, further on or at a lower rank. -/
theorem Holds.step (h : r.Holds u) (hr : r.Ready) :
    u.Ready ∧ u.measure < r.measure ∧ u.state.ahead <:+ r.state.ahead := by
  have hpre := Rule.pre_of_calls (P := progress r.measure) rfl
    (fun c s hpre => Construct.read_advances c s hpre.1) (Construct.rule_progress _ _ hr) h
  exact ⟨hpre.1, hpre.2, Rule.ahead_of_calls Construct.read_suffix h⟩

/-- A declaration at the top of a file reads constructs of a low rank until it takes a symbol. -/
theorem Holds.early {s : State} (h : Holds ⟨.declaration .file, s⟩ u)
    (hr : Ready ⟨.declaration .file, s⟩) (hahead : u.state.ahead = s.ahead) :
    u.construct.rank < 14 := by
  refine Rule.pre_of_calls (P := Grammar.early s) rfl (fun c s _ => ⟨Construct.read_suffix c s, ?_⟩)
    (Rule.declaration_early hr.2) h hahead
  rintro rfl
  exact Construct.declarator_tells s

open Relation

/-- **Any number of steps into a reading.** -/
theorem Ready.run (hr : r.Ready) (h : ReflTransGen Holds r u) :
    u.Ready ∧ u.measure ≤ r.measure ∧ u.state.ahead <:+ r.state.ahead := by
  induction h with
  | refl => exact ⟨hr, Nat.le_refl _, List.suffix_refl _⟩
  | tail _ hstep ih =>
    obtain ⟨hready, hmeasure, hsuffix⟩ := hstep.step ih.1
    exact ⟨hready, by omega, hsuffix.trans ih.2.2⟩

/-- **Between two readings of one routine, one within the other, a symbol is taken.** -/
theorem take_of_routine (hr : r.Ready) (h : TransGen Holds r u)
    (hroutine : u.construct.routine = r.construct.routine) :
    ∃ taken, taken ≠ [] ∧ r.state.ahead = taken ++ u.state.ahead := by
  obtain ⟨v, hfirst, hrest⟩ := TransGen.head'_iff.1 h
  obtain ⟨hv, hvr, hvsuffix⟩ := hfirst.step hr
  obtain ⟨-, huv, husuffix⟩ := hv.run hrest
  obtain ⟨taken, htaken⟩ := husuffix.trans hvsuffix
  refine ⟨taken, ?_, htaken.symm⟩
  rintro rfl
  -- nothing was taken, so that ranks went down on the way
  have hahead : u.state.ahead = r.state.ahead := htaken
  have hvahead : v.state.ahead = r.state.ahead :=
    hvsuffix.eq_of_length_le (hahead ▸ husuffix.length_le)
  simp only [measure, Construct.measure, hahead, hvahead] at hvr huv
  have hmono : u.construct.routine.rank ≤ u.construct.rank := by
    obtain hrank | hrank := u.construct.rank_routine
    · exact Nat.le_of_eq hrank.symm
    · rw [hrank]
      decide
  obtain ⟨c, s⟩ := r
  obtain hrank | rfl := Construct.rank_routine c
  · rw [hroutine] at hmono
    simp only at hrank hmono hvr
    omega
  · -- a declaration within one at the top of a file: the body of its function was not reached
    have hlow := hfirst.early hr hvahead
    have hblock : u.construct.routine.rank = 14 := by rw [hroutine]; rfl
    omega

/-- Readings do not lie within each other without end. -/
theorem length_le_of_chain {f : Nat → Reading} (hr : (f 0).Ready) {n : Nat}
    (h : ∀ k < n, (f k).Holds (f (k + 1))) : (f n).Ready ∧ (f n).measure + n ≤ (f 0).measure := by
  induction n with
  | zero => exact ⟨hr, Nat.le_refl _⟩
  | succ n ih =>
    obtain ⟨hready, hle⟩ := ih fun k hk => h k (by omega)
    obtain ⟨hready', hlt, -⟩ := (h n (by omega)).step hready
    exact ⟨hready', by omega⟩

end Reading

/-- Readings do not stall. -/
def going : Contract where
  pre _ _ := True
  post _ s _ s' := s'.stalled = s.stalled
  strict := false

theorem stalled_act (s : State) (action : Action) : (s.act action).stalled = s.stalled := by
  cases action with
  | bump => unfold State.act; cases s.ahead <;> rfl
  | declare n b => unfold State.act; cases s.scopes <;> rfl
  | _ => rfl

theorem Rule.wp_going {α : Type} (r : Rule α) (s : State) :
    r.wp going s fun _ s' => s'.stalled = s.stalled := by
  induction r generalizing s with
  | done a => rfl
  | look next ih => exact ih s.view s
  | act action next ih =>
    have h := wp_mono (ih (s.act action)) fun _ _ h => h.trans (stalled_act s action)
    cases action with
    | fault f => exact .inr h
    | _ => exact h
  | segment inner next ihi ihn =>
    rw [wp]
    exact wp_mono (ihi _) fun b _ h => wp_mono (ihn b _) fun _ _ h' => h'.trans h
  | scope names inner next ihi ihn =>
    rw [wp]
    exact wp_mono (ihi _) fun b _ h => wp_mono (ihn b _ _) fun _ _ h' => h'.trans h
  | call c next ih => exact ⟨trivial, fun r s' h => wp_mono (ih r s') fun _ _ h' => h'.trans h⟩

/-- Reading a file does not stall. -/
theorem stalled_final (symbols : List Symbol) : (State.final symbols).stalled = false :=
  Construct.read_post (K := going) (fun c s _ _ => c.rule.wp_going s) .declarations
    (.initial symbols) trivial trivial fun h => by cases h

end Grammar

open Grammar Relation

/-- **Reading a text ends**, sound or not. It comes to the end of the text, and no reading is cut
short: each one within it is the run of its rule. Readings lie within each other at most `ranks`
deep for each symbol. Between two of them of one routine, one within the other, at least one symbol
is taken: in each round of a repetition, and each time that routines come back to one of them. -/
theorem parse_terminates (t : Text) :
    let symbols := Symbol.ofTokens (Token.significant (tokens t))
    let start : Reading := ⟨.declarations, .initial symbols⟩
    (State.final symbols).ahead = [] ∧ (State.final symbols).stalled = false ∧
    (∀ (f : Nat → Reading) (n : Nat), f 0 = start → (∀ k < n, (f k).Holds (f (k + 1))) →
      n < (symbols.length + 1) * Construct.ranks) ∧
    ∀ r, ReflTransGen Reading.Holds start r →
      r.construct.read r.state = r.construct.rule.run Construct.read r.state ∧
      ∀ u, TransGen Reading.Holds r u → u.construct.routine = r.construct.routine →
        ∃ taken, taken ≠ [] ∧ r.state.ahead = taken ++ u.state.ahead := by
  intro symbols start
  have hstart : start.Ready := trivial
  refine ⟨ahead_final symbols, stalled_final symbols, fun f n hf hchain => ?_, fun r hr => ?_⟩
  · have hle := (Reading.length_le_of_chain (hf ▸ hstart) hchain).2
    rw [hf] at hle
    simp only [start, Reading.measure, Construct.measure, State.initial, Construct.rank,
      Construct.ranks] at hle ⊢
    omega
  · have hready := (hstart.run hr).1
    exact ⟨Construct.read_eq _ _ hready, fun u hu => Reading.take_of_routine hready hu⟩

/-- A brace that closes nothing: the first round of the declarations takes it, and leaves the rest to
the second one. -/
theorem parse_terminates_stray :
    let symbols := Symbol.ofTokens (Token.significant (tokens "\x7d ;".toList))
    let start : Reading := ⟨.declarations, .initial symbols⟩
    symbols.length = 2 ∧ ∃ u, start.Holds u ∧ u.construct = .declarations ∧
      ∃ taken, taken ≠ [] ∧ symbols = taken ++ u.state.ahead := by
  intro symbols start
  have hlength : symbols.length = 2 := by decide +kernel
  let u : Reading := ⟨.declarations, ((Rule.orReject (Rule.read .externalDeclaration)
    .noDeclaration).run Construct.read (.initial symbols)).2⟩
  have hholds : start.Holds u := by
    have hne : symbols.isEmpty = false := by
      rw [List.isEmpty_eq_false_iff, ← List.length_pos_iff, hlength]
      decide
    refine Rule.calls_bind.2 (.inr ?_)
    change Rule.Calls _ (if symbols.isEmpty then pure () else do
      Rule.orReject (Rule.read .externalDeclaration) .noDeclaration
      Rule.read .declarations) _ _ _
    rw [hne]
    exact Rule.calls_bind.2 (.inr (.inl ⟨rfl, rfl⟩))
  obtain ⟨-, -, -, hreadings⟩ := parse_terminates "\x7d ;".toList
  exact ⟨hlength, u, hholds, rfl, (hreadings start .refl).2 u (.single hholds) rfl⟩

end Whittle
