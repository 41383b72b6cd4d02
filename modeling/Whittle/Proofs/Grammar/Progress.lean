import Whittle.Proofs.Grammar.Contract

/-!
# Reading always goes on

A construct that is read within another has fewer symbols ahead or a lower rank, wherever the rules
read one. So no reading stalls, and a construct is read by its rule alone.

* `Construct.Starts`: where a construct is read. Some are read only at a symbol of their own.
* `Rule.Keeps`, `Rule.Takes`: a rule reads only constructs up to a rank until it takes a symbol; it
  takes none back, or it takes one. Progress of a rule is put together from that of its steps.
* `Construct.rule_progress`: each rule reads constructs only where they start and further on, and
  consumes what it must.
* `Construct.read_eq`: **reading a construct is running its rule.**
* `Construct.read_post`: a contract that every rule keeps is kept by every reading.
-/

namespace Whittle.Grammar

namespace Construct

/-- Where a construct may be read, by the kind of the next symbol. -/
def Starts : Construct → Option TokenKind → Prop
  | .compound, k | .initList, k | .structBody, k | .enumBody, k => k = some .openBrace
  | .paramList, k | .argList, k | .balanced 0, k => k = some .openParen
  | .arraySuffix, k => k = some .openBracket
  | .tagSpecifier, k => k = some .kwStruct ∨ k = some .kwUnion ∨ k = some .kwEnum
  | .typeofSpecifier, k => k = some .kwTypeof
  | .forStatement, k => k = some .kwFor
  | .asmStatement, k => k = some .kwAsm
  | .designator, k => k = some .dot ∨ k = some .openBracket
  -- a brace would be taken for the body of a definition
  | .declaration .file, k => k ≠ none ∧ k ≠ some .openBrace
  | _, _ => True

/-- Where a construct takes at least one symbol. -/
def Consumes : Construct → Option TokenKind → Prop
  | .primary, k => k = some .openParen
  | .designatorParts, k => k = some .dot ∨ k = some .openBracket
  | .compound, _ | .initList, _ | .structBody, _ | .enumBody, _ | .paramList, _ | .argList, _
  | .balanced 0, _ | .arraySuffix, _ | .tagSpecifier, _ | .typeofSpecifier, _ | .forStatement, _
  | .asmStatement, _ | .designator, _ => True
  | _, _ => False

/-- What reading a construct does to the symbols ahead. -/
def Advances (c : Construct) (s s' : State) : Prop :=
  s'.ahead.length ≤ s.ahead.length ∧ (c.Consumes s.next → s'.ahead.length < s.ahead.length)

/-- Whether a construct is read at any symbol, and not at one of its own. -/
def startsAnywhere : Construct → Bool
  | .compound | .initList | .structBody | .enumBody | .paramList | .argList | .balanced 0
  | .arraySuffix | .tagSpecifier | .typeofSpecifier | .forStatement | .asmStatement
  | .designator | .declaration .file => false
  | _ => true

theorem starts_of_startsAnywhere {c : Construct} (h : c.startsAnywhere = true)
    (k : Option TokenKind) : c.Starts k := by
  cases c with
  | balanced depth =>
    cases depth with
    | zero => cases h
    | succ depth => trivial
  | declaration place =>
    cases place with
    | file => cases h
    | _ => trivial
  | _ => first | exact trivial | cases h

/-- A construct that is not read at any symbol is read only where a symbol is. -/
theorem starts_own {c : Construct} (h : c.startsAnywhere = false) {k : Option TokenKind}
    (hk : c.Starts k) : k ≠ none := by
  rintro rfl
  cases c with
  | balanced depth =>
    cases depth with
    | zero => cases hk
    | succ depth => cases h
  | tagSpecifier => obtain hk | hk | hk := hk <;> cases hk
  | designator => obtain hk | hk := hk <;> cases hk
  | declaration place =>
    cases place with
    | file => exact hk.1 rfl
    | _ => cases h
  | _ => first | (cases h; done) | cases hk

theorem rank_pos (c : Construct) : 0 < c.rank := by
  cases c with
  | declaration place => cases place <;> decide
  | _ => exact Nat.zero_lt_succ _

end Construct

/-- Constructs are read where they start and, by their measure, below a bound. -/
def progress (bound : Nat) : Contract where
  pre c s := c.Starts s.next ∧ c.measure s < bound
  post c s _ s' := c.Advances s s'
  strict := false

/-! ### Steps that go on -/

namespace Rule

open State

variable {α β : Type} {b n : Nat} {k : TokenKind} {s : State}

/-- A rule reads constructs only where they start and, until it takes a symbol, only up to a rank.
It takes no symbol back. -/
def Keeps (b : Nat) (r : Rule α) : Prop :=
  ∀ n s, s.ahead.length * 21 + b < n →
    r.wp (progress n) s fun _ s' => s'.ahead.length ≤ s.ahead.length

/-- A rule keeps to a rank where the next symbol is of a kind. -/
def KeepsAt (k : TokenKind) (b : Nat) (r : Rule α) : Prop :=
  ∀ n s, s.next = some k → s.ahead.length * 21 + b < n →
    r.wp (progress n) s fun _ s' => s'.ahead.length ≤ s.ahead.length

/-- A rule keeps to a rank and takes a symbol, where the next one is of a kind. -/
def TakesAt (k : TokenKind) (b : Nat) (r : Rule α) : Prop :=
  ∀ n s, s.next = some k → s.ahead.length * 21 + b < n →
    r.wp (progress n) s fun _ s' => s'.ahead.length < s.ahead.length

/-- A rule keeps to a rank and takes a symbol wherever there is one. -/
def Takes (b : Nat) (r : Rule α) : Prop := ∀ k, TakesAt k b r

variable {r : Rule α} {f : α → Rule β}

theorem Keeps.at (h : Keeps b r) (k : TokenKind) : KeepsAt k b r := fun n s _ => h n s

theorem TakesAt.keepsAt (h : TakesAt k b r) : KeepsAt k b r :=
  fun n s hk hn => wp_mono (h n s hk hn) fun _ _ => Nat.le_of_lt

theorem Takes.keepsAt (h : Takes b r) : KeepsAt k b r := (h k).keepsAt

/-! What leaves the symbols ahead as they are. -/

theorem keeps_pure (a : α) : Keeps b (pure a : Rule α) := fun _ _ _ => Nat.le_refl _

theorem keeps_view : Keeps b view := fun _ _ _ => Nat.le_refl _

theorem keeps_next : Keeps b next := fun _ _ _ => Nat.le_refl _

theorem keeps_sees : Keeps b (sees k) := fun _ _ _ => Nat.le_refl _

theorem keeps_endsAt : Keeps b (endsAt k) := fun _ _ _ => Nat.le_refl _

theorem keeps_gather {kind : NodeKind} : Keeps b (gather kind) := fun _ _ _ => Nat.le_refl _

theorem keeps_fault {f : Fault} : Keeps b (fault f) :=
  fun _ _ _ => wp_fault.2 (.inr (Nat.le_refl _))

theorem keeps_declare {name : Option Nat} {isTypedef : Bool} : Keeps b (declare name isTypedef) :=
  fun _ s _ => wp_declare.2 (Nat.le_of_eq (congrArg _ (ahead_declaring s name isTypedef)))

theorem length_bump (s : State) : (s.act .bump).ahead.length = s.ahead.length - 1 := by
  rw [ahead_bump, List.length_tail]

theorem keeps_bump : Keeps b bump := by
  intro n s _
  rw [wp_bump, length_bump]
  exact Nat.sub_le _ _

theorem takes_bump : Takes b bump := by
  intro k n s hk _
  have hpos := length_pos_of_next hk
  rw [wp_bump, length_bump]
  omega

/-! One step after another: once a symbol is taken, any construct may be read. -/

theorem keeps_bind (hr : Keeps b r) (hf : ∀ a, Keeps b (f a)) : Keeps b (r >>= f) := by
  intro n s hn
  rw [wp_bind]
  refine wp_mono (hr n s hn) fun a s₁ h₁ => ?_
  exact wp_mono (hf a n s₁ (by omega)) fun _ s₂ h₂ => Nat.le_trans h₂ h₁

theorem keeps_seq {t : Rule β} (hr : Keeps b r) (ht : Keeps b t) : Keeps b (r >>= fun _ => t) :=
  keeps_bind hr fun _ => ht

theorem keepsAt_bind (hr : KeepsAt k b r) (hf : ∀ a, Keeps b (f a)) : KeepsAt k b (r >>= f) := by
  intro n s hk hn
  rw [wp_bind]
  refine wp_mono (hr n s hk hn) fun a s₁ h₁ => ?_
  exact wp_mono (hf a n s₁ (by omega)) fun _ s₂ h₂ => Nat.le_trans h₂ h₁

theorem takesAt_bind (hr : TakesAt k b r) (hf : ∀ a, Keeps 20 (f a)) :
    TakesAt k b (r >>= f) := by
  intro n s hk hn
  rw [wp_bind]
  refine wp_mono (hr n s hk hn) fun a s₁ h₁ => ?_
  exact wp_mono (hf a n s₁ (by omega)) fun _ s₂ h₂ => Nat.lt_of_le_of_lt h₂ h₁

theorem takesAt_seq {t : Rule β} (hr : TakesAt k b r) (ht : Keeps 20 t) :
    TakesAt k b (r >>= fun _ => t) :=
  takesAt_bind hr fun _ => ht

theorem takes_seq {t : Rule β} (hr : Takes b r) (ht : Keeps 20 t) : Takes b (r >>= fun _ => t) :=
  fun k => takesAt_seq (hr k) ht

theorem keeps_ite {p : Prop} [Decidable p] {t : Rule α} (hr : Keeps b r) (ht : Keeps b t) :
    Keeps b (if p then r else t) := by
  split
  · exact hr
  · exact ht

theorem keeps_seesThen {t : Rule α} (hr : KeepsAt k b r) (ht : Keeps b t) :
    Keeps b (do if ← sees k then r else t) := by
  intro n s hn
  rw [wp_bind, wp_sees, wp_ite, decide_eq_true_eq]
  exact ⟨fun hk => hr n s hk hn, fun _ => ht n s hn⟩

/-! Segments, nodes and scopes. -/

theorem keeps_apart (hr : Keeps b r) : Keeps b (apart r) := fun n s hn => hr n s.opened hn

theorem takesAt_apart (hr : TakesAt k b r) : TakesAt k b (apart r) :=
  fun n s hk hn => hr n s.opened hk hn

theorem takes_apart (hr : Takes b r) : Takes b (apart r) := fun k => takesAt_apart (hr k)

theorem keeps_node {kind : NodeKind} (hr : Keeps b r) : Keeps b (node kind r) :=
  keeps_apart <| keeps_bind hr fun _ => keeps_seq keeps_gather (keeps_pure _)

theorem takesAt_node {kind : NodeKind} (hr : TakesAt k b r) : TakesAt k b (node kind r) :=
  takesAt_apart <| takesAt_bind hr fun _ => keeps_seq keeps_gather (keeps_pure _)

theorem takes_node {kind : NodeKind} (hr : Takes b r) : Takes b (node kind r) :=
  fun k => takesAt_node (hr k)

theorem keeps_leafNode {kind : NodeKind} : Keeps b (leafNode kind) := keeps_node keeps_bump

theorem takes_leafNode {kind : NodeKind} : Takes b (leafNode kind) := takes_node takes_bump

theorem keeps_inScope {names : Names} {r : Rule Unit} (hr : Keeps b r) :
    Keeps b (inScope names r) :=
  fun n s hn => wp_inScope.2 (hr n (s.entered names) hn)

/-! Constructs. -/

theorem progress_pre {c : Construct} :
    (progress n).pre c s ↔ c.Starts s.next ∧ s.ahead.length * 21 + c.rank < n := Iff.rfl

theorem keeps_read {c : Construct} (h : (c.startsAnywhere && decide (c.rank ≤ b)) = true) :
    Keeps b (read c) := by
  intro n s hn
  obtain ⟨hstarts, hrank⟩ := Bool.and_eq_true_iff.1 h
  have hrank := of_decide_eq_true hrank
  refine wp_read.2 ⟨progress_pre.2 ⟨?_, by omega⟩, fun _ _ hpost => hpost.1⟩
  exact Construct.starts_of_startsAnywhere hstarts _

theorem keepsAt_read {c : Construct} (hstarts : c.Starts (some k)) (hrank : c.rank ≤ b) :
    KeepsAt k b (read c) :=
  fun _ _ hk hn => wp_read.2 ⟨progress_pre.2 ⟨hk ▸ hstarts, by omega⟩, fun _ _ hpost => hpost.1⟩

theorem takesAt_read {c : Construct} (hstarts : c.Starts (some k)) (htakes : c.Consumes (some k))
    (hrank : c.rank ≤ b) : TakesAt k b (read c) := by
  intro n s hk hn
  refine wp_read.2 ⟨progress_pre.2 ⟨hk ▸ hstarts, by omega⟩, fun _ _ hpost => hpost.2 ?_⟩
  rwa [hk]

/-! Conditional steps. -/

theorem keeps_ifSees {r : Rule Unit} (hr : KeepsAt k b r) : Keeps b (ifSees k r) :=
  keeps_seesThen hr (keeps_pure _)

theorem keeps_unlessSees {r : Rule Unit} (hr : Keeps b r) : Keeps b (unlessSees k r) :=
  keeps_bind keeps_sees fun _ => keeps_ite (keeps_pure _) hr

theorem keeps_accept : Keeps b (accept k) :=
  keeps_bind keeps_sees fun _ => keeps_ite (keeps_seq keeps_bump (keeps_pure _)) (keeps_pure _)

theorem keeps_acceptThen {r t : Rule α} (hr : Keeps 20 r) (ht : Keeps b t) :
    Keeps b (do if ← accept k then r else t) := by
  intro n s hn
  rw [wp_bind, wp_accept]
  refine ⟨fun hk => ?_, fun _ => ht n s hn⟩
  exact ((takes_seq takes_bump hr).keepsAt : KeepsAt k b (bump >>= fun _ => r)) n s hk hn

theorem keeps_ifAccepts {r : Rule Unit} (hr : Keeps 20 r) : Keeps b (ifAccepts k r) :=
  keeps_acceptThen hr (keeps_pure _)

theorem keeps_optional : Keeps b (optional k) :=
  keeps_seesThen (keeps_bump.at k) (keeps_pure _)

theorem keeps_require {f : Fault} : Keeps b (require k f) :=
  keeps_seesThen (keeps_bump.at k) keeps_fault

theorem keeps_requireThen {f : Fault} {r : Rule Unit} (hr : Keeps 20 r) :
    Keeps b (requireThen k f r) :=
  keeps_acceptThen hr keeps_fault

theorem keeps_reject {f : Fault} : Keeps b (reject f) := keeps_seq keeps_fault keeps_leafNode

theorem takes_reject {f : Fault} : Takes b (reject f) := by
  intro k n s hk hn
  exact wp_bind.2 (wp_fault.2 (.inr (takes_leafNode k n (s.act (.fault f)) hk hn)))

/-! Loops: what is repeated takes a symbol, or it is not repeated. -/

theorem keeps_unlessEnds {r : Rule Unit} (hr : Takes b r) :
    Keeps b (do unless ← endsAt k do r) := by
  intro n s hn
  rw [wp_bind, wp_endsAt, wp_ite, decide_eq_true_eq]
  refine ⟨fun _ => Nat.le_refl _, fun hk => ?_⟩
  cases hnext : s.next with
  | none => exact absurd (.inl hnext) hk
  | some k' => exact hr.keepsAt n s hnext hn

theorem takes_orReject {r : Rule Unit} {f : Fault} (hr : Keeps b r) : Takes b (orReject r f) := by
  intro k n s hk hn
  have hpos := length_pos_of_next hk
  rw [wp_orReject]
  refine wp_mono (hr n s hn) fun _ s₁ h₁ => ⟨fun heq => ?_, fun hne => by omega⟩
  cases hnext : s₁.next with
  | none =>
    rw [next_eq_none.1 hnext, List.length_nil] at heq
    omega
  | some k' =>
    exact wp_mono (takes_reject (b := b) k' n s₁ hnext (by omega)) fun _ s₂ h₂ => by omega

theorem keeps_whileTaking {r t : Rule Unit} (hr : Keeps b r) (ht : Keeps 20 t) :
    Keeps b (do
      let before ← remaining
      r
      if (← remaining) ≠ before then t) := by
  intro n s hn
  rw [wp_bind, wp_remaining, wp_bind]
  refine wp_mono (hr n s hn) fun _ s₁ h₁ => ?_
  rw [wp_bind, wp_remaining, wp_ite]
  refine ⟨fun hne => ?_, fun _ => h₁⟩
  exact wp_mono (ht n s₁ (by omega)) fun _ s₂ h₂ => Nat.le_trans h₂ h₁

end Rule

/-! ### Parts of rules -/

namespace Rule

variable {b n : Nat} {s : State}

theorem keeps_initPart (name : Option Nat) (isTypedef : Bool) : Keeps b (initPart name isTypedef) :=
  keeps_seq keeps_declare <| keeps_seq (keeps_ifAccepts (keeps_read rfl)) keeps_gather

/-- Only at the top of a file does a declarator open a definition. -/
theorem firstDeclarator_progress (place : Place) (isTypedef : Bool)
    (hn : s.ahead.length * 21 + 6 < n) :
    (firstDeclarator place isTypedef).wp (progress n) s fun d s' =>
      s'.ahead.length ≤ s.ahead.length ∧ (d.isSome = true → place = .file) := by
  have hread : Keeps 6 (read .declarator) := keeps_read rfl
  rw [firstDeclarator, wp_apart, wp_bind]
  refine wp_mono (hread n s.opened hn) fun d s₁ h₁ => ?_
  rw [State.ahead_opened] at h₁
  rw [wp_bind, wp_view, wp_ite]
  refine ⟨fun hdef => ⟨h₁, fun _ => ?_⟩, fun _ => wp_bind.2 ?_⟩
  · simp only [Bool.and_eq_true, decide_eq_true_eq] at hdef
    exact hdef.1
  · refine wp_mono (keeps_initPart (b := 6) d.name isTypedef n s₁ (by omega)) fun _ s₂ h₂ => ?_
    exact ⟨Nat.le_trans h₂ h₁, fun h => by cases h⟩

theorem keeps_unlessInHead {place : Place} {r : Rule Unit} (hr : Keeps b r) :
    Keeps b (unlessInHead place r) :=
  keeps_ite (keeps_pure _) hr

theorem takes_oneAttribute : Takes b oneAttribute :=
  takes_node <| takes_seq takes_bump <| keeps_ifSees <|
    keepsAt_read rfl (of_decide_eq_true rfl)

theorem keeps_declaratorCore : Keeps 5 declaratorCore := by
  intro n s hn
  rw [declaratorCore, wp_bind, wp_view, State.kindAt_zero]
  split
  · exact keeps_seq keeps_leafNode (keeps_pure _) n s hn
  · next hopen =>
    rw [wp_ite]
    refine ⟨fun _ => ?_, fun _ => Nat.le_refl _⟩
    have nested : Takes 5 (node .nestedDeclarator do
        bump
        read (.attributes false)
        let d ← read .declarator
        require .closeParen .declaratorClose
        return d) :=
      takes_node <| takes_seq takes_bump <| keeps_seq (keeps_read rfl) <|
        keeps_bind (keeps_read rfl) fun _ => keeps_seq keeps_require (keeps_pure _)
    exact nested.keepsAt n s hopen hn
  · exact Nat.le_refl _

theorem keeps_arraySize : Keeps 20 arraySize :=
  keeps_bind keeps_view fun _ =>
    keeps_ite keeps_bump (keeps_unlessSees (keeps_read rfl))

theorem keeps_forClauses : Keeps 20 forClauses := by
  have clause {k : TokenKind} : Keeps 20 (unlessSees k (read .expression)) :=
    keeps_unlessSees (keeps_read rfl)
  have init : Keeps 20 forInit := keeps_bind keeps_view fun _ => keeps_ite (keeps_read rfl) clause
  exact keeps_seq init <| keeps_seq keeps_require <| keeps_seq clause <| keeps_seq keeps_require <|
    keeps_seq clause keeps_require

theorem takes_conditionStatement (kind : NodeKind) : Takes b (conditionStatement kind) :=
  takes_node <| takes_seq takes_bump <| keeps_seq (keeps_read rfl) <| keeps_seq (keeps_read rfl) <|
    keeps_ite (keeps_ifAccepts (keeps_read rfl)) (keeps_pure _)

theorem takes_doStatement : Takes b doStatement :=
  takes_node <| takes_seq takes_bump <| keeps_seq (keeps_read rfl) <| keeps_seq keeps_require <|
    keeps_seq (keeps_read rfl) keeps_require

theorem takes_caseStatement : Takes b caseStatement :=
  takes_node <| takes_seq takes_bump <| keeps_seq (keeps_read rfl) <|
    keeps_seq (keeps_ifAccepts (keeps_read rfl)) <| keeps_seq keeps_require (keeps_read rfl)

theorem takes_gotoStatement : Takes b gotoStatement := by
  have target : Keeps 20 gotoTarget := keeps_acceptThen (keeps_read rfl) keeps_require
  exact takes_node <| takes_seq takes_bump <| keeps_seq target keeps_require

theorem keeps_expressionStatement : Keeps 13 expressionStatement :=
  keeps_node <| keeps_seq (keeps_read rfl) keeps_require

theorem takes_prefixed : Takes b prefixed := takes_node <| takes_seq takes_bump (keeps_read rfl)

theorem takes_sizeofExpression : Takes b sizeofExpression := by
  refine takes_node <| takes_seq takes_bump <| keeps_bind keeps_view fun _ =>
    keeps_ite ?_ (keeps_read rfl)
  exact keeps_seq keeps_bump <| keeps_seq (keeps_read rfl) <| keeps_seq keeps_require <|
    keeps_ifSees (keepsAt_read rfl (of_decide_eq_true rfl))

theorem takes_typed : Takes b typed := by
  refine takes_apart <| takes_seq takes_bump <| keeps_seq (keeps_read rfl) <|
    keeps_seq keeps_require <| keeps_seesThen ?_ (keeps_seq (keeps_read rfl) keeps_gather)
  exact keepsAt_bind (keepsAt_read rfl (of_decide_eq_true rfl)) fun _ =>
    keeps_seq keeps_gather (keeps_read rfl)

theorem keeps_postfixed : Keeps 7 postfixed :=
  keeps_apart <| keeps_seq (keeps_read rfl) (keeps_read rfl)

/-- A part of an `asm` statement takes a symbol. -/
theorem takes_asmOperand : Takes 11 asmOperand := by
  intro k n s hk hn
  rw [asmOperand, wp_bind, wp_next]
  split
  · exact takes_bump k n s hk hn
  · exact takes_bump k n s hk hn
  · exact takes_bump k n s hk hn
  · exact takes_bump k n s hk hn
  · exact takes_seq takes_bump (keeps_seq keeps_optional keeps_require) k n s hk hn
  · next hopen =>
    exact takesAt_read (c := .primary) trivial rfl (of_decide_eq_true rfl) n s hopen hn
  · exact takes_reject k n s hk hn

end Rule

/-! ### All rules -/

namespace Construct

open Rule

/-- Whether the rule of a construct goes on: what it reads starts where it is read and has a smaller
measure, and a construct with a symbol of its own takes that symbol. -/
def Progresses (c : Construct) : Prop :=
  ∀ s, c.Starts s.next → c.rule.wp (progress (c.measure s)) s fun _ s' =>
    c.Consumes s.next → s'.ahead.length < s.ahead.length

/-- It is enough to read constructs of a lower rank until a symbol is taken. -/
theorem progresses_of_keeps {c : Construct} (hc : ∀ k, ¬c.Consumes k)
    (h : Keeps (c.rank - 1) c.rule) : c.Progresses := by
  intro s _
  have hrank := c.rank_pos
  have hmeasure : c.measure s = s.ahead.length * 21 + c.rank := rfl
  exact wp_mono (h _ s (by omega)) fun _ _ _ hconsumes => absurd hconsumes (hc _)

/-- A construct with a symbol of its own takes that symbol. -/
theorem progresses_of_takesAt {c : Construct} (hc : c.startsAnywhere = false)
    (h : ∀ k, c.Starts (some k) → TakesAt k (c.rank - 1) c.rule) : c.Progresses := by
  intro s hs
  have hrank := c.rank_pos
  have hmeasure : c.measure s = s.ahead.length * 21 + c.rank := rfl
  obtain ⟨k, hk⟩ := Option.ne_none_iff_exists'.1 (starts_own hc hs)
  exact wp_mono (h k (hk ▸ hs) _ s hk (by omega)) fun _ _ h' _ => h'

theorem progresses_of_takes {c : Construct} (hc : c.startsAnywhere = false)
    (h : Takes (c.rank - 1) c.rule) : c.Progresses :=
  progresses_of_takesAt hc fun k _ => h k

theorem declaration_progress (place : Place) : (Construct.declaration place).Progresses := by
  refine progresses_of_keeps (fun _ => id) (keeps_apart fun n s hn => ?_)
  have hrank : 14 ≤ rank (.declaration place) := by cases place <;> decide
  have hspecifiers : Keeps 13 (Rule.read .specifiers) := keeps_read rfl
  have hmore (isTypedef : Bool) : Keeps 13 (do
      Rule.read (.moreDeclarators isTypedef)
      unlessInHead place (require .semicolon .declarationEnd)
      gather .declGroup) :=
    keeps_seq (keeps_read rfl) <| keeps_seq (keeps_unlessInHead keeps_require) keeps_gather
  have hnone : Keeps 13 (do unlessInHead place bump; gather .declGroup) :=
    keeps_seq (keeps_unlessInHead keeps_bump) keeps_gather
  rw [wp_bind]
  refine wp_mono (hspecifiers n s (by omega)) fun isTypedef s₁ h₁ => ?_
  rw [wp_bind, wp_sees, wp_ite]
  refine ⟨fun _ => ?_, fun _ => wp_bind.2 ?_⟩
  · exact wp_mono (hnone n s₁ (by omega)) fun _ s₂ h₂ => Nat.le_trans h₂ h₁
  refine wp_mono (firstDeclarator_progress place isTypedef (by omega)) fun d s₂ ⟨h₂, hfile⟩ => ?_
  cases d with
  | none => exact wp_mono (hmore isTypedef n s₂ (by omega)) fun _ s₃ h₃ => by omega
  | some d =>
    -- a body is read at the top of a file only, where declarations have a rank of their own
    obtain rfl := hfile rfl
    have hbody : Keeps 17 (do
        declare d.name false
        Rule.read (.functionBody (d.params.getD []))
        gather .functionDef) :=
      keeps_seq keeps_declare <| keeps_seq (keeps_read rfl) keeps_gather
    have hn₂ : s₂.ahead.length * 21 + 17 < n := by
      have : rank (.declaration .file) - 1 = 17 := rfl
      omega
    exact wp_mono (hbody n s₂ hn₂) fun _ s₃ h₃ => by omega

theorem specifierList_progress (isTypedef hasType : Bool) :
    (Construct.specifierList isTypedef hasType).Progresses := by
  refine progresses_of_keeps (fun _ => id) fun n s hn => ?_
  have hbump (isTypedef hasType : Bool) : Takes 4 (do
      bump; Rule.read (.specifierList isTypedef hasType)) :=
    takes_seq takes_bump (keeps_read rfl)
  have htag {k : TokenKind} (hk : Construct.tagSpecifier.Starts (some k)) : TakesAt k 4 (do
      Rule.read .tagSpecifier; Rule.read (.specifierList isTypedef true)) :=
    takesAt_seq (takesAt_read hk trivial (of_decide_eq_true rfl)) (keeps_read rfl)
  have htypeof : TakesAt .kwTypeof 4 (do
      Rule.read .typeofSpecifier; Rule.read (.specifierList isTypedef true)) :=
    takesAt_seq (takesAt_read rfl trivial (of_decide_eq_true rfl)) (keeps_read rfl)
  have hattribute : Takes 4 (do oneAttribute; Rule.read (.specifierList isTypedef hasType)) :=
    takes_seq takes_oneAttribute (keeps_read rfl)
  rw [rule, Rule.specifierList, wp_bind, wp_view, State.kindAt_zero]
  split
  · next h => exact (hbump true hasType).keepsAt n s h hn
  · next h => exact (hbump isTypedef hasType).keepsAt n s h hn
  · next h => exact (hbump isTypedef hasType).keepsAt n s h hn
  · next h => exact (hbump isTypedef _).keepsAt n s h hn
  · next h => exact (htag (.inl rfl)).keepsAt n s h hn
  · next h => exact (htag (.inr (.inl rfl))).keepsAt n s h hn
  · next h => exact (htag (.inr (.inr rfl))).keepsAt n s h hn
  · next h => exact htypeof.keepsAt n s h hn
  · next h => exact hattribute.keepsAt n s h hn
  · next h =>
    rw [wp_ite]
    exact ⟨fun _ => (hbump isTypedef true).keepsAt n s h hn, fun _ => Nat.le_refl _⟩
  · exact Nat.le_refl _

theorem tagSpecifier_progress : Construct.tagSpecifier.Progresses := by
  have hbody (isEnum : Bool) : Keeps 20 (ifSees .openBrace
      (if isEnum then Rule.read .enumBody else Rule.read .structBody)) := by
    refine keeps_ifSees ?_
    cases isEnum
    · exact keepsAt_read rfl (of_decide_eq_true rfl)
    · exact keepsAt_read rfl (of_decide_eq_true rfl)
  refine progresses_of_takes rfl <| takes_node fun k n s hk hn => wp_bind.2 (wp_sees.2 ?_)
  have hrest (isEnum : Bool) : Takes 3 (do
      bump
      Rule.read (.attributes false)
      Rule.optional .identifier
      ifSees .openBrace (if isEnum then Rule.read .enumBody else Rule.read .structBody)
      Rule.read (.attributes false)) :=
    takes_seq takes_bump <| keeps_seq (keeps_read rfl) <| keeps_seq keeps_optional <|
      keeps_seq (hbody isEnum) (keeps_read rfl)
  exact hrest _ k n s hk hn

theorem attributes_progress (labels : Bool) : (Construct.attributes labels).Progresses := by
  refine progresses_of_keeps (fun _ => id) fun n s hn => ?_
  have hone : Takes 1 (do oneAttribute; Rule.read (.attributes labels)) :=
    takes_seq takes_oneAttribute (keeps_read rfl)
  rw [rule, Rule.attributes, wp_bind, wp_next, wp_ite]
  refine ⟨fun h => ?_, fun _ => Nat.le_refl _⟩
  cases hnext : s.next with
  | none => simp [hnext] at h
  | some k => exact hone.keepsAt n s hnext hn

theorem balanced_step (depth b : Nat) : Takes b (Rule.balanced depth) := by
  have hrest (depth : Nat) :
      Keeps 20 (if depth ≠ 0 then Rule.read (.balanced depth) else pure ()) := by
    cases depth with
    | zero => exact keeps_pure _
    | succ depth => exact keeps_ite (keeps_read rfl) (keeps_pure _)
  intro k n s hk hn
  rw [Rule.balanced, wp_bind, wp_next, hk]
  exact takes_seq takes_bump (hrest _) k n s hk hn

theorem balanced_progress (depth : Nat) : (Construct.balanced depth).Progresses := by
  cases depth with
  | zero => exact progresses_of_takes rfl (balanced_step 0 0)
  | succ depth =>
    refine progresses_of_keeps (fun _ => id) fun n s hn => ?_
    cases hnext : s.next with
    | none =>
      rw [rule, Rule.balanced, wp_bind, wp_next, hnext]
      exact keeps_fault (b := 0) n s hn
    | some k => exact (balanced_step (depth + 1) 0).keepsAt n s hnext hn

theorem suffixes_progress (isFirst : Bool) (known : Option Names) :
    (Construct.suffixes isFirst known).Progresses := by
  refine progresses_of_keeps (fun _ => id) fun n s hn => ?_
  rw [rule, Rule.suffixes, wp_bind, wp_next]
  split
  · next h =>
    refine TakesAt.keepsAt (takesAt_seq ?_ (keeps_read rfl)) n s h hn
    exact takesAt_read rfl trivial (of_decide_eq_true rfl)
  · next h =>
    refine TakesAt.keepsAt (takesAt_bind ?_ fun _ => ?_) n s h hn
    · exact takesAt_read rfl trivial (of_decide_eq_true rfl)
    · exact keeps_read rfl
  · exact Nat.le_refl _

/-- Of a designator's parts the first one takes a symbol. -/
theorem designatorParts_progress : Construct.designatorParts.Progresses := by
  have hdot : Takes 5 (do
      bump; require .identifier .designatorField; Rule.read .designatorParts) :=
    takes_seq takes_bump <| keeps_seq keeps_require (keeps_read rfl)
  have hopen : Takes 5 (do
      bump
      Rule.read .conditional
      ifAccepts .ellipsis (Rule.read .conditional)
      require .closeBracket .designatorClose
      Rule.read .designatorParts) :=
    takes_seq takes_bump <| keeps_seq (keeps_read rfl) <|
      keeps_seq (keeps_ifAccepts (keeps_read rfl)) <| keeps_seq keeps_require (keeps_read rfl)
  intro s _
  have hn : s.ahead.length * 21 + 5 < measure .designatorParts s := Nat.lt_succ_self _
  rw [rule, Rule.designatorParts, wp_bind, wp_accept]
  refine ⟨fun h => ?_, fun h => ?_⟩
  · exact wp_mono (hdot _ _ s h hn) fun _ _ hlt _ => hlt
  rw [if_neg Bool.false_ne_true, wp_bind, wp_accept]
  refine ⟨fun h' => ?_, fun h' => ?_⟩
  · exact wp_mono (hopen _ _ s h' hn) fun _ _ hlt _ => hlt
  · rintro (hk | hk)
    · exact absurd hk h
    · exact absurd hk h'

theorem statement_progress : Construct.statement.Progresses := by
  refine progresses_of_keeps (fun _ => id) fun n s hn => ?_
  have hdefault : Takes 13 defaultStatement :=
    takes_node <| takes_seq takes_bump <| keeps_seq keeps_require (keeps_read rfl)
  have hreturn : Takes 13 returnStatement :=
    takes_node <| takes_seq takes_bump <| keeps_seq (keeps_unlessSees (keeps_read rfl))
      keeps_require
  have hjump : Takes 13 jumpStatement := takes_node <| takes_seq takes_bump keeps_require
  have hlabel : Takes 13 labeledStatement :=
    takes_node <| takes_seq takes_bump <| keeps_seq keeps_bump <|
      keeps_seq (keeps_read rfl) (keeps_read rfl)
  rw [rule, Rule.statement, wp_bind, wp_view, State.kindAt_zero]
  split
  · next h => exact keepsAt_read (c := .compound) rfl (of_decide_eq_true rfl) n s h hn
  · next h => exact (takes_conditionStatement _).keepsAt n s h hn
  · next h => exact (takes_conditionStatement _).keepsAt n s h hn
  · next h => exact (takes_conditionStatement _).keepsAt n s h hn
  · next h => exact takes_doStatement.keepsAt n s h hn
  · next h => exact keepsAt_read (c := .forStatement) rfl (of_decide_eq_true rfl) n s h hn
  · next h => exact takes_caseStatement.keepsAt n s h hn
  · next h => exact hdefault.keepsAt n s h hn
  · next h => exact hreturn.keepsAt n s h hn
  · next h => exact hjump.keepsAt n s h hn
  · next h => exact hjump.keepsAt n s h hn
  · next h => exact takes_gotoStatement.keepsAt n s h hn
  · exact keeps_leafNode n s hn
  · next h => exact keepsAt_read (c := .asmStatement) rfl (of_decide_eq_true rfl) n s h hn
  · next h =>
    rw [wp_ite]
    exact ⟨fun _ => hlabel.keepsAt n s h hn, fun _ => keeps_expressionStatement n s hn⟩
  · exact keeps_expressionStatement n s hn

/-- No declaration starts with a brace. -/
theorem next_of_startsDeclaration {s : State} (h : s.view.startsDeclaration = true) :
    s.next ≠ none ∧ s.next ≠ some .openBrace := by
  rw [View.startsDeclaration, State.kindAt_zero] at h
  constructor
  · intro hnext
    simp [hnext] at h
  · intro hnext
    simp [hnext] at h

theorem externalDeclaration_progress : Construct.externalDeclaration.Progresses := by
  refine progresses_of_keeps (fun _ => id) fun n s hn => ?_
  have hread {k : TokenKind} (hk : k ≠ .openBrace) :
      KeepsAt k 18 (Rule.read (.declaration .file)) :=
    keepsAt_read ⟨Option.some_ne_none k, by simpa using hk⟩ (Nat.le_refl _)
  rw [rule, Rule.externalDeclaration, wp_bind, wp_view, State.kindAt_zero]
  split
  · exact keeps_leafNode n s hn
  · next h => exact keepsAt_read (c := .asmStatement) rfl (of_decide_eq_true rfl) n s h hn
  · next h => exact hread (by decide) n s h hn
  · next h => exact hread (by decide) n s h hn
  · next h => exact hread (by decide) n s h hn
  · rw [wp_ite]
    refine ⟨fun h => ?_, fun _ => keeps_reject n s hn⟩
    obtain ⟨hne, hbrace⟩ := next_of_startsDeclaration h
    obtain ⟨k, hk⟩ := Option.ne_none_iff_exists'.1 hne
    exact hread (fun heq => hbrace (heq ▸ hk)) n s hk hn

theorem assignment_progress : Construct.assignment.Progresses := by
  refine progresses_of_keeps (fun _ => id) <| keeps_apart <| keeps_seq (keeps_read rfl) ?_
  intro n s hn
  have hoperator : Takes 10 (do bump; Rule.read .assignment; gather .binaryExpr) :=
    takes_seq takes_bump <| keeps_seq (keeps_read rfl) keeps_gather
  rw [wp_bind, wp_next]
  split
  · next h => exact hoperator.keepsAt n s h hn
  · next h => exact hoperator.keepsAt n s h hn
  · exact Nat.le_refl _

theorem binaryTail_progress (level : Nat) : (Construct.binaryTail level).Progresses := by
  refine progresses_of_keeps (fun _ => id) fun n s hn => ?_
  have hoperator (found : Nat) : Takes 5 (do
      bump
      Rule.read (.binary (found + 1))
      gather .binaryExpr
      Rule.read (.binaryTail level)) :=
    takes_seq takes_bump <| keeps_seq (keeps_read rfl) <| keeps_seq keeps_gather (keeps_read rfl)
  rw [rule, Rule.binaryTail, wp_bind, wp_view, wp_ite]
  refine ⟨fun _ => Nat.le_refl _, fun hlevel => ?_⟩
  -- an operator of a level is a symbol
  cases hnext : s.next with
  | none => simp [View.level, State.next_eq_none.1 hnext] at hlevel
  | some k => exact (hoperator _).keepsAt n s hnext hn

theorem unary_progress : Construct.unary.Progresses := by
  refine progresses_of_keeps (fun _ => id) fun n s hn => ?_
  have hlabel : Takes 7 labelAddress := takes_node <| takes_seq takes_bump keeps_require
  rw [rule, Rule.unary, wp_bind, wp_view, State.kindAt_zero]
  split
  · next h => exact takes_prefixed.keepsAt n s h hn
  · next h => exact takes_prefixed.keepsAt n s h hn
  · next h => exact takes_prefixed.keepsAt n s h hn
  · next h => exact takes_prefixed.keepsAt n s h hn
  · next h => exact takes_prefixed.keepsAt n s h hn
  · next h => exact takes_prefixed.keepsAt n s h hn
  · next h => exact takes_prefixed.keepsAt n s h hn
  · next h => exact takes_prefixed.keepsAt n s h hn
  · next h =>
    rw [wp_ite]
    exact ⟨fun _ => hlabel.keepsAt n s h hn, fun _ => keeps_postfixed n s hn⟩
  · next h =>
    rw [wp_ite]
    exact ⟨fun _ => takes_prefixed.keepsAt n s h hn, fun _ => keeps_postfixed n s hn⟩
  · next h => exact takes_sizeofExpression.keepsAt n s h hn
  · next h =>
    rw [wp_ite]
    exact ⟨fun _ => takes_typed.keepsAt n s h hn, fun _ => keeps_postfixed n s hn⟩
  · exact keeps_postfixed n s hn

theorem postfixTail_progress : Construct.postfixTail.Progresses := by
  refine progresses_of_keeps (fun _ => id) fun n s hn => ?_
  have hindex : Takes 6 (do
      bump
      Rule.read .expression
      require .closeBracket .indexClose
      gather .indexExpr
      Rule.read .postfixTail) :=
    takes_seq takes_bump <| keeps_seq (keeps_read rfl) <| keeps_seq keeps_require <|
      keeps_seq keeps_gather (keeps_read rfl)
  have hfield : Takes 6 (do
      bump; require .identifier .fieldName; gather .fieldExpr; Rule.read .postfixTail) :=
    takes_seq takes_bump <| keeps_seq keeps_require <| keeps_seq keeps_gather (keeps_read rfl)
  have hstep : Takes 6 (do bump; gather .postfixExpr; Rule.read .postfixTail) :=
    takes_seq takes_bump <| keeps_seq keeps_gather (keeps_read rfl)
  rw [rule, Rule.postfixTail, wp_bind, wp_next]
  split
  · next h =>
    refine TakesAt.keepsAt (takesAt_seq ?_ (keeps_seq keeps_gather (keeps_read rfl))) n s h hn
    exact takesAt_read rfl trivial (of_decide_eq_true rfl)
  · next h => exact hindex.keepsAt n s h hn
  · next h => exact hfield.keepsAt n s h hn
  · next h => exact hfield.keepsAt n s h hn
  · next h => exact hstep.keepsAt n s h hn
  · next h => exact hstep.keepsAt n s h hn
  · exact Nat.le_refl _

/-- An expression in parentheses takes a symbol, other primary expressions may take none. -/
theorem primary_progress : Construct.primary.Progresses := by
  intro s _
  have hn : s.ahead.length * 21 + 6 < measure .primary s := Nat.lt_succ_self _
  have hcompound : KeepsAt .openBrace 20 (do
      Rule.read .compound; require .closeParen .statementExprClose) :=
    keepsAt_bind (keepsAt_read rfl (of_decide_eq_true rfl)) fun _ => keeps_require
  have hparen : Takes 6 (node .parenExpr do
      bump; Rule.read .expression; require .closeParen .parenClose) :=
    takes_node <| takes_seq takes_bump <| keeps_seq (keeps_read rfl) keeps_require
  have hstrings : Keeps 6 (node .literal (Rule.read (.series .strings))) :=
    keeps_node (keeps_read rfl)
  have nothing {r : Rule Unit} (hr : Keeps 6 r) (hne : s.next ≠ some .openParen) :
      r.wp (progress (measure .primary s)) s fun _ s' =>
        s.next = some .openParen → s'.ahead.length < s.ahead.length :=
    wp_mono (hr _ s hn) fun _ _ _ h => absurd h hne
  rw [rule, Rule.primary, wp_bind, wp_view, State.kindAt_zero]
  split
  · next h => exact nothing keeps_leafNode (by simp [h])
  · next h => exact nothing keeps_leafNode (by simp [h])
  · next h => exact nothing keeps_leafNode (by simp [h])
  · next h => exact nothing hstrings (by simp [h])
  · next h =>
    rw [wp_ite]
    refine ⟨fun hbrace => ?_, fun _ => ?_⟩
    · -- the brace comes right after the parenthesis
      have hpos := State.length_pos_of_next h
      rw [wp_node, wp_bind, wp_bump]
      have hnext : (s.opened.act .bump).next = some .openBrace := by simpa using hbrace
      refine wp_mono (hcompound _ (s.opened.act .bump) hnext ?_) fun _ s' h' _ => ?_
      · rw [length_bump, State.ahead_opened]
        omega
      · rw [length_bump, State.ahead_opened] at h'
        rw [State.ahead_joined, State.ahead_gather]
        omega
    · exact wp_mono (hparen _ _ s h hn) fun _ _ hlt _ => hlt
  · next h => exact nothing keeps_fault (by simp [h])
  · next h => exact nothing keeps_fault (by simp [h])
  · next h => exact nothing keeps_fault (by simp [h])
  · next h => exact nothing keeps_fault (by simp [h])
  · next h => exact nothing keeps_fault (by simp [h])
  · next h => exact nothing keeps_fault (by simp [h])
  · exact nothing keeps_reject (by assumption)

theorem series_progress (which : Series) : (Construct.series which).Progresses := by
  refine progresses_of_keeps (fun _ => id) fun n s hn => ?_
  have hone : Takes 0 (do bump; Rule.read (.series which)) :=
    takes_seq takes_bump (keeps_read rfl)
  rw [rule, Rule.series, wp_bind, wp_view, wp_ite]
  refine ⟨fun hin => ?_, fun _ => Nat.le_refl _⟩
  cases hnext : s.next with
  | none => cases which <;> simp [isInSeries, hnext] at hin
  | some k => exact hone.keepsAt n s hnext hn

/-- **Each rule goes on**: what it reads starts where it is read and has a smaller measure, and a
construct with a symbol of its own takes that symbol. -/
theorem rule_progress (c : Construct) : c.Progresses := by
  have take : ∀ {b}, Takes b bump := takes_bump
  cases c with
  | declarations =>
    refine progresses_of_keeps (fun _ => id) fun n s hn => ?_
    have hone : Takes 19 (do
        orReject (Rule.read .externalDeclaration) .noDeclaration; Rule.read .declarations) :=
      takes_seq (takes_orReject (keeps_read rfl)) (keeps_read rfl)
    rw [rule, Rule.declarations, wp_bind, wp_view, wp_ite]
    refine ⟨fun _ => Nat.le_refl _, fun hne => ?_⟩
    cases hnext : s.next with
    | none => simp [State.next_eq_none.1 hnext] at hne
    | some k => exact hone.keepsAt n s hnext hn
  | externalDeclaration => exact externalDeclaration_progress
  | declaration place => exact declaration_progress place
  | moreDeclarators isTypedef =>
    refine progresses_of_keeps (fun _ => id) <| keeps_ifAccepts <| keeps_seq ?_ (keeps_read rfl)
    exact keeps_apart <| keeps_bind (keeps_read rfl) fun d => keeps_initPart d.name isTypedef
  | functionBody params =>
    refine progresses_of_keeps (fun _ => id) <| keeps_bind (keeps_inScope ?_) fun _ => keeps_pure _
    exact keeps_seq (keeps_read rfl) <|
      keeps_seesThen (keepsAt_read rfl (of_decide_eq_true rfl)) keeps_fault
  | parameterDeclarations =>
    exact progresses_of_keeps (fun _ => id) <| keeps_bind keeps_view fun _ =>
      keeps_ite (keeps_whileTaking (keeps_read rfl) (keeps_read rfl)) (keeps_pure _)
  | specifiers => exact progresses_of_keeps (fun _ => id) <| keeps_node (keeps_read rfl)
  | specifierList isTypedef hasType => exact specifierList_progress isTypedef hasType
  | tagSpecifier => exact tagSpecifier_progress
  | structBody =>
    exact progresses_of_takes rfl <| takes_node <| takes_seq take <|
      keeps_seq (keeps_read rfl) keeps_require
  | fields =>
    exact progresses_of_keeps (fun _ => id) <| keeps_unlessEnds <| takes_seq (takes_orReject <|
      keeps_bind keeps_accept fun _ => keeps_ite (keeps_pure _) (keeps_read rfl)) (keeps_read rfl)
  | fieldGroup =>
    exact progresses_of_keeps (fun _ => id) <| keeps_node <| keeps_bind (keeps_read rfl) fun _ =>
      keeps_seq (keeps_unlessSees (keeps_read rfl)) keeps_require
  | fieldDeclarators =>
    exact progresses_of_keeps (fun _ => id) <|
      keeps_seq (keeps_unlessSees <| keeps_bind (keeps_read rfl) fun _ => keeps_pure _) <|
      keeps_seq (keeps_ifAccepts (keeps_read rfl)) <| keeps_seq (keeps_read rfl) <|
      keeps_ifAccepts (keeps_read rfl)
  | enumBody =>
    exact progresses_of_takes rfl <| takes_node <| takes_seq take <|
      keeps_seq (keeps_read rfl) keeps_require
  | enumerators =>
    refine progresses_of_keeps (fun _ => id) <| keeps_seesThen ?_ (keeps_pure _)
    refine Keeps.at (keeps_bind keeps_view fun _ => keeps_seq ?_ <| keeps_seq keeps_declare <|
      keeps_ifAccepts (keeps_read rfl)) _
    exact keeps_node <| keeps_seq keeps_leafNode <| keeps_seq (keeps_read rfl) <|
      keeps_ifAccepts (keeps_read rfl)
  | attributes labels => exact attributes_progress labels
  | balanced depth => exact balanced_progress depth
  | typeofSpecifier =>
    exact progresses_of_takes rfl <| takes_node <| takes_seq take <| keeps_requireThen <|
      keeps_seq (keeps_bind keeps_view fun _ => keeps_ite (keeps_read rfl) (keeps_read rfl)) <|
      keeps_require
  | declarator =>
    exact progresses_of_keeps (fun _ => id) <| keeps_node <| keeps_seq (keeps_read rfl) <|
      keeps_bind keeps_declaratorCore fun _ => keeps_bind (keeps_read rfl) fun _ =>
      keeps_seq (keeps_read rfl) (keeps_pure _)
  | pointers =>
    exact progresses_of_keeps (fun _ => id) <| keeps_ifAccepts <| keeps_seq (keeps_read rfl) <|
      keeps_seq (keeps_read rfl) (keeps_read rfl)
  | suffixes isFirst known => exact suffixes_progress isFirst known
  | arraySuffix =>
    exact progresses_of_takes rfl <| takes_node <| takes_seq take <| keeps_seq (keeps_read rfl) <|
      keeps_seq keeps_arraySize keeps_require
  | paramList =>
    exact progresses_of_takes rfl <| takes_node <| takes_seq take <|
      keeps_bind (keeps_inScope (keeps_read rfl)) fun _ => keeps_seq keeps_require (keeps_pure _)
  | params =>
    exact progresses_of_keeps (fun _ => id) <| keeps_unlessEnds <| takes_seq (takes_orReject <|
      keeps_bind keeps_accept fun _ => keeps_ite (keeps_pure _) (keeps_read rfl)) <|
      keeps_ifAccepts (keeps_read rfl)
  | param =>
    refine progresses_of_keeps (fun _ => id) <| keeps_node <|
      keeps_bind (keeps_read rfl) fun _ => keeps_bind keeps_next fun k => ?_
    split
    · exact keeps_pure _
    · exact keeps_pure _
    · exact keeps_pure _
    · exact keeps_bind (keeps_read rfl) fun _ => keeps_declare
  | initializer =>
    exact progresses_of_keeps (fun _ => id) <|
      keeps_seesThen (keepsAt_read rfl (of_decide_eq_true rfl)) (keeps_read rfl)
  | initList =>
    exact progresses_of_takes rfl <| takes_node <| takes_seq take <|
      keeps_seq (keeps_read rfl) keeps_require
  | initializers =>
    have hdesignator : Keeps 12 optionalDesignator := by
      intro n s hn
      rw [optionalDesignator, wp_bind, wp_next, wp_ite]
      refine ⟨fun h => ?_, fun _ => Nat.le_refl _⟩
      simp only [Bool.or_eq_true, decide_eq_true_eq] at h
      obtain h | h := h
      · exact keepsAt_read (c := .designator) (.inl rfl) (of_decide_eq_true rfl) n s h hn
      · exact keepsAt_read (c := .designator) (.inr rfl) (of_decide_eq_true rfl) n s h hn
    exact progresses_of_keeps (fun _ => id) <| keeps_unlessEnds <|
      takes_seq (takes_orReject <| keeps_seq hdesignator (keeps_read rfl)) <|
      keeps_ifAccepts (keeps_read rfl)
  | designator =>
    refine progresses_of_takesAt rfl fun k hk => takesAt_node <| takesAt_seq ?_ keeps_optional
    refine takesAt_read trivial ?_ (of_decide_eq_true rfl)
    exact hk
  | designatorParts => exact designatorParts_progress
  | typeName =>
    refine progresses_of_keeps (fun _ => id) <| keeps_node <|
      keeps_bind (keeps_read rfl) fun _ => keeps_bind keeps_next fun k => ?_
    split
    · exact keeps_pure _
    · exact keeps_pure _
    · exact keeps_pure _
    · exact keeps_bind (keeps_read rfl) fun _ => keeps_pure _
  | compound =>
    exact progresses_of_takes rfl <| takes_node <| takes_seq take <|
      keeps_bind (keeps_inScope (keeps_read rfl)) fun _ => keeps_require
  | blockItems =>
    exact progresses_of_keeps (fun _ => id) <| keeps_unlessEnds <|
      takes_seq (takes_orReject (keeps_read rfl)) (keeps_read rfl)
  | blockItem =>
    exact progresses_of_keeps (fun _ => id) <| keeps_bind keeps_view fun _ =>
      keeps_ite (keeps_read rfl) (keeps_read rfl)
  | statement => exact statement_progress
  | labelBody =>
    exact progresses_of_keeps (fun _ => id) <| keeps_bind keeps_endsAt fun _ =>
      keeps_ite (keeps_pure _) (keeps_read rfl)
  | condition =>
    exact progresses_of_keeps (fun _ => id) <| keeps_seq keeps_require <|
      keeps_seq (keeps_read rfl) keeps_require
  | forStatement =>
    exact progresses_of_takes rfl <| takes_node <| takes_seq take <| keeps_bind (keeps_inScope <|
      keeps_seq (keeps_requireThen keeps_forClauses) (keeps_read rfl)) fun _ => keeps_pure _
  | asmStatement =>
    exact progresses_of_takes rfl <| takes_node <| takes_seq take <| keeps_seq (keeps_read rfl) <|
      keeps_seq (keeps_requireThen <| keeps_seq (keeps_read rfl) keeps_require) keeps_require
  | asmOperands =>
    exact progresses_of_keeps (fun _ => id) <| keeps_unlessEnds <|
      takes_seq takes_asmOperand (keeps_read rfl)
  | expression =>
    exact progresses_of_keeps (fun _ => id) <| keeps_apart <|
      keeps_seq (keeps_read rfl) (keeps_read rfl)
  | commaTail =>
    exact progresses_of_keeps (fun _ => id) <| keeps_ifAccepts <| keeps_seq (keeps_read rfl) <|
      keeps_seq keeps_gather (keeps_read rfl)
  | assignment => exact assignment_progress
  | conditional =>
    exact progresses_of_keeps (fun _ => id) <| keeps_apart <| keeps_seq (keeps_read rfl) <|
      keeps_ifAccepts <| keeps_seq (keeps_unlessSees (keeps_read rfl)) <|
      keeps_seq keeps_require <| keeps_seq (keeps_read rfl) keeps_gather
  | binary level =>
    exact progresses_of_keeps (fun _ => id) <| keeps_apart <|
      keeps_seq (keeps_read rfl) (keeps_read rfl)
  | binaryTail level => exact binaryTail_progress level
  | unary => exact unary_progress
  | postfixTail => exact postfixTail_progress
  | argList =>
    exact progresses_of_takes rfl <| takes_node <| takes_seq take <|
      keeps_seq (keeps_read rfl) keeps_require
  | args =>
    refine progresses_of_keeps (fun _ => id) <| keeps_bind keeps_endsAt fun _ =>
      keeps_ite (keeps_pure _) (keeps_whileTaking ?_ (keeps_ifAccepts (keeps_read rfl)))
    exact keeps_bind keeps_view fun _ => keeps_ite (keeps_read rfl) (keeps_read rfl)
  | primary => exact primary_progress
  | series which => exact series_progress which

/-! ### Readings -/

/-- What every single effect keeps, every reading keeps. -/
theorem read_steady {R : State → State → Prop} (hR : Steady R) (c : Construct) (s : State) :
    R s (c.read s).2 := by
  rw [read]
  refine Rule.run_steady hR (fun c' s' => ?_) c.rule s
  split
  · exact read_steady hR c' s'
  · exact hR.stall s'
termination_by c.measure s

theorem steady_ahead : Steady fun s s' => s'.ahead.length ≤ s.ahead.length where
  refl _ := Nat.le_refl _
  trans h₁ h₂ := Nat.le_trans h₂ h₁
  act s a := by
    cases a with
    | bump => simp
    | settle => exact Nat.le_refl _
    | gather k => exact Nat.le_refl _
    | fault f => exact Nat.le_refl _
    | declare n b => simp
  segment h := h
  scope _ h := h
  stall _ := Nat.le_refl _

theorem faults_le_read (c : Construct) (s : State) :
    s.faults.length ≤ (c.read s).2.faults.length :=
  read_steady Rule.steady_faults c s

/-- The reader that a construct's rule runs with; it stops short of a reading that would not go
on. -/
def guardedRead (bound : Nat) : Rule.Reader := fun c s =>
  if c.measure s < bound then c.read s else (c.noResult, { s with stalled := true })

theorem read_eq_guarded (c : Construct) (s : State) :
    c.read s = c.rule.run (guardedRead (c.measure s)) s := by
  rw [read]
  rfl

theorem read_advances (c : Construct) (s : State) (h : c.Starts s.next) :
    c.Advances s (c.read s).2 := by
  refine ⟨read_steady steady_ahead c s, ?_⟩
  have hp : ∀ c' s', (progress (c.measure s)).pre c' s' →
      c'.Advances s' (guardedRead (c.measure s) c' s').2 := by
    intro c' s' ⟨hstarts, hlt⟩
    rw [guardedRead, if_pos hlt]
    exact read_advances c' s' hstarts
  rw [read_eq_guarded]
  exact (Rule.run_congr rfl hp (fun _ _ _ => rfl) (rule_progress c s h)).2
termination_by c.measure s

/-- **Reading a construct is running its rule**, wherever the construct starts. -/
theorem read_eq (c : Construct) (s : State) (h : c.Starts s.next) :
    c.read s = c.rule.run Construct.read s := by
  have hp : ∀ c' s', (progress (c.measure s)).pre c' s' → c'.Advances s' (c'.read s').2 :=
    fun c' s' hpre => read_advances c' s' hpre.1
  rw [read_eq_guarded]
  refine (Rule.run_congr rfl hp (fun c' s' hpre => ?_) (rule_progress c s h)).1
  rw [guardedRead, if_pos hpre.2]

/-- **A contract that every rule keeps is kept by every reading.** -/
theorem read_post {K : Contract}
    (hrule : ∀ c s, c.Starts s.next → K.pre c s → c.rule.wp K s (K.post c s))
    (c : Construct) (s : State) (hstarts : c.Starts s.next) (hpre : K.pre c s)
    (quiet : K.strict = true → Rule.Quiet s (c.read s).2) :
    K.post c s (c.read s).1 (c.read s).2 := by
  have hread := read_eq c s hstarts
  rw [hread] at quiet ⊢
  refine (Rule.run_of_wp (P := progress (c.measure s)) rfl faults_le_read
    (fun c' s' h' => read_advances c' s' h'.1) (fun c' s' h' hpre' quiet' => ?_)
    (rule_progress c s hstarts) (hrule c s hstarts hpre) quiet).2
  exact read_post hrule c' s' h'.1 hpre' quiet'
termination_by c.measure s
decreasing_by exact h'.2

end Construct

end Whittle.Grammar
