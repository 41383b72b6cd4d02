import Whittle.Proofs.Grammar.Form

/-!
# Following rules on what matters

Some questions need little of what is built: which brackets are open, or whether trivia come last.
An `Abstraction` keeps just that. Rules are followed on it and on the symbols ahead, up to the first
fault, and what comes of them holds of every reading without faults.

* `Abstraction`: how each step changes what is kept, and what constructs do to it.
* `Rule.Follows`: what comes of a rule on what is kept.
* `Abstraction.Sound`: what is kept is true of the trees of a segment.
* `Construct.read_follows`: **readings without faults do what is said of constructs**, if rules do.
* `Abstraction.Sound.skeletons`: so do whole files.
-/

namespace Whittle.Grammar

/-- The kind of the symbol `n` places ahead. -/
def peek (ahead : List Symbol) (n : Nat) : Option TokenKind := ahead[n]?.map (·.kind)

@[simp] theorem kindAt_eq_peek (ahead : List Symbol) (scopes : List Names) (n : Nat) :
    (View.mk ahead scopes).kindAt n = peek ahead n := by
  simp [View.kindAt, peek]

@[simp] theorem peek_tail (ahead : List Symbol) (n : Nat) :
    peek ahead.tail n = peek ahead (n + 1) := by
  cases ahead <;> rfl

theorem peek_eq_none {ahead : List Symbol} : peek ahead 0 = none ↔ ahead = [] := by
  cases ahead <;> simp [peek]

/-- The kind of a symbol that binds as a binary operator. -/
theorem peek_of_level {ahead : List Symbol} {s : List Names} (h : (View.mk ahead s).level ≠ 0) :
    ∃ k ∈ [TokenKind.star, .plus, .minus, .amp, .operator], peek ahead 0 = some k := by
  cases ahead with
  | nil => exact absurd rfl h
  | cons x rest =>
    have hlevel : x.level ≠ 0 := h
    refine ⟨x.kind, ?_, rfl⟩
    unfold Symbol.level at hlevel
    split at hlevel <;> simp_all

/-- The kind of a symbol that a series goes on with. -/
theorem peek_of_isInSeries {ahead : List Symbol} {s : List Names} {which : Series}
    (h : Rule.isInSeries which ⟨ahead, s⟩ = true) :
    ∃ k ∈ [TokenKind.specifier, .kwStatic, .kwGoto, .string], peek ahead 0 = some k := by
  cases which with
  | pointerQualifiers => exact ⟨.specifier, by decide, by simp_all [Rule.isInSeries]⟩
  | strings => exact ⟨.string, by decide, by simpa [Rule.isInSeries] using h⟩
  | arrayQualifiers =>
    have hkind : peek ahead 0 = some .kwStatic ∨ peek ahead 0 = some .specifier := by
      simpa [Rule.isInSeries] using h
    rcases hkind with hkind | hkind
    · exact ⟨.kwStatic, by decide, hkind⟩
    · exact ⟨.specifier, by decide, hkind⟩
  | asmQualifiers =>
    have hkind : peek ahead 0 = some .specifier ∨ peek ahead 0 = some .kwGoto := by
      simpa [Rule.isInSeries] using h
    rcases hkind with hkind | hkind
    · exact ⟨.specifier, by decide, hkind⟩
    · exact ⟨.kwGoto, by decide, hkind⟩

/-- The kind of a symbol that begins an attribute. -/
theorem peek_of_attribute {ahead : List Symbol} {labels : Bool}
    (h : (peek ahead 0 = some .kwAttribute || (labels && peek ahead 0 = some .kwAsm)) = true) :
    ∃ k ∈ [TokenKind.kwAttribute, .kwAsm], peek ahead 0 = some k := by
  obtain hnext | ⟨-, hnext⟩ : peek ahead 0 = some .kwAttribute ∨
      labels = true ∧ peek ahead 0 = some .kwAsm := by simpa using h
  · exact ⟨.kwAttribute, by decide, hnext⟩
  · exact ⟨.kwAsm, by decide, hnext⟩

/-- The kind of a symbol that begins a tag specifier. -/
theorem peek_of_tagSpecifier {ahead : List Symbol}
    (h : Construct.tagSpecifier.Starts (peek ahead 0)) :
    ∃ k ∈ [TokenKind.kwStruct, .kwUnion, .kwEnum], peek ahead 0 = some k := by
  rcases h with hnext | hnext | hnext
  · exact ⟨.kwStruct, by decide, hnext⟩
  · exact ⟨.kwUnion, by decide, hnext⟩
  · exact ⟨.kwEnum, by decide, hnext⟩

/-- What is kept of the trees of a segment, and how it changes. -/
structure Abstraction (D : Type) where
  /-- What is kept of an empty segment. -/
  start : D
  /-- A symbol is consumed. -/
  bump : TokenKind → D → D
  /-- Trivia settle. -/
  settle : D → D
  /-- The segment becomes a node. -/
  gather : NodeKind → D → D
  /-- A segment joins the one before it. -/
  join : D → D → D
  /-- When a construct may be read. -/
  pre : Construct → List Symbol → D → Prop
  /-- What comes of a construct, from what lay ahead and was kept before to what does after. -/
  post : Construct → List Symbol → D → List Symbol → D → Prop

/-- The next symbol is consumed, if there is one. -/
def Abstraction.take {D : Type} (A : Abstraction D) (ahead : List Symbol) (d : D) : D :=
  match peek ahead 0 with
  | some k => A.bump k d
  | none => A.settle d

namespace Rule

variable {D α β : Type} {A : Abstraction D} {ahead : List Symbol} {d : D}
  {Q : α → List Symbol → D → Prop}

/-- **What comes of a rule** on what is kept, up to the first fault. -/
def Follows (A : Abstraction D) {α : Type} :
    Rule α → List Symbol → D → (α → List Symbol → D → Prop) → Prop
  | .done a, ahead, d, Q => Q a ahead d
  | .look next, ahead, d, Q => ∀ scopes, (next ⟨ahead, scopes⟩).Follows A ahead d Q
  | .act .bump next, ahead, d, Q => next.Follows A ahead.tail (A.take ahead d) Q
  | .act .settle next, ahead, d, Q => next.Follows A ahead (A.settle d) Q
  | .act (.gather k) next, ahead, d, Q => next.Follows A ahead (A.gather k d) Q
  | .act (.fault _) _, _, _, _ => True
  | .act (.declare _ _) next, ahead, d, Q => next.Follows A ahead d Q
  | .segment inner next, ahead, d, Q =>
    inner.Follows A ahead A.start fun b ahead' e => (next b).Follows A ahead' (A.join d e) Q
  | .scope _ inner next, ahead, d, Q =>
    inner.Follows A ahead d fun b ahead' d' => ∀ ns, (next b ns).Follows A ahead' d' Q
  | .call c next, ahead, d, Q =>
    A.pre c ahead d ∧ ∀ r ahead' d', A.post c ahead d ahead' d' → (next r).Follows A ahead' d' Q

/-- More comes of a rule for which less is wanted. -/
theorem Follows.mono {r : Rule α} {Q' : α → List Symbol → D → Prop} (h : r.Follows A ahead d Q)
    (hQ : ∀ a ahead' d', Q a ahead' d' → Q' a ahead' d') : r.Follows A ahead d Q' := by
  induction r generalizing ahead d with
  | done a => exact hQ _ _ _ h
  | look next ih => exact fun scopes => ih _ (h scopes) hQ
  | act action next ih =>
    cases action with
    | fault f => exact trivial
    | _ => exact ih h hQ
  | segment inner next ihi ihn => exact ihi h fun b ahead' e h' => ihn b h' hQ
  | scope names inner next ihi ihn => exact ihi h fun b ahead' d' h' ns => ihn b ns (h' ns) hQ
  | call c next ih =>
    exact ⟨h.1, fun r ahead' d' hpost => ih r (h.2 r ahead' d' hpost) hQ⟩

/-! ### What comes of the steps from which rules are made -/

@[simp] theorem follows_pure (a : α) :
    (pure a : Rule α).Follows A ahead d Q ↔ Q a ahead d := Iff.rfl

@[simp] theorem follows_bind {r : Rule α} {f : α → Rule β} {Q : β → List Symbol → D → Prop} :
    (r >>= f).Follows A ahead d Q ↔
      r.Follows A ahead d fun a ahead' d' => (f a).Follows A ahead' d' Q := by
  change (r.bind f).Follows A ahead d Q ↔ _
  induction r generalizing ahead d with
  | done a => exact Iff.rfl
  | look next ih => exact forall_congr' fun scopes => ih _
  | act action next ih =>
    cases action with
    | fault f => exact Iff.rfl
    | _ => exact ih
  | segment inner next _ ih => simp only [Rule.bind, Follows, ih]
  | scope names inner next _ ih => simp only [Rule.bind, Follows, ih]
  | call c next ih => simp only [Rule.bind, Follows, ih]

@[simp] theorem follows_ite {p : Prop} [Decidable p] {r t : Rule α} :
    (if p then r else t).Follows A ahead d Q ↔
      (p → r.Follows A ahead d Q) ∧ (¬p → t.Follows A ahead d Q) := by
  by_cases h : p <;> simp [h]

@[simp] theorem follows_view {Q : View → List Symbol → D → Prop} :
    view.Follows A ahead d Q ↔ ∀ scopes, Q ⟨ahead, scopes⟩ ahead d := Iff.rfl

@[simp] theorem follows_next {Q : Option TokenKind → List Symbol → D → Prop} :
    next.Follows A ahead d Q ↔ Q (peek ahead 0) ahead d := by
  change (∀ _ : List Names, Q (peek ahead 0) ahead d) ↔ _
  exact forall_const _

@[simp] theorem follows_sees {k : TokenKind} {Q : Bool → List Symbol → D → Prop} :
    (sees k).Follows A ahead d Q ↔ Q (decide (peek ahead 0 = some k)) ahead d := by
  change (∀ _ : List Names, Q (peek ahead 0 == some k) ahead d) ↔ _
  rw [forall_const, Bool.beq_eq_decide_eq]

@[simp] theorem follows_remaining {Q : Nat → List Symbol → D → Prop} :
    remaining.Follows A ahead d Q ↔ Q ahead.length ahead d := by
  change (∀ _ : List Names, Q ahead.length ahead d) ↔ _
  exact forall_const _

@[simp] theorem follows_endsAt {k : TokenKind} {Q : Bool → List Symbol → D → Prop} :
    (endsAt k).Follows A ahead d Q ↔
      Q (decide (peek ahead 0 = none ∨ peek ahead 0 = some k)) ahead d := by
  change (∀ _ : List Names, Q (ahead.isEmpty || peek ahead 0 == some k) ahead d) ↔ _
  have h : (ahead.isEmpty || peek ahead 0 == some k) =
      decide (peek ahead 0 = none ∨ peek ahead 0 = some k) := by
    rw [Bool.eq_iff_iff]
    simp [peek_eq_none]
  rw [forall_const, h]

@[simp] theorem follows_bump {Q : Unit → List Symbol → D → Prop} :
    bump.Follows A ahead d Q ↔ Q () ahead.tail (A.take ahead d) := Iff.rfl

@[simp] theorem follows_gather {k : NodeKind} {Q : Unit → List Symbol → D → Prop} :
    (gather k).Follows A ahead d Q ↔ Q () ahead (A.gather k d) := Iff.rfl

@[simp] theorem follows_fault {f : Fault} {Q : Unit → List Symbol → D → Prop} :
    (fault f).Follows A ahead d Q := trivial

@[simp] theorem follows_declare {n : Option Nat} {b : Bool} {Q : Unit → List Symbol → D → Prop} :
    (declare n b).Follows A ahead d Q ↔ Q () ahead d := by
  cases n <;> exact Iff.rfl

@[simp] theorem follows_read {c : Construct} {Q : c.Result → List Symbol → D → Prop} :
    @Follows D A (no_index c.Result) (read c) ahead d Q ↔
      A.pre c ahead d ∧ ∀ r ahead' d', A.post c ahead d ahead' d' → Q r ahead' d' := Iff.rfl

@[simp] theorem follows_apart {r : Rule α} :
    (apart r).Follows A ahead d Q ↔
      r.Follows A ahead A.start fun a ahead' e => Q a ahead' (A.join (A.settle d) e) := Iff.rfl

@[simp] theorem follows_node {k : NodeKind} {r : Rule α} :
    (node k r).Follows A ahead d Q ↔
      r.Follows A ahead A.start fun a ahead' e =>
        Q a ahead' (A.join (A.settle d) (A.gather k e)) := by
  simp [node]

@[simp] theorem follows_leafNode {k : NodeKind} {Q : Unit → List Symbol → D → Prop} :
    (leafNode k).Follows A ahead d Q ↔
      Q () ahead.tail (A.join (A.settle d) (A.gather k (A.take ahead A.start))) := by
  simp [leafNode]

@[simp] theorem follows_inScope {names : Names} {r : Rule Unit}
    {Q : Names → List Symbol → D → Prop} :
    (inScope names r).Follows A ahead d Q ↔
      r.Follows A ahead d fun _ ahead' d' => ∀ ns, Q ns ahead' d' := Iff.rfl

@[simp] theorem follows_accept {k : TokenKind} {Q : Bool → List Symbol → D → Prop} :
    (accept k).Follows A ahead d Q ↔
      (peek ahead 0 = some k → Q true ahead.tail (A.bump k d)) ∧
        (peek ahead 0 ≠ some k → Q false ahead d) := by
  simp +contextual [accept, Abstraction.take]

@[simp] theorem follows_ifSees {k : TokenKind} {r : Rule Unit}
    {Q : Unit → List Symbol → D → Prop} :
    (ifSees k r).Follows A ahead d Q ↔
      (peek ahead 0 = some k → r.Follows A ahead d Q) ∧
        (peek ahead 0 ≠ some k → Q () ahead d) := by
  simp [ifSees]

@[simp] theorem follows_unlessSees {k : TokenKind} {r : Rule Unit}
    {Q : Unit → List Symbol → D → Prop} :
    (unlessSees k r).Follows A ahead d Q ↔
      (peek ahead 0 = some k → Q () ahead d) ∧
        (peek ahead 0 ≠ some k → r.Follows A ahead d Q) := by
  simp [unlessSees]

@[simp] theorem follows_ifAccepts {k : TokenKind} {r : Rule Unit}
    {Q : Unit → List Symbol → D → Prop} :
    (ifAccepts k r).Follows A ahead d Q ↔
      (peek ahead 0 = some k → r.Follows A ahead.tail (A.bump k d) Q) ∧
        (peek ahead 0 ≠ some k → Q () ahead d) := by
  simp [ifAccepts]

@[simp] theorem follows_optional {k : TokenKind} {Q : Unit → List Symbol → D → Prop} :
    (optional k).Follows A ahead d Q ↔
      (peek ahead 0 = some k → Q () ahead.tail (A.bump k d)) ∧
        (peek ahead 0 ≠ some k → Q () ahead d) := by
  simp +contextual [optional, Abstraction.take]

@[simp] theorem follows_require {k : TokenKind} {f : Fault} {Q : Unit → List Symbol → D → Prop} :
    (require k f).Follows A ahead d Q ↔
      (peek ahead 0 = some k → Q () ahead.tail (A.bump k d)) := by
  simp +contextual [require, Abstraction.take]

@[simp] theorem follows_requireThen {k : TokenKind} {f : Fault} {r : Rule Unit}
    {Q : Unit → List Symbol → D → Prop} :
    (requireThen k f r).Follows A ahead d Q ↔
      (peek ahead 0 = some k → r.Follows A ahead.tail (A.bump k d) Q) := by
  simp [requireThen]

@[simp] theorem follows_reject {f : Fault} {Q : Unit → List Symbol → D → Prop} :
    (reject f).Follows A ahead d Q := by
  simp [reject]

@[simp] theorem follows_orReject {f : Fault} {r : Rule Unit} {Q : Unit → List Symbol → D → Prop} :
    (orReject r f).Follows A ahead d Q ↔
      r.Follows A ahead d fun _ ahead' d' => ahead'.length ≠ ahead.length → Q () ahead' d' := by
  simp [orReject]

end Rule

/-! ### Readings -/

variable {D : Type} {A : Abstraction D} {γ : D → List Skeleton → Prop}

/-- **What is kept stays true of the trees of a segment.** -/
structure Abstraction.Sound (A : Abstraction D) (γ : D → List Skeleton → Prop) : Prop where
  start : γ A.start []
  bump : ∀ {d ss} (x : Symbol), γ d ss → γ (A.bump x.kind d) (ss ++ [.leaf x])
  settle : ∀ {d ss}, γ d ss → γ (A.settle d) (ss ++ [.slot])
  gather : ∀ {d ss} (k : NodeKind), γ d ss → γ (A.gather k d) [.node k ss]
  join : ∀ {d e ss rs}, γ d ss → γ e rs → γ (A.join d e) (ss ++ rs)

/-- What is said of constructs, as a contract of their readings. -/
def Abstraction.contract (A : Abstraction D) (γ : D → List Skeleton → Prop) : Contract where
  pre _ _ := True
  post c s _ t := ∀ d, γ d s.trees → A.pre c s.ahead d →
    ∃ e, γ e t.trees ∧ A.post c s.ahead d t.ahead e
  strict := true

/-- What comes of a rule on what is kept comes of it on states. -/
theorem Rule.Follows.wp (hA : A.Sound γ) {α : Type} {r : Rule α} {s : State} {d : D}
    {Q : α → List Symbol → D → Prop} (h : r.Follows A s.ahead d Q) (hd : γ d s.trees) :
    r.wp (A.contract γ) s fun a t => ∃ e, γ e t.trees ∧ Q a t.ahead e := by
  induction r generalizing s d with
  | done a => exact ⟨d, hd, h⟩
  | look next ih => exact ih s.view (h s.scopes) hd
  | act action next ih =>
    cases action with
    | fault f => exact .inl rfl
    | settle => exact ih h (by rw [State.trees_settle]; exact hA.settle hd)
    | gather k => exact ih h (by rw [State.trees_gather]; exact hA.gather k hd)
    | declare n b =>
      have htrees : (s.act (.declare n b)).trees = s.trees := s.trees_declaring (some n) b
      exact ih (s := s.act (.declare n b)) (by rwa [State.ahead_declare]) (htrees ▸ hd)
    | bump =>
      refine ih (s := s.act .bump) (by rwa [State.ahead_bump]) ?_
      rw [State.trees_bump, State.bumped, Abstraction.take]
      cases s.ahead with
      | nil => exact hA.settle hd
      | cons x rest => exact hA.bump x hd
  | segment inner next ihi ihn =>
    rw [Rule.wp]
    refine wp_mono (ihi (s := { s with built := [] }) h hA.start) ?_
    rintro b t ⟨e, he, hnext⟩
    have htrees : ({ t with built := t.built ++ s.built } : State).trees = s.trees ++ t.trees := by
      simp [State.trees]
    exact ihn b (s := { t with built := t.built ++ s.built }) hnext (htrees ▸ hA.join hd he)
  | scope names inner next ihi ihn =>
    rw [Rule.wp]
    refine wp_mono (ihi (s := { s with scopes := names :: s.scopes }) h hd) ?_
    rintro b t ⟨e, he, hnext⟩
    exact ihn b _ (s := { t with scopes := t.scopes.tail }) (hnext _) he
  | call c next ih =>
    refine ⟨trivial, fun r t ht => ?_⟩
    obtain ⟨e, he, hpost⟩ := ht d hd h.1
    exact ih r (h.2 r t.ahead e hpost) he

/-- **Readings without faults do what is said of constructs**, if rules do. -/
theorem Construct.read_follows (hA : A.Sound γ)
    (hrule : ∀ c ahead d, c.Starts (peek ahead 0) → A.pre c ahead d →
      c.rule.Follows A ahead d fun _ => A.post c ahead d)
    (c : Construct) (s : State) (hstarts : c.Starts s.next) (quiet : Rule.Quiet s (c.read s).2)
    {d : D} (hd : γ d s.trees) (hpre : A.pre c s.ahead d) :
    ∃ e, γ e (c.read s).2.trees ∧ A.post c s.ahead d (c.read s).2.ahead e := by
  refine Construct.read_post (K := A.contract γ) (fun c s hstarts _ => ?_) c s hstarts trivial
    (fun _ => quiet) d hd hpre
  refine Rule.wp_forall (fun _ _ => trivial) fun d => Rule.wp_forall (fun _ _ => trivial) fun hd =>
    Rule.wp_forall (fun _ _ => trivial) fun hpre => ?_
  exact (hrule c s.ahead d hstarts hpre).wp hA hd

/-- **What comes of a whole file without faults.** -/
theorem Abstraction.Sound.skeletons (hA : A.Sound γ)
    (hrule : ∀ c ahead d, c.Starts (peek ahead 0) → A.pre c ahead d →
      c.rule.Follows A ahead d fun _ => A.post c ahead d)
    {symbols : List Symbol} (h : faults symbols = []) (hpre : A.pre .declarations symbols A.start) :
    ∃ e, A.post .declarations symbols A.start [] e ∧
      γ (A.settle e) (Grammar.skeletons symbols) := by
  have hquiet :
      Rule.Quiet (.initial symbols) (Construct.declarations.read (.initial symbols)).2 := by
    have hfinal : (State.final symbols).faults = [] := by simpa [faults] using h
    exact congrArg List.length hfinal
  obtain ⟨e, he, hpost⟩ :=
    Construct.read_follows hA hrule .declarations (.initial symbols) trivial hquiet hA.start hpre
  have hend : (Construct.declarations.read (.initial symbols)).2.ahead = [] := ahead_final symbols
  rw [hend] at hpost
  refine ⟨e, hpost, ?_⟩
  rw [Grammar.skeletons, List.reverse_cons]
  exact hA.settle he

end Whittle.Grammar
