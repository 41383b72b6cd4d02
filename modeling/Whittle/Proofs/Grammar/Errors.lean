import Whittle.Proofs.Analysis
import Whittle.Proofs.Grammar.Confined

/-!
# Where errors lie

A fault is noticed at the next symbol and reading never goes back, so errors come in the order of
the text. A symbol that fits nowhere gets a node of its own right after a fault is noticed at it.

* `Skeleton.Noted`: each error node holds just a symbol, and a fault was noticed there.
* `Construct.read_noting`: **error nodes are made where faults are noticed**, in every reading.
* `pairwise_faults`: **faults are noticed in the order of the symbols.**
* `errors_located`: **errors of a text lie at its significant tokens or at its end**, in order, and
  error nodes are where errors are.
-/

namespace Whittle

open Grammar

/-! ### Error nodes in skeletons -/

namespace Skeleton

variable {P P' : Nat → Prop} {rest : Nat} {s : Skeleton} {ss rs : List Skeleton}

mutual

/-- Whether each error node of a skeleton holds just a symbol, and `P` holds of the number of
symbols from there on, given the number of those after the skeleton. -/
def Noted (P : Nat → Prop) (rest : Nat) : Skeleton → Prop
  | .leaf _ => True
  | .slot => True
  | .node k children =>
    (k = .error → (∃ x, children = [.leaf x]) ∧ P (rest + 1)) ∧ NotedAll P rest children

/-- Whether each error node of some skeletons holds just a symbol, where `P` holds. -/
def NotedAll (P : Nat → Prop) (rest : Nat) : List Skeleton → Prop
  | [] => True
  | s :: ss => s.Noted P ((symbolsAll ss).length + rest) ∧ NotedAll P rest ss

end

@[simp] theorem noted_leaf {x : Symbol} : (leaf x).Noted P rest := by simp [Noted]

@[simp] theorem noted_slot : slot.Noted P rest := by simp [Noted]

@[simp] theorem noted_node {k : NodeKind} : (node k ss).Noted P rest ↔
    (k = .error → (∃ x, ss = [.leaf x]) ∧ P (rest + 1)) ∧ NotedAll P rest ss := by
  rw [Noted]

@[simp] theorem notedAll_nil : NotedAll P rest [] := by simp [NotedAll]

@[simp] theorem notedAll_cons : NotedAll P rest (s :: ss) ↔
    s.Noted P ((symbolsAll ss).length + rest) ∧ NotedAll P rest ss := by
  rw [NotedAll]

theorem notedAll_append : NotedAll P rest (ss ++ rs) ↔
    NotedAll P ((symbolsAll rs).length + rest) ss ∧ NotedAll P rest rs := by
  induction ss with
  | nil => simp
  | cons s ss ih => simp [ih, and_assoc, Nat.add_assoc]

mutual

theorem Noted.mono (hP : ∀ n, P n → P' n) (s : Skeleton) {rest : Nat} (h : s.Noted P rest) :
    s.Noted P' rest := by
  cases s with
  | leaf x => simp
  | slot => simp
  | node k ss =>
    rw [noted_node] at h ⊢
    exact ⟨fun hk => ⟨(h.1 hk).1, hP _ (h.1 hk).2⟩, NotedAll.mono hP ss h.2⟩

/-- What is noted stays so when `P` holds of more. -/
theorem NotedAll.mono (hP : ∀ n, P n → P' n) (ss : List Skeleton) {rest : Nat}
    (h : NotedAll P rest ss) : NotedAll P' rest ss := by
  cases ss with
  | nil => simp
  | cons s ss =>
    rw [notedAll_cons] at h ⊢
    exact ⟨Noted.mono hP s h.1, NotedAll.mono hP ss h.2⟩

end

end Skeleton

/-! ### Error nodes are made where faults are noticed -/

namespace Grammar

open Skeleton

namespace State

variable {s t u : State}

/-- Whether a fault was noticed with a number of symbols ahead. -/
def IsFaulted (s : State) (n : Nat) : Prop := ∃ f, (f, n) ∈ s.faults

/-- Whether the error nodes of the innermost segment are where faults were noticed. -/
def Noted (s : State) : Prop := NotedAll s.IsFaulted s.ahead.length s.trees

/-- **Whether error nodes stay where faults were noticed** from one state to another. -/
structure Notes (s t : State) : Prop where
  /-- What is consumed stands in what is built. -/
  count : (symbolsAll t.trees).length + t.ahead.length =
    (symbolsAll s.trees).length + s.ahead.length
  faults : ∀ n, s.IsFaulted n → t.IsFaulted n
  noted : s.Noted → t.Noted

namespace Notes

theorem of_eq (htrees : t.trees = s.trees) (hahead : t.ahead = s.ahead)
    (hfaults : ∀ f ∈ s.faults, f ∈ t.faults) : s.Notes t := by
  have hnoted : ∀ n, s.IsFaulted n → t.IsFaulted n := by
    rintro n ⟨f, hf⟩
    exact ⟨f, hfaults _ hf⟩
  refine ⟨by rw [htrees, hahead], hnoted, fun hs => ?_⟩
  rw [State.Noted, htrees, hahead]
  exact NotedAll.mono hnoted _ hs

theorem refl (s : State) : s.Notes s := of_eq rfl rfl fun _ h => h

theorem trans (h : s.Notes t) (h' : t.Notes u) : s.Notes u where
  count := h'.count.trans h.count
  faults n hn := h'.faults n (h.faults n hn)
  noted hs := h'.noted (h.noted hs)

/-- A step that adds a leaf or a slot. -/
theorem of_concat {x : Skeleton} (htrees : t.trees = s.trees ++ [x])
    (hcount : x.symbols.length + t.ahead.length = s.ahead.length) (hfaults : t.faults = s.faults)
    (hx : x.Noted t.IsFaulted t.ahead.length) : s.Notes t := by
  have hsingle : (symbolsAll [x]).length = x.symbols.length := by simp [symbolsAll]
  have hmono : ∀ n, s.IsFaulted n → t.IsFaulted n := by
    intro n hn
    rwa [IsFaulted, hfaults]
  refine ⟨?_, hmono, fun hs => ?_⟩
  · rw [htrees, symbolsAll_append, List.length_append, hsingle, Nat.add_assoc, hcount]
  · rw [State.Noted, htrees, notedAll_append, hsingle, hcount]
    exact ⟨NotedAll.mono hmono _ hs, by simpa [symbolsAll] using hx⟩

theorem bump (s : State) : s.Notes (s.act .bump) := by
  refine of_concat s.trees_bump ?_ ?_ ?_
  · unfold bumped
    cases hs : s.ahead with
    | nil => simp [symbols, hs]
    | cons x rest => simp [symbols, hs, Nat.add_comm]
  · unfold act
    cases s.ahead <;> rfl
  · unfold bumped
    cases s.ahead <;> simp

theorem settle (s : State) : s.Notes (s.act .settle) :=
  of_concat s.trees_settle (by simp [symbols]) rfl (by simp)

theorem fault (s : State) (f : Fault) : s.Notes (s.act (.fault f)) :=
  of_eq rfl rfl fun _ => List.mem_cons_of_mem _

theorem declare (s : State) (n : Nat) (b : Bool) : s.Notes (s.act (.declare n b)) := by
  refine of_eq (s.trees_declaring (some n) b) (s.ahead_declare n b) ?_
  intro f hf
  unfold act
  cases s.scopes <;> exact hf

/-- A segment becomes a node that is no error node. -/
theorem gather (s : State) {k : NodeKind} (hk : k ≠ .error) : s.Notes (s.act (.gather k)) where
  count := by simp [symbolsAll, symbols]
  faults _ hn := hn
  noted hs := by
    rw [State.Noted, trees_gather, notedAll_cons, noted_node]
    have hs' : NotedAll s.IsFaulted ((symbolsAll []).length + s.ahead.length) s.trees := by
      simpa [symbolsAll, State.Noted] using hs
    exact ⟨⟨fun h => absurd h hk, hs'⟩, notedAll_nil⟩

theorem segment (h : ({ s with built := [] } : State).Notes t) :
    s.Notes { t with built := t.built ++ s.built } := by
  have htrees : ({ t with built := t.built ++ s.built } : State).trees = s.trees ++ t.trees := by
    simp [trees]
  have hcount : (symbolsAll t.trees).length + t.ahead.length = s.ahead.length := by
    simpa [trees, symbolsAll] using h.count
  refine ⟨?_, h.faults, fun hs => ?_⟩
  · rw [htrees, symbolsAll_append, List.length_append, Nat.add_assoc]
    exact congrArg _ hcount
  · rw [State.Noted, htrees, notedAll_append]
    change NotedAll t.IsFaulted ((symbolsAll t.trees).length + t.ahead.length) s.trees ∧
      NotedAll t.IsFaulted t.ahead.length t.trees
    rw [hcount]
    exact ⟨NotedAll.mono h.faults _ hs, h.noted (by simp [State.Noted, trees])⟩

theorem lasting {makes : NodeKind → Bool} (hmakes : makes .error = false) :
    Lasting makes Notes where
  refl := refl
  trans := trans
  bump := bump
  settle := settle
  fault := fault
  declare := declare
  gather s k hk := by
    refine gather s ?_
    rintro rfl
    rw [hmakes] at hk
    cases hk
  segment := segment
  scope _ h := ⟨h.count, h.faults, h.noted⟩

/-- The next symbol gets a node of its own after a fault is noticed at it. -/
theorem reject (f : Fault) (hs : s.next ≠ none) :
    s.Notes ((((s.act (.fault f)).opened.act .bump).act (.gather .error)).joined
      (s.act (.fault f))) := by
  have hne : s.ahead ≠ [] := fun h => hs (next_eq_none.2 h)
  obtain ⟨x, rest, hx⟩ := List.exists_cons_of_ne_nil hne
  have hbumped : (s.act (.fault f)).opened.bumped = .leaf x := by
    unfold bumped
    rw [ahead_opened, ahead_fault, hx]
    rfl
  have hinner : (s.act (.fault f)).opened.Notes (((s.act (.fault f)).opened.act .bump).act
      (.gather .error)) := by
    refine ⟨by simp [hbumped, hx, symbolsAll, symbols, Nat.add_comm], ?_, fun _ => ?_⟩
    · intro n hn
      exact (Notes.bump _).faults n hn
    · have hnoted : (s.act (.fault f)).IsFaulted (rest.length + 1) :=
        ⟨f, by simp [act, hx]⟩
      have hnoted' : (((s.act (.fault f)).opened.act .bump).act (.gather .error)).IsFaulted
          (rest.length + 1) := (Notes.bump (s.act (.fault f)).opened).faults _ hnoted
      rw [State.Noted, trees_gather, trees_bump, hbumped]
      simpa [hx, symbolsAll] using hnoted'
  exact (fault s f).trans ((settle _).trans (segment hinner))

end Notes

end State

/-- Whether a construct is a declaration outside functions, which is read only where a symbol is
ahead. -/
def Construct.isExternal : Construct → Bool
  | .externalDeclaration => true
  | _ => false

/-- Error nodes are made where faults are noticed. -/
def noting : Contract where
  pre c s := c.isExternal = true → s.next ≠ none
  post _ s _ s' := s.Notes s'
  strict := false

namespace Rule

open State

variable {α β : Type} {r : Rule α} {k : TokenKind} {f : Fault}

/-- In whatever state it is carried out, a rule makes error nodes only where faults are noticed. -/
def Noting (r : Rule α) : Prop := ∀ s, r.wp noting s fun _ s' => s.Notes s'

/-- A rule makes error nodes only where faults are noticed, if a symbol is ahead. -/
def NotingAhead (r : Rule α) : Prop :=
  ∀ s, s.next ≠ none → r.wp noting s fun _ s' => s.Notes s'

theorem Noting.ahead (h : Noting r) : NotingAhead r := fun s _ => h s

/-- A rule that makes no error nodes itself. -/
theorem noting_of_confined
    (h : r.Confined (fun k => decide (k ≠ .error)) (fun c => !c.isExternal) fun _ => True) :
    Noting r := by
  intro s
  refine wp_mono (h.lasts (Notes.lasting (by decide)) ?_ s) fun _ _ h => h.2
  intro c s hc
  exact ⟨fun hext => by simp [hext] at hc, fun _ _ h => h⟩

theorem notingAhead_seq {t : Rule β} (hr : NotingAhead r) (ht : Noting t) :
    NotingAhead (r >>= fun _ => t) := by
  intro s hs
  rw [wp_bind]
  exact wp_mono (hr s hs) fun _ s₁ h₁ => wp_mono (ht s₁) fun _ _ h₂ => h₁.trans h₂

theorem notingAhead_reject : NotingAhead (reject f) :=
  fun _ hs => wp_reject.2 (.inr (.reject f hs))

/-- What a rule leaves is rejected only if it took nothing, so that there is something to reject. -/
theorem notingAhead_orReject {r : Rule Unit} (hr : NotingAhead r) : NotingAhead (orReject r f) := by
  intro s hs
  rw [wp_orReject]
  refine wp_mono (hr s hs) fun _ s₁ h₁ => ⟨fun hlength => ?_, fun _ => h₁⟩
  have hpos := length_pos_of_next_ne_none hs
  have hnext : s₁.next ≠ none := by
    intro hnone
    rw [next_eq_none.1 hnone] at hlength
    rw [← hlength] at hpos
    cases hpos
  exact wp_mono (notingAhead_reject s₁ hnext) fun _ _ h₂ => h₁.trans h₂

theorem noting_unlessEnds {r : Rule Unit} (hr : NotingAhead r) :
    Noting (do unless ← endsAt k do r) := by
  intro s
  simp only [wp_bind, wp_endsAt, wp_ite, wp_pure, decide_eq_true_eq]
  exact ⟨fun _ => .refl s, fun hend => hr s fun hnone => hend (.inl hnone)⟩

theorem noting_declarations : Noting declarations := by
  intro s
  simp only [declarations, wp_bind, wp_view, wp_ite, wp_pure, ahead_view, List.isEmpty_iff]
  refine ⟨fun _ => .refl s, fun hne => ?_⟩
  have hnext : s.next ≠ none := fun hnone => hne (next_eq_none.1 hnone)
  have hread : NotingAhead (read .externalDeclaration) :=
    fun t ht => wp_read.2 ⟨fun _ => ht, fun _ _ h => h⟩
  refine wp_mono (notingAhead_orReject hread s hnext) fun _ s₁ h₁ => wp_read.2 ?_
  exact ⟨by rintro ⟨⟩, fun _ _ h₂ => h₁.trans h₂⟩

attribute [local simp] Construct.isExternal leafNode require Rule.optional accept

theorem notingAhead_externalDeclaration : NotingAhead externalDeclaration := by
  intro s hs
  rw [externalDeclaration, wp_bind, wp_view]
  split
  case h_6 =>
    split
    · exact noting_of_confined (by simp) s
    · exact notingAhead_reject s hs
  all_goals exact noting_of_confined (by simp) s

theorem notingAhead_asmOperand : NotingAhead asmOperand := by
  intro s hs
  rw [asmOperand, wp_bind, wp_next]
  split
  case h_7 => exact notingAhead_reject s hs
  all_goals exact noting_of_confined (by simp) s

theorem noting_primary : Noting primary := by
  intro s
  rw [primary, wp_bind, wp_view]
  split
  case h_12 hnone _ _ _ _ _ => exact notingAhead_reject s hnone
  all_goals exact noting_of_confined (by simp) s

/-- **Each rule makes error nodes only where faults are noticed.** -/
theorem rule_noting (c : Construct) (s : State) (hpre : noting.pre c s) :
    c.rule.wp noting s fun _ s' => s.Notes s' := by
  have again {c : Construct} (hc : c.isExternal = false) : Noting (read c) :=
    noting_of_confined (confined_read.2 ⟨by rw [hc]; rfl, fun _ => trivial⟩)
  by_cases herror : .error ∈ c.makes
  · cases c with
    | declarations => exact noting_declarations s
    | externalDeclaration => exact notingAhead_externalDeclaration s (hpre rfl)
    | fields =>
      have hfield : Noting (do unless ← accept .semicolon do read .fieldGroup) :=
        noting_of_confined (by simp)
      exact noting_unlessEnds
        (notingAhead_seq (notingAhead_orReject hfield.ahead) (again rfl)) s
    | params =>
      have hparam : Noting (do unless ← accept .ellipsis do read .param) :=
        noting_of_confined (by simp)
      have hmore : Noting (ifAccepts .comma (read .params)) :=
        noting_of_confined (by simp [ifAccepts])
      exact noting_unlessEnds (notingAhead_seq (notingAhead_orReject hparam.ahead) hmore) s
    | initializers =>
      have hinit : Noting listedInitializer :=
        noting_of_confined (by simp [listedInitializer, optionalDesignator])
      have hmore : Noting (ifAccepts .comma (read .initializers)) :=
        noting_of_confined (by simp [ifAccepts])
      exact noting_unlessEnds (notingAhead_seq (notingAhead_orReject hinit.ahead) hmore) s
    | blockItems =>
      exact noting_unlessEnds
        (notingAhead_seq (notingAhead_orReject (again rfl).ahead) (again rfl)) s
    | asmOperands =>
      exact noting_unlessEnds (notingAhead_seq notingAhead_asmOperand (again rfl)) s
    | primary => exact noting_primary s
    | _ => simp [Construct.makes] at herror
  · have hlasting : Lasting (fun k => decide (k ∈ c.makes)) Notes :=
      Notes.lasting (decide_eq_false herror)
    refine wp_mono ((confined_rule c).lasts hlasting ?_ s) fun _ _ h => h.2
    intro c' t hread
    refine ⟨fun hext => ?_, fun _ _ h => h⟩
    cases c' with
    | externalDeclaration =>
      cases c with
      | declarations => exact absurd (List.mem_singleton_self _) herror
      | _ => cases hread
    | _ => cases hext

end Rule

/-- **Error nodes are made where faults are noticed**, in every reading. -/
theorem Construct.read_noting (c : Construct) (s : State) (hstarts : c.Starts s.next)
    (hpre : noting.pre c s) : s.Notes (c.read s).2 :=
  Construct.read_post (fun c s _ hpre => Rule.rule_noting c s hpre) c s hstarts hpre
    fun h => by cases h

/-! ### Faults come in order -/

/-- Whether the faults were noticed in order, the latest first, all at or before what is ahead. -/
structure State.Ordered (s : State) : Prop where
  ahead : ∀ f ∈ s.faults, s.ahead.length ≤ f.2
  pairwise : s.faults.Pairwise (·.2 ≤ ·.2)

/-- No effect goes back. -/
theorem steady_ordered : Steady fun s s' => s.Ordered → s'.Ordered where
  refl _ h := h
  trans h h' hs := h' (h hs)
  act s a hs := by
    cases a with
    | bump =>
      have hfaults : (s.act .bump).faults = s.faults := by
        unfold State.act
        cases s.ahead <;> rfl
      refine ⟨fun f hf => ?_, hfaults ▸ hs.pairwise⟩
      have hle := hs.ahead f (hfaults ▸ hf)
      rw [Rule.length_bump]
      omega
    | settle => exact ⟨hs.ahead, hs.pairwise⟩
    | gather k => exact ⟨hs.ahead, hs.pairwise⟩
    | fault f =>
      constructor
      · intro g hg
        obtain rfl | hg := List.mem_cons.1 hg
        · exact Nat.le_refl _
        · exact hs.ahead g hg
      · exact List.pairwise_cons.2 ⟨hs.ahead, hs.pairwise⟩
    | declare n b =>
      have hfaults : (s.act (.declare n b)).faults = s.faults := by
        unfold State.act
        cases s.scopes <;> rfl
      refine ⟨fun f hf => ?_, hfaults ▸ hs.pairwise⟩
      rw [State.ahead_declare]
      exact hs.ahead f (hfaults ▸ hf)
  segment h hs := by
    have hs' := h ⟨hs.ahead, hs.pairwise⟩
    exact ⟨hs'.ahead, hs'.pairwise⟩
  scope _ h hs := by
    have hs' := h ⟨hs.ahead, hs.pairwise⟩
    exact ⟨hs'.ahead, hs'.pairwise⟩
  stall _ hs := ⟨hs.ahead, hs.pairwise⟩

/-- **Faults are noticed in the order of the symbols.** -/
theorem pairwise_faults (symbols : List Symbol) : (faults symbols).Pairwise (·.2 ≤ ·.2) := by
  have hinitial : (State.initial symbols).Ordered := ⟨by simp [State.initial], .nil⟩
  have hfinal : (State.final symbols).Ordered :=
    Construct.read_steady steady_ordered .declarations (.initial symbols) hinitial
  rw [faults, List.pairwise_map, List.pairwise_reverse]
  refine hfinal.pairwise.imp fun {f g} hle => ?_
  omega

/-- Each error node of a file holds a symbol at which a fault is noticed. -/
theorem noted_skeletons (symbols : List Symbol) :
    NotedAll (fun n => ∃ f ∈ faults symbols, f.2 = symbols.length - n) 0 (skeletons symbols) := by
  have hnotes := Construct.read_noting .declarations (.initial symbols) trivial nofun
  have hfinal : (State.final symbols).Noted :=
    hnotes.noted (by simp [State.Noted, State.trees, State.initial])
  rw [State.Noted, ahead_final] at hfinal
  rw [skeletons, List.reverse_cons, notedAll_append]
  refine ⟨NotedAll.mono ?_ _ hfinal, by simp⟩
  rintro n ⟨f, hf⟩
  exact ⟨(f, symbols.length - n), List.mem_map.2 ⟨(f, n), List.mem_reverse.2 hf, rfl⟩, rfl⟩

end Grammar

/-! ### Error nodes in trees -/

namespace Placed

variable {Q : Span → Prop} {t : Placed} {ts us : List Placed}

mutual

/-- Whether each error node of a part holds just a significant token, with a span that satisfies
`Q`. -/
def Flagged (Q : Span → Prop) : Placed → Prop
  | .token _ _ => True
  | .node _ kind children =>
    (kind = .error → ∃ l : Leaf, children = [.token l.start l.token] ∧
      l.token.isTrivia = false ∧ Q l.span) ∧ FlaggedAll Q children

/-- Whether each error node of some parts holds just a significant token. -/
def FlaggedAll (Q : Span → Prop) : List Placed → Prop
  | [] => True
  | t :: ts => t.Flagged Q ∧ FlaggedAll Q ts

end

theorem flaggedAll_append : FlaggedAll Q (ts ++ us) ↔ FlaggedAll Q ts ∧ FlaggedAll Q us := by
  induction ts with
  | nil => simp [FlaggedAll]
  | cons t ts ih => simp [FlaggedAll, ih, and_assoc]

theorem FlaggedAll.of_mem (h : FlaggedAll Q ts) (ht : t ∈ ts) : t.Flagged Q := by
  obtain ⟨l, r, rfl⟩ := List.append_of_mem ht
  rw [flaggedAll_append, FlaggedAll] at h
  exact h.2.1

theorem flaggedAll_tokens (start : Nat) (ts : List Token) :
    FlaggedAll Q (Tree.placeAll start (ts.map .token)) := by
  induction ts generalizing start with
  | nil => simp [Tree.placeAll, FlaggedAll]
  | cons t ts ih => simp [Tree.placeAll, Tree.place, FlaggedAll, Flagged, ih]

/-- All sites of a flagged tree are flagged. -/
theorem Flagged.site {root : Placed} (h : root.Flagged Q) : ∀ s ∈ root.sites, s.node.Flagged Q := by
  refine sites_induction (fun u c hu hc _ => ?_) fun _ => h
  obtain ⟨start, kind, l, r, hnode, -⟩ := Site.parent?_eq_some.1 hc
  rw [hnode, Flagged] at hu
  exact hu.2.of_mem (by simp)

end Placed

namespace Token

theorem significantSpans_append (start : Nat) (ts us : List Token) :
    significantSpans start (ts ++ us) =
      significantSpans start ts ++ significantSpans (start + (concat ts).size) us := by
  simp only [significantSpans_eq, Leaf.layout_append, List.filter_append, List.map_append]

theorem length_significantSpans (start : Nat) (ts : List Token) :
    (significantSpans start ts).length = (significant ts).length := by
  induction ts generalizing start with
  | nil => rfl
  | cons t ts ih =>
    rw [significantSpans, significant_cons]
    cases t.isTrivia <;> simp [ih]

end Token

namespace Skeleton

open Token Placed

section

variable {P : Nat → Prop} {Q : Span → Prop} {spans : List Span}

/-- A symbol where trivia have settled becomes a token, which lies at its place among all. -/
theorem weave_leaf {x : Symbol} {start : Nat} {ts : List Token} {kinds : List TokenKind}
    (hspans : significantSpans start ts <:+ spans) (hclear : ClearAhead ts)
    (hkinds : kindsOf ts = x.kind :: kinds) :
    ∃ t, (weaveAll [.leaf x] ts).1 = [.token t] ∧ t.isTrivia = false ∧
      spans[spans.length - (kinds.length + 1)]? = some ⟨start, start + t.size⟩ := by
  cases ts with
  | nil => simp [kindsOf] at hkinds
  | cons t ts =>
    have ht : t.isTrivia = false := hclear t rfl
    refine ⟨t, by simp [weaveAll, weave, ht], ht, ?_⟩
    obtain ⟨before, hbefore⟩ := hspans
    have hlength : (significantSpans start (t :: ts)).length = kinds.length + 1 := by
      rw [length_significantSpans, ← List.length_map (f := (·.kind))]
      exact congrArg List.length hkinds
    rw [← hbefore, List.length_append, hlength, Nat.add_sub_cancel,
      List.getElem?_append_right (Nat.le_refl _), Nat.sub_self, significantSpans,
      if_neg (by simp [ht])]
    rfl

mutual

theorem flagged_weave (hPQ : ∀ n span, P n → spans[spans.length - n]? = some span → Q span)
    (s : Skeleton) (clear : Bool) (start : Nat) (ts : List Token) (kinds : List TokenKind)
    (hnoted : s.Noted P kinds.length) (hsettled : s.Settled clear)
    (hclear : clear = true → ClearAhead ts) (hspans : significantSpans start ts <:+ spans)
    (hkinds : kindsOf ts = s.symbols.map (·.kind) ++ kinds) :
    FlaggedAll Q (Tree.placeAll start (s.weave ts).1) := by
  cases s with
  | leaf x => exact flaggedAll_tokens start _
  | slot => exact flaggedAll_tokens start _
  | node k ss =>
    obtain ⟨hstart, hss⟩ := settled_node.1 hsettled
    obtain ⟨herror, hbelow⟩ := noted_node.1 hnoted
    have hchildren := flaggedAll_weaveAll hPQ ss clear start ts kinds hbelow hss hclear hspans
      hkinds
    simp only [weave, Tree.placeAll, Tree.place, FlaggedAll, Flagged, and_true]
    refine ⟨fun hk => ?_, hchildren⟩
    obtain ⟨⟨x, rfl⟩, hP⟩ := herror hk
    obtain ⟨t, ht, htrivia, hspan⟩ := weave_leaf hspans (hclear hstart) hkinds
    rw [ht]
    exact ⟨⟨start, t⟩, rfl, htrivia, hPQ _ _ hP hspan⟩

/-- **Error nodes stay flagged** when tokens are woven into settled skeletons. -/
theorem flaggedAll_weaveAll (hPQ : ∀ n span, P n → spans[spans.length - n]? = some span → Q span)
    (ss : List Skeleton) (clear : Bool) (start : Nat) (ts : List Token) (kinds : List TokenKind)
    (hnoted : NotedAll P kinds.length ss) (hsettled : SettledAll clear ss)
    (hclear : clear = true → ClearAhead ts) (hspans : significantSpans start ts <:+ spans)
    (hkinds : kindsOf ts = (symbolsAll ss).map (·.kind) ++ kinds) :
    FlaggedAll Q (Tree.placeAll start (weaveAll ss ts).1) := by
  cases ss with
  | nil => simp [weaveAll, Tree.placeAll, FlaggedAll]
  | cons s ss =>
    obtain ⟨hs, hss⟩ := notedAll_cons.1 hnoted
    obtain ⟨hsettled, hsettled'⟩ := settledAll_cons.1 hsettled
    rw [symbolsAll, List.map_append, List.append_assoc] at hkinds
    have hfirst := flagged_weave hPQ s clear start ts ((symbolsAll ss).map (·.kind) ++ kinds)
      (by simpa using hs) hsettled hclear hspans hkinds
    have hclear' := (trimmed_weave s clear ts hsettled hclear).2
    have hkinds' := (shapes_weave s ts _ hkinds).2
    -- the tokens that are left lie behind those of the first skeleton
    have hspans' : significantSpans (start + Tree.sizeAll (s.weave ts).1) (s.weave ts).2 <:+
        spans := by
      refine List.IsSuffix.trans ⟨significantSpans start (Tree.leavesAll (s.weave ts).1), ?_⟩ hspans
      rw [Tree.sizeAll_eq, ← significantSpans_append, leaves_weave]
    have hrest := flaggedAll_weaveAll hPQ ss _ _ (s.weave ts).2 kinds hss hsettled' hclear' hspans'
      hkinds'
    rw [weaveAll, Tree.placeAll_append, flaggedAll_append]
    exact ⟨hfirst, hrest⟩

end

end

end Skeleton

/-! ### Errors of a text -/

variable {t : Text}

/-- Each error node of the tree of a text holds just a token at which an error lies. -/
theorem flagged_parse (t : Text) :
    (parse t).root.Flagged fun span => ∃ e ∈ (parse t).errors, e.span = span := by
  have hsettled := (sound_skeletons (Symbol.ofTokens (Token.significant (tokens t)))).2.settled
  have hnoted := noted_skeletons (Symbol.ofTokens (Token.significant (tokens t)))
  have hkinds : Skeleton.kindsOf (tokens t) = (Skeleton.symbolsAll
      (skeletons (Symbol.ofTokens (Token.significant (tokens t))))).map (·.kind) ++ [] := by
    rw [symbols_skeletons, map_kind_ofTokens, List.append_nil, Skeleton.kindsOf]
  have hlength : (Symbol.ofTokens (Token.significant (tokens t))).length =
      (Token.significantSpans 0 (tokens t)).length := by
    rw [Token.length_significantSpans, Symbol.ofTokens, List.length_map]
  have hlocate : ∀ n span,
      (∃ f ∈ faults (Symbol.ofTokens (Token.significant (tokens t))),
        f.2 = (Symbol.ofTokens (Token.significant (tokens t))).length - n) →
      (Token.significantSpans 0 (tokens t))[(Token.significantSpans 0 (tokens t)).length - n]? =
        some span →
      ∃ e ∈ (parse t).errors, e.span = span := by
    rintro n span ⟨f, hf, hplace⟩ hspan
    refine ⟨_, List.mem_map_of_mem hf, ?_⟩
    rw [hplace, hlength, locate, hspan]
    rfl
  have hchildren := Skeleton.flaggedAll_weaveAll hlocate _ false 0 (tokens t) [] hnoted hsettled
    (by simp) (List.suffix_refl _) hkinds
  rw [Parsed.root, parse, Tree.place, Placed.Flagged]
  exact ⟨by simp, hchildren⟩

/-- An error lies at a significant token or at the end of the text. -/
theorem span_of_mem_errors {e : SyntaxError} (he : e ∈ (parse t).errors) :
    (∃ l ∈ t.significantLeaves, e.span = l.span) ∨ e.span = ⟨t.size, t.size⟩ := by
  obtain ⟨f, -, rfl⟩ := List.mem_map.1 he
  simp only [locate, significantSpans_eq]
  change (∃ l ∈ t.significantLeaves, (t.significantLeaves.map Leaf.span)[f.2]?.getD _ = l.span) ∨
    (t.significantLeaves.map Leaf.span)[f.2]?.getD _ = _
  rw [List.getElem?_map]
  cases hl : t.significantLeaves[f.2]? with
  | none => exact .inr rfl
  | some l => exact .inl ⟨l, List.mem_of_getElem? hl, rfl⟩

namespace Token

theorem start_mem_significantSpans {start : Nat} {ts : List Token} {span : Span}
    (h : span ∈ significantSpans start ts) :
    start ≤ span.start ∧ span.start ≤ start + (concat ts).size := by
  induction ts generalizing start with
  | nil => simp [significantSpans] at h
  | cons t ts ih =>
    rw [size_concat_cons]
    rw [significantSpans] at h
    split at h
    · have hbounds := ih h
      omega
    · obtain rfl | h := List.mem_cons.1 h
      · dsimp only
        omega
      · have hbounds := ih h
        omega

theorem pairwise_significantSpans (start : Nat) (ts : List Token) :
    (significantSpans start ts).Pairwise (·.start ≤ ·.start) := by
  induction ts generalizing start with
  | nil => exact .nil
  | cons t ts ih =>
    rw [significantSpans]
    split
    · exact ih _
    · refine List.pairwise_cons.2 ⟨fun span hspan => ?_, ih _⟩
      have hbounds := start_mem_significantSpans hspan
      dsimp only
      omega

end Token

/-- What is noticed later does not lie before. -/
theorem start_locate_le (t : Text) {m n : Nat} (h : m ≤ n) :
    (locate t (Token.significantSpans 0 (tokens t)) m).start ≤
      (locate t (Token.significantSpans 0 (tokens t)) n).start := by
  have hsize : (Token.concat (tokens t)).size = t.size := by rw [Token.concat_tokens]
  unfold locate
  by_cases hn : n < (Token.significantSpans 0 (tokens t)).length
  · have hm : m < (Token.significantSpans 0 (tokens t)).length := by omega
    rw [List.getElem?_eq_getElem hn, List.getElem?_eq_getElem hm]
    obtain rfl | hlt := Nat.eq_or_lt_of_le h
    · exact Nat.le_refl _
    · exact List.pairwise_iff_getElem.1 (Token.pairwise_significantSpans 0 (tokens t)) m n hm hn hlt
  · rw [List.getElem?_eq_none (Nat.le_of_not_lt hn)]
    by_cases hm : m < (Token.significantSpans 0 (tokens t)).length
    · have hbounds := Token.start_mem_significantSpans (List.getElem_mem hm)
      rw [List.getElem?_eq_getElem hm]
      simp only [Option.getD_some, Option.getD_none]
      omega
    · exact Nat.le_of_eq (by rw [List.getElem?_eq_none (Nat.le_of_not_lt hm)])

/-- The errors of a text come in the order of where they lie. -/
theorem pairwise_errors (t : Text) :
    (parse t).errors.Pairwise fun e e' => e.span.start ≤ e'.span.start := by
  simp only [parse, List.pairwise_map]
  exact (pairwise_faults _).imp fun hle => start_locate_le t hle

/-- **Errors point at real places, in order.** Each error of a text lies at one of its significant
tokens or, empty, at its end, and no error starts before an earlier one. Each error node holds just
one token, which is significant and has an error that lies at it. -/
theorem errors_located (t : Text) :
    (∀ e ∈ (parse t).errors,
      (∃ l ∈ t.significantLeaves, e.span = l.span) ∨ e.span = ⟨t.size, t.size⟩) ∧
    (parse t).errors.Pairwise (fun e e' => e.span.start ≤ e'.span.start) ∧
    ∀ s ∈ (parse t).root.sites, s.node.isNode .error = true →
      ∃ l ∈ t.significantLeaves, s.node.children = [.token l.start l.token] ∧
        ∃ e ∈ (parse t).errors, e.span = l.span := by
  refine ⟨fun e he => span_of_mem_errors he, pairwise_errors t, fun s hs herror => ?_⟩
  have hflagged := (flagged_parse t).site s hs
  obtain ⟨before, after, hleaves, -⟩ := Site.runIn (regular_parse t).snug hs
  cases hnode : s.node with
  | token start u => simp [hnode, Placed.isNode, Placed.kind] at herror
  | node start kind children =>
    rw [hnode] at hflagged herror hleaves
    rw [Placed.Flagged] at hflagged
    obtain ⟨l, rfl, htrivia, hspan⟩ := hflagged.1 (Placed.isNode_node.1 herror)
    refine ⟨l, List.mem_filter.2 ⟨?_, by simp [htrivia]⟩, rfl, hspan⟩
    rw [← (parse_lossless t).2.1, hleaves]
    simp

/-- A value is missing and a bracket is never closed: some errors lie at the end of the text, others
where error nodes are. -/
theorem errors_located_unclosed :
    let t : Text := "int a = ) 3;\nint b[2 /* end */".toList
    (∃ e ∈ (parse t).errors, e.span.start = 30 ∧
      ((∃ l ∈ t.significantLeaves, e.span = l.span) ∨ e.span = ⟨t.size, t.size⟩)) ∧
    (parse t).errors.Pairwise (fun e e' => e.span.start ≤ e'.span.start) ∧
    ∃ s ∈ (parse t).root.sites, s.node.isNode .error = true ∧
      ∃ l ∈ t.significantLeaves, s.node.children = [.token l.start l.token] ∧
        ∃ e ∈ (parse t).errors, e.span = l.span := by
  intro t
  have hend : (parse t).errors.any (fun e => decide (e.span.start = 30)) = true := by
    decide +kernel
  have hnode : (parse t).root.sites.any (·.node.isNode .error) = true := by decide +kernel
  obtain ⟨e, he, hstart⟩ := List.any_eq_true.1 hend
  obtain ⟨s, hs, herror⟩ := List.any_eq_true.1 hnode
  obtain ⟨hplaces, horder, hnodes⟩ := errors_located t
  exact ⟨⟨e, he, of_decide_eq_true hstart, hplaces e he⟩, horder, s, hs, herror, hnodes s hs herror⟩

end Whittle
