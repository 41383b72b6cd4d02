import Whittle.Proofs.Name.Replay

/-!
# The scopes of the grammar are those of its trees

Each construct leaves the scopes as they can be read off the trees it adds, and in those trees names
are used as the scopes said.

* `State.Adds`: whether a state comes of another by some trees, in this sense.
* `Rule.Plain`: rules that leave the scopes to the constructs they read. What they add is right if
  what those add is.
* `Construct.Scoped`: what each construct adds.
* `Construct.read_scoped`: **every construct adds what it should.**
* `agrees_skeletons`: in the sketch of a file, names are used as the scopes say.
-/

namespace Whittle.Grammar

open Sketch Names

/-! ### What states add to others -/

/-- Most nodes may begin with anything. -/
theorem mayBegin {σ : List Names} {st : Setting} {k : NodeKind} {x : Symbol} (hk : k ≠ .name)
    (he : st = .block → k ≠ .exprStmt) : MayBegin σ st k x :=
  ⟨fun h => absurd h hk, fun hst h => absurd h (he hst)⟩

namespace State

variable {s t : State} {st : Setting} {xs ys : List Sketch}

@[simp] theorem scopes_declaring (s : State) (n : Option Nat) (b : Bool) :
    (s.declaring n b).scopes = bring (n.map (·, b)).toList s.scopes := by
  cases n with
  | none => simp [declaring]
  | some n => unfold declaring act; cases hs : s.scopes <;> simp [hs, bring, Names.declare]

/-- **Whether a state comes of another by some trees**: they have the symbols that are consumed,
they leave behind the names that are new, and they use names as the scopes say. -/
structure Adds (st : Setting) (s s' : State) (xs : List Sketch) : Prop where
  sketches : s'.sketches = s.sketches ++ xs
  ahead : s.ahead = symbolsAll xs ++ s'.ahead
  scopes : s'.scopes = bring (entriesAll st xs) s.scopes
  agrees : AgreesAll s.scopes st xs

theorem Adds.of_eq (hsketches : t.sketches = s.sketches) (hahead : t.ahead = s.ahead)
    (hscopes : t.scopes = s.scopes) : s.Adds st t [] :=
  ⟨by simp [hsketches], by simp [hahead], by simp [hscopes], agreesAll_nil⟩

theorem Adds.refl (s : State) : s.Adds st s [] := .of_eq rfl rfl rfl

theorem Adds.trans {u : State} (h : s.Adds st t xs) (h' : t.Adds st u ys) :
    s.Adds st u (xs ++ ys) where
  sketches := by rw [h'.sketches, h.sketches, List.append_assoc]
  ahead := by rw [symbolsAll_append, List.append_assoc, ← h'.ahead, h.ahead]
  scopes := by rw [h'.scopes, h.scopes, bring_bring, entriesAll_append]
  agrees := agreesAll_append.2 ⟨h.agrees, h.scopes ▸ h'.agrees⟩

theorem Adds.bump (h : st ≠ .specifiers) (s : State) : s.Adds st (s.act .bump) s.taken where
  sketches := s.sketches_bump
  ahead := by rw [ahead_bump]; exact s.ahead_eq_taken
  scopes := by unfold taken; cases s.ahead <;> simp
  agrees := by unfold taken; cases s.ahead <;> simp [agrees_leaf, h]

theorem Adds.fault (f : Fault) (s : State) : s.Adds st (s.act (.fault f)) [] := .of_eq rfl rfl rfl

/-- What a segment adds when it ends. -/
theorem Adds.joined (h : s.opened.Adds st t xs) : s.Adds st (t.joined s) xs where
  sketches := by rw [sketches_joined, h.sketches, sketches_opened, List.nil_append]
  ahead := h.ahead
  scopes := h.scopes
  agrees := h.agrees

theorem Adds.segment (h : ({ s with built := [] } : State).Adds st t xs) :
    s.Adds st { t with built := t.built ++ s.built } xs where
  sketches := by
    have hsketches := h.sketches
    unfold State.sketches trees at hsketches ⊢
    simpa using hsketches
  ahead := h.ahead
  scopes := h.scopes
  agrees := h.agrees

theorem Adds.sketches_of_nil (h : s.Adds st t xs) (hs : s.sketches = []) : t.sketches = xs := by
  rw [h.sketches, hs, List.nil_append]

/-- What a node adds in place of its parts. -/
theorem Adds.gather_of {k : NodeKind} (hs : s.sketches = []) (ht : t.sketches = xs)
    (hahead : s.ahead = symbolsAll xs ++ t.ahead)
    (hscopes : t.scopes = bring ((Sketch.node k xs).entries st) s.scopes)
    (hagrees : (Sketch.node k xs).Agrees s.scopes st) :
    s.Adds st (t.act (.gather k)) [.node k xs] where
  sketches := by rw [sketches_gather, ht, hs, List.nil_append]
  ahead := by simpa using hahead
  scopes := by simpa using hscopes
  agrees := by simpa using hagrees

/-- A node without a role adds what its parts add. -/
theorem Adds.gather {k : NodeKind} (h : s.Adds (.below k xs) t xs) (hs : s.sketches = [])
    (hk : k.role = .plain)
    (hbegin : ∀ x, (symbolsAll xs).head? = some x → MayBegin s.scopes st k x) :
    s.Adds st (t.act (.gather k)) [.node k xs] := by
  refine .gather_of hs (h.sketches_of_nil hs) h.ahead ?_ ?_
  · rw [entries_plain hk, h.scopes]
  · rw [Agrees, hk]
    exact ⟨hbegin, h.agrees⟩

/-- Where most nodes stand makes no difference. -/
theorem Adds.congr {k : NodeKind} {st' : Setting} (h : s.Adds st t [.node k xs])
    (hk : k.role ≠ .member) (he : k ≠ .exprStmt) : s.Adds st' t [.node k xs] where
  sketches := h.sketches
  ahead := h.ahead
  scopes := by
    have hentries : (Sketch.node k xs).entries st = (Sketch.node k xs).entries st' :=
      entries_congr hk
    rw [h.scopes, entriesAll_cons, entriesAll_cons, hentries, entriesAll_nil, entriesAll_nil]
  agrees := by
    have hagrees := h.agrees
    rw [agreesAll_cons, agrees_congr hk he] at hagrees
    exact agreesAll_cons.2 ⟨hagrees.1, agreesAll_nil⟩

/-- Whether a state comes of another by some symbols, whatever the scopes are. -/
structure Takes (s s' : State) (xs : List Sketch) : Prop where
  sketches : s'.sketches = s.sketches ++ xs
  ahead : s.ahead = symbolsAll xs ++ s'.ahead
  scopes : s'.scopes = s.scopes
  isLeaf : ∀ x ∈ xs, ∃ symbol, x = .leaf symbol

namespace Takes

theorem refl (s : State) : s.Takes s [] := ⟨by simp, by simp, rfl, by simp⟩

theorem bump (s : State) : s.Takes (s.act .bump) s.taken where
  sketches := s.sketches_bump
  ahead := by rw [ahead_bump]; exact s.ahead_eq_taken
  scopes := s.scopes_bump
  isLeaf := by unfold taken; cases s.ahead <;> simp

theorem fault (f : Fault) (s : State) : s.Takes (s.act (.fault f)) [] :=
  ⟨by simp, by simp, rfl, by simp⟩

theorem entriesAll (h : s.Takes t xs) : entriesAll st xs = [] := by
  have hleaf := h.isLeaf
  clear h
  induction xs with
  | nil => exact entriesAll_nil
  | cons x xs ih =>
    obtain ⟨⟨symbol, rfl⟩, hxs⟩ := List.forall_mem_cons.1 hleaf
    rw [entriesAll_cons, ih hxs, entries_leaf, List.append_nil]

theorem agrees (h : s.Takes t xs) {σ : List Names} (hst : st ≠ .specifiers) :
    AgreesAll σ st xs := by
  have hleaf := h.isLeaf
  clear h
  induction xs with
  | nil => exact agreesAll_nil
  | cons x xs ih =>
    obtain ⟨⟨symbol, rfl⟩, hxs⟩ := List.forall_mem_cons.1 hleaf
    rw [agreesAll_cons, entries_leaf, bring_nil]
    exact ⟨agrees_leaf.2 fun h => absurd h hst, ih hxs⟩

end Takes

end State

/-! ### What each construct adds -/

/-- Whether parts are symbols or attributes, which a declarator holds besides what makes it. -/
def Aside (xs : List Sketch) : Prop := ∀ x ∈ xs, ∀ k parts, x = .node k parts → k = .attr

namespace Aside

theorem nil : Aside [] := by simp [Aside]

theorem append {xs ys : List Sketch} (hxs : Aside xs) (hys : Aside ys) : Aside (xs ++ ys) :=
  fun x hx => (List.mem_append.1 hx).elim (hxs x) (hys x)

theorem taken (s : State) : Aside s.taken := by
  unfold State.taken
  cases s.ahead <;> simp [Aside]

theorem attr (parts : List Sketch) : Aside [.node .attr parts] := by
  intro x hx k parts' heq
  rw [List.mem_singleton.1 hx] at heq
  exact (Sketch.node.inj heq).1.symm

/-- None of the parts that make a declarator stands aside. -/
theorem isNode {xs : List Sketch} (h : Aside xs) {k : NodeKind} (hk : k ≠ .attr) :
    ∀ x ∈ xs, x.isNode k = false := by
  intro x hx
  cases x with
  | leaf x => rfl
  | node kind parts =>
    obtain rfl := h _ hx kind parts rfl
    simpa [Sketch.isNode] using hk.symm

theorem isSuffix {xs : List Sketch} (h : Aside xs) : ∀ x ∈ xs, x.isSuffix = false := by
  intro x hx
  rw [Sketch.isSuffix, h.isNode (by decide) x hx, h.isNode (by decide) x hx, Bool.or_false]

end Aside

/-- **What a construct adds**, and what its result says of it. -/
def Construct.Scoped : (c : Construct) → State → c.Result → State → Prop
  | .moreDeclarators isTypedef, s, _, s' => ∃ xs, s.Adds (.group isTypedef) s' xs
  | .functionBody ns, s, _, s' => ∃ t xs, (s.entered ns).Adds .plain t xs ∧ s' = t.closed
  | .specifiers, s, r, s' =>
    ∃ xs, s.Adds .plain s' [.node .specifiers xs] ∧ r = xs.any (·.isSymbol .kwTypedef)
  | .specifierList isTypedef _, s, r, s' =>
    ∃ xs, s.Adds .specifiers s' xs ∧ r = (isTypedef || xs.any (·.isSymbol .kwTypedef))
  | .attributes _, s, _, s' | .pointers, s, _, s' | .series _, s, _, s' =>
    ∃ xs, s.Adds .plain s' xs ∧ Aside xs
  | .declarator, s, r, s' =>
    ∃ xs, s.Adds .plain s' [.node .declarator xs] ∧
      r = ⟨(Sketch.node .declarator xs).declared?, (Sketch.node .declarator xs).paramNames?⟩
  | .suffixes isFirst known, s, r, s' =>
    ∃ xs, s.Adds .plain s' xs ∧ (∀ x ∈ xs, x.isSuffix = true) ∧
      r = known.or (if isFirst then (firstParams? xs).map (entriesAll .plain) else none)
  | .paramList, s, r, s' =>
    ∃ xs, s.Adds .plain s' [.node .paramList xs] ∧ r = entriesAll .plain xs
  | .blockItems, s, _, s' => ∃ xs, s.Adds .block s' xs
  | .blockItem, s, _, s' => ∃ xs, s.Adds .plain s' xs ∧ s.Adds .block s' xs
  | .statement, s, _, s' =>
    ∃ xs, s.Adds .plain s' xs ∧ (s.view.startsDeclaration = false → s.Adds .block s' xs)
  | .arraySuffix, s, _, s' => ∃ xs, s.Adds .plain s' [.node .arraySuffix xs]
  | .tagSpecifier, s, _, s' => ∃ xs, s.Adds .plain s' [.node .tagSpecifier xs]
  | .typeofSpecifier, s, _, s' => ∃ xs, s.Adds .plain s' [.node .typeofSpecifier xs]
  | .compound, s, _, s' => ∃ xs, s.Adds .plain s' [.node .compoundStmt xs]
  | .forStatement, s, _, s' => ∃ xs, s.Adds .plain s' [.node .forStmt xs]
  | .asmStatement, s, _, s' => ∃ xs, s.Adds .plain s' [.node .asmStmt xs]
  | .declaration _, s, _, s' =>
    ∃ k xs, s.Adds .plain s' [.node k xs] ∧ (k = .declGroup ∨ k = .functionDef)
  | .commaTail, s, _, s' | .binaryTail _, s, _, s' | .postfixTail, s, _, s' =>
    ∀ s₀ : State, s₀.sketches = [] → (∃ xs, s₀.Adds .plain s xs) → ∃ xs, s₀.Adds .plain s' xs
  | _, s, _, s' => ∃ xs, s.Adds .plain s' xs

/-- Whether a construct adds trees that may stand anywhere. -/
def Construct.isPlain : Construct → Bool
  | .moreDeclarators _ | .functionBody _ | .specifierList _ _ | .blockItems => false
  | _ => true

theorem Construct.Scoped.adds {c : Construct} {s s' : State} {r : c.Result} (h : c.Scoped s r s')
    (hc : c.isPlain = true) (ht : c.isTail = false) : ∃ xs, s.Adds .plain s' xs := by
  cases c with
  | moreDeclarators | functionBody | specifierList | blockItems => cases hc
  | commaTail | binaryTail | postfixTail => cases ht
  | specifiers | declarator | paramList | attributes | pointers | series | suffixes | blockItem
  | statement =>
    obtain ⟨_, h, _⟩ := h
    exact ⟨_, h⟩
  | arraySuffix | tagSpecifier | typeofSpecifier | compound | forStatement | asmStatement =>
    obtain ⟨_, h⟩ := h
    exact ⟨_, h⟩
  | declaration =>
    obtain ⟨_, _, h, _⟩ := h
    exact ⟨_, h⟩
  | _ => exact h

/-- The scopes of the grammar are those of its trees. -/
def scoping : Contract where
  pre _ _ := True
  post := Construct.Scoped
  strict := false

/-! ### Rules that leave the scopes alone -/

namespace Rule

variable {α β : Type} {tail : Bool} {Q : α → Prop}

/-- **Whether a rule leaves the scopes to the constructs it reads**, and may end with results that
satisfy `Q`. Only in a segment of its own may it gather nodes or read a construct that takes what
was built before. -/
def Plain (tail : Bool) {α : Type} : Rule α → (α → Prop) → Prop
  | .done a, Q => Q a
  | .look next, Q => ∀ v, (next v).Plain tail Q
  | .act .bump next, Q => next.Plain tail Q
  | .act .settle next, Q => next.Plain tail Q
  | .act (.fault _) next, Q => next.Plain tail Q
  | .act (.gather k) next, Q => tail = true ∧ k.isInert = true ∧ next.Plain tail Q
  | .act (.declare _ _) _, _ => False
  | .segment inner next, Q => inner.Plain true fun b => (next b).Plain tail Q
  | .scope _ _ _, _ => False
  | .call c next, Q =>
    c.isPlain = true ∧ (c.isTail = true → tail = true) ∧ ∀ r, (next r).Plain tail Q

@[simp] theorem plain_pure (a : α) : (pure a : Rule α).Plain tail Q ↔ Q a := Iff.rfl

@[simp] theorem plain_bind {r : Rule α} {f : α → Rule β} {Q : β → Prop} :
    (r >>= f).Plain tail Q ↔ r.Plain tail fun a => (f a).Plain tail Q := by
  change (r.bind f).Plain tail Q ↔ _
  induction r with
  | done a => exact Iff.rfl
  | look next ih => exact forall_congr' fun v => ih v
  | act action next ih =>
    cases action with
    | gather k => exact and_congr_right fun _ => and_congr_right fun _ => ih
    | declare n b => exact Iff.rfl
    | _ => exact ih
  | segment inner next _ ih => simp only [Rule.bind, Plain, ih]
  | scope names inner next _ ih => exact Iff.rfl
  | call c next ih => simp only [Rule.bind, Plain, ih]

@[simp] theorem plain_ite {p : Prop} [Decidable p] {r t : Rule α} :
    (if p then r else t).Plain tail Q ↔ (p → r.Plain tail Q) ∧ (¬p → t.Plain tail Q) := by
  by_cases h : p <;> simp [h]

@[simp] theorem plain_view {Q : View → Prop} : view.Plain tail Q ↔ ∀ v, Q v := Iff.rfl

@[simp] theorem plain_next {Q : Option TokenKind → Prop} :
    next.Plain tail Q ↔ ∀ v : View, Q (v.kindAt 0) := Iff.rfl

@[simp] theorem plain_sees {k : TokenKind} {Q : Bool → Prop} :
    (sees k).Plain tail Q ↔ ∀ v : View, Q (v.kindAt 0 == some k) := Iff.rfl

@[simp] theorem plain_remaining {Q : Nat → Prop} :
    remaining.Plain tail Q ↔ ∀ v : View, Q v.ahead.length := Iff.rfl

@[simp] theorem plain_endsAt {k : TokenKind} {Q : Bool → Prop} :
    (endsAt k).Plain tail Q ↔ ∀ v : View, Q (v.ahead.isEmpty || v.kindAt 0 == some k) := Iff.rfl

@[simp] theorem plain_bump {Q : Unit → Prop} : bump.Plain tail Q ↔ Q () := Iff.rfl

@[simp] theorem plain_settle {Q : Unit → Prop} : settle.Plain tail Q ↔ Q () := Iff.rfl

@[simp] theorem plain_fault {f : Fault} {Q : Unit → Prop} : (fault f).Plain tail Q ↔ Q () := Iff.rfl

@[simp] theorem plain_gather {k : NodeKind} {Q : Unit → Prop} :
    (gather k).Plain tail Q ↔ tail = true ∧ k.isInert = true ∧ Q () := Iff.rfl

@[simp] theorem plain_read {c : Construct} {Q : c.Result → Prop} :
    @Plain tail (no_index c.Result) (read c) Q ↔
      c.isPlain = true ∧ (c.isTail = true → tail = true) ∧ ∀ r, Q r := Iff.rfl

@[simp] theorem plain_apart {r : Rule α} : (apart r).Plain tail Q ↔ r.Plain true Q := Iff.rfl

@[simp] theorem plain_node {k : NodeKind} {r : Rule α} :
    (node k r).Plain tail Q ↔ r.Plain true fun a => k.isInert = true ∧ Q a := by
  simp [node]

/-- In a segment of its own a plain rule goes on with what was added so far. -/
theorem Plain.grows {r : Rule α} (h : r.Plain true Q) {s₀ s : State} (hs₀ : s₀.sketches = [])
    (hs : ∃ xs, s₀.Adds .plain s xs) :
    r.wp scoping s fun a s' => Q a ∧ ∃ xs, s₀.Adds .plain s' xs := by
  induction r generalizing s₀ s with
  | done a => exact ⟨h, hs⟩
  | look next ih => exact ih s.view (h s.view) hs₀ hs
  | act action next ih =>
    obtain ⟨xs, hxs⟩ := hs
    cases action with
    | bump => exact ih h hs₀ ⟨_, hxs.trans (.bump (by decide) s)⟩
    | settle => exact ih h hs₀ ⟨_, hxs.trans (.of_eq s.sketches_settle rfl rfl)⟩
    | fault f => exact .inr (ih h hs₀ ⟨_, hxs.trans (.fault f s)⟩)
    | gather k =>
      obtain ⟨-, hk, h⟩ := h
      have hbelow : s₀.Adds (.below k xs) s xs := by rwa [Setting.below_of_isInert hk]
      exact ih h hs₀ ⟨_, hbelow.gather hs₀ (NodeKind.role_of_isInert hk) fun _ _ =>
        mayBegin (NodeKind.ne_name_of_isInert hk) (by simp)⟩
    | declare n b => exact h.elim
  | segment inner next ihi ihn =>
    obtain ⟨xs, hxs⟩ := hs
    rw [wp]
    refine wp_mono (ihi h (s := { s with built := [] }) rfl ⟨[], .refl _⟩) ?_
    rintro b s' ⟨hnext, ys, hys⟩
    exact ihn b hnext hs₀ ⟨_, hxs.trans hys.segment⟩
  | scope names inner next _ _ => exact h.elim
  | call c next ih =>
    obtain ⟨hc, -, h⟩ := h
    refine ⟨trivial, fun r s' hr => ih r (h r) hs₀ ?_⟩
    cases ht : c.isTail with
    | false =>
      obtain ⟨xs, hxs⟩ := hs
      obtain ⟨ys, hys⟩ := Construct.Scoped.adds hr hc ht
      exact ⟨_, hxs.trans hys⟩
    | true =>
      cases c with
      | commaTail | binaryTail | postfixTail => exact hr s₀ hs₀ hs
      | _ => cases ht

/-- **A plain rule adds trees as it should.** -/
theorem Plain.adds {r : Rule α} (h : r.Plain false Q) (s : State) :
    r.wp scoping s fun a s' => Q a ∧ ∃ xs, s.Adds .plain s' xs := by
  induction r generalizing s with
  | done a => exact ⟨h, [], .refl s⟩
  | look next ih => exact ih s.view (h s.view) s
  | act action next ih =>
    have after {xs : List Sketch} {t : State} (ht : s.Adds .plain t xs)
        (h : next.Plain false Q) :
        next.wp scoping t fun a s' => Q a ∧ ∃ xs, s.Adds .plain s' xs := by
      refine wp_mono (ih h t) ?_
      rintro _ _ ⟨hQ, _, hys⟩
      exact ⟨hQ, _, ht.trans hys⟩
    cases action with
    | bump => exact after (.bump (by decide) s) h
    | settle => exact after (.of_eq s.sketches_settle rfl rfl) h
    | fault f => exact .inr (after (.fault f s) h)
    | gather k => exact absurd h.1 (by decide)
    | declare n b => exact h.elim
  | segment inner next _ ihn =>
    rw [wp]
    refine wp_mono (Plain.grows h (s := { s with built := [] }) rfl ⟨[], .refl _⟩) ?_
    rintro b s' ⟨hnext, xs, hxs⟩
    refine wp_mono (ihn b hnext _) ?_
    rintro _ _ ⟨hQ, _, hys⟩
    exact ⟨hQ, _, hxs.segment.trans hys⟩
  | scope names inner next _ _ => exact h.elim
  | call c next ih =>
    obtain ⟨hc, ht, h⟩ := h
    refine ⟨trivial, fun r s' hr => ?_⟩
    have htail : c.isTail = false := Bool.eq_false_iff.2 fun htail => absurd (ht htail) (by decide)
    obtain ⟨xs, hxs⟩ := Construct.Scoped.adds hr hc htail
    refine wp_mono (ih r (h r) s') ?_
    rintro _ _ ⟨hQ, _, hys⟩
    exact ⟨hQ, _, hxs.trans hys⟩

/-- A node of which a plain rule makes the parts. -/
theorem Plain.node {k : NodeKind} {r : Rule α} (h : r.Plain true Q) (hk : k.isInert = true)
    (s : State) :
    (node k r).wp scoping s fun a s' => Q a ∧ ∃ xs, s.Adds .plain s' [.node k xs] := by
  rw [wp_node]
  refine wp_mono (h.grows s.sketches_opened ⟨[], .refl _⟩) ?_
  rintro a s' ⟨hQ, xs, hxs⟩
  have hbelow : s.opened.Adds (.below k xs) s' xs := by rwa [Setting.below_of_isInert hk]
  have hnode : s.opened.Adds .plain (s'.act (.gather k)) [.node k xs] :=
    hbelow.gather s.sketches_opened (NodeKind.role_of_isInert hk) fun _ _ =>
      mayBegin (NodeKind.ne_name_of_isInert hk) (by simp)
  exact ⟨hQ, xs, hnode.joined⟩

@[simp] theorem plain_leafNode {k : NodeKind} {Q : Unit → Prop} :
    (leafNode k).Plain tail Q ↔ k.isInert = true ∧ Q () := by
  simp [leafNode]

/-! ### Plain constructs -/

attribute [local simp] NodeKind.isInert NodeKind.role Construct.isPlain Construct.isTail reject
  orReject ifSees unlessSees accept ifAccepts optional require requireThen

theorem plain_declarations : declarations.Plain false fun _ => True := by
  simp [declarations]

theorem plain_externalDeclaration : externalDeclaration.Plain false fun _ => True := by
  rw [externalDeclaration, plain_bind, plain_view]
  intro v
  split <;> simp

theorem plain_parameterDeclarations : parameterDeclarations.Plain false fun _ => True := by
  simp [parameterDeclarations]

theorem plain_structBody : structBody.Plain false fun _ => True := by simp [structBody]

theorem plain_fields : fields.Plain false fun _ => True := by simp [fields]

theorem plain_fieldGroup : fieldGroup.Plain false fun _ => True := by simp [fieldGroup]

theorem plain_fieldDeclarators : fieldDeclarators.Plain false fun _ => True := by
  simp [fieldDeclarators]

theorem plain_enumBody : enumBody.Plain false fun _ => True := by simp [enumBody]

theorem plain_balanced (depth : Nat) : (balanced depth).Plain false fun _ => True := by
  rw [balanced, plain_bind, plain_next]
  intro v
  split <;> simp

theorem plain_params : params.Plain false fun _ => True := by simp [params]

theorem plain_initializer : initializer.Plain false fun _ => True := by simp [initializer]

theorem plain_initList : initList.Plain false fun _ => True := by simp [initList]

theorem plain_initializers : initializers.Plain false fun _ => True := by
  simp [initializers, listedInitializer, optionalDesignator]

theorem plain_designator : designator.Plain false fun _ => True := by simp [designator]

theorem plain_designatorParts : designatorParts.Plain false fun _ => True := by
  simp [designatorParts]

theorem plain_typeName : typeName.Plain false fun _ => True := by
  rw [typeName, plain_node, plain_bind, plain_read]
  refine ⟨rfl, by simp, fun _ => ?_⟩
  rw [plain_bind, plain_next]
  intro v
  split <;> simp

theorem plain_labelBody : labelBody.Plain false fun _ => True := by simp [labelBody]

theorem plain_condition : condition.Plain false fun _ => True := by simp [condition]

theorem plain_asmOperands : asmOperands.Plain false fun _ => True := by
  have operand : asmOperand.Plain false fun _ => True := by
    rw [asmOperand, plain_bind, plain_next]
    intro v
    split <;> simp
  simp [asmOperands, operand]

theorem plain_expression : expression.Plain false fun _ => True := by simp [expression]

theorem plain_commaTail : commaTail.Plain true fun _ => True := by simp [commaTail]

theorem plain_assignment : assignment.Plain false fun _ => True := by
  rw [assignment, plain_apart, plain_bind, plain_read]
  refine ⟨rfl, by simp, fun _ => ?_⟩
  rw [plain_bind, plain_next]
  intro v
  split <;> simp

theorem plain_conditional : conditional.Plain false fun _ => True := by simp [conditional]

theorem plain_binary (level : Nat) : (binary level).Plain false fun _ => True := by simp [binary]

theorem plain_binaryTail (level : Nat) : (binaryTail level).Plain true fun _ => True := by
  simp [binaryTail]

theorem plain_unary : unary.Plain false fun _ => True := by
  rw [unary, plain_bind, plain_view]
  intro v
  split <;> simp [prefixed, labelAddress, postfixed, sizeofExpression, typed]

theorem plain_postfixTail : postfixTail.Plain true fun _ => True := by
  rw [postfixTail, plain_bind, plain_next]
  intro v
  split <;> simp

theorem plain_argList : argList.Plain false fun _ => True := by simp [argList]

theorem plain_args : args.Plain false fun _ => True := by simp [args, argument]

theorem plain_primary : primary.Plain false fun _ => True := by
  rw [primary, plain_bind, plain_view]
  intro v
  split <;> simp

theorem plain_arraySuffix : (do
    bump
    read (.series .arrayQualifiers)
    arraySize
    require .closeBracket .arrayClose : Rule Unit).Plain true fun _ => True := by
  simp [arraySize]

theorem plain_tagSpecifier : (do
    let isEnum ← sees .kwEnum
    bump
    read (.attributes false)
    optional .identifier
    ifSees .openBrace (if isEnum then read .enumBody else read .structBody)
    read (.attributes false) : Rule Unit).Plain true fun _ => True := by
  simp

theorem plain_typeofSpecifier : (do
    bump
    requireThen .openParen .typeofOpen do
      typeofOperand
      require .closeParen .typeofClose : Rule Unit).Plain true fun _ => True := by
  simp [typeofOperand]

theorem plain_asmStatement : (do
    bump
    read (.series .asmQualifiers)
    requireThen .openParen .asmOpen do
      read .asmOperands
      require .closeParen .asmClose
    require .semicolon .asmEnd : Rule Unit).Plain true fun _ => True := by
  simp

/-! ### Attributes, pointers and series -/

theorem oneAttribute_adds (s : State) :
    oneAttribute.wp scoping s fun _ s' => ∃ xs, s.Adds .plain s' [.node .attr xs] := by
  have inner : (do bump; ifSees .openParen (read (.balanced 0)) : Rule Unit).Plain true
      fun _ => True := by simp
  exact wp_mono (inner.node rfl s) fun _ _ h => h.2

theorem series_scoped (which : Series) (s : State) :
    (series which).wp scoping s ((Construct.series which).Scoped s) := by
  rw [series, wp_bind, wp_view, wp_ite]
  refine ⟨fun _ => ?_, fun _ => ⟨[], .refl s, Aside.nil⟩⟩
  rw [wp_bind, wp_bump]
  refine wp_read.2 ⟨trivial, ?_⟩
  rintro _ s' ⟨xs, hxs, haside⟩
  exact ⟨_, (State.Adds.bump (by decide) s).trans hxs, (Aside.taken s).append haside⟩

theorem attributes_scoped (labels : Bool) (s : State) :
    (attributes labels).wp scoping s ((Construct.attributes labels).Scoped s) := by
  rw [attributes, wp_bind, wp_next, wp_ite]
  refine ⟨fun _ => wp_bind.2 ?_, fun _ => ⟨[], .refl s, Aside.nil⟩⟩
  refine wp_mono (oneAttribute_adds s) ?_
  rintro _ s₁ ⟨xs, hxs⟩
  refine wp_read.2 ⟨trivial, ?_⟩
  rintro _ s' ⟨ys, hys, haside⟩
  exact ⟨_, hxs.trans hys, (Aside.attr xs).append haside⟩

theorem pointers_scoped (s : State) : pointers.wp scoping s (Construct.pointers.Scoped s) := by
  rw [pointers, wp_ifAccepts]
  refine ⟨fun _ => wp_bind.2 ?_, fun _ => ⟨[], .refl s, Aside.nil⟩⟩
  refine wp_read.2 ⟨trivial, ?_⟩
  rintro _ s₁ ⟨xs, hxs, hxs'⟩
  refine wp_bind.2 ?_
  refine wp_read.2 ⟨trivial, ?_⟩
  rintro _ s₂ ⟨ys, hys, hys'⟩
  refine wp_read.2 ⟨trivial, ?_⟩
  rintro _ s₃ ⟨zs, hzs, hzs'⟩
  exact ⟨_, (State.Adds.bump (by decide) s).trans (hxs.trans (hys.trans hzs)),
    (Aside.taken s).append (hxs'.append (hys'.append hzs'))⟩

/-! ### Specifiers -/

/-- More specifiers after some. -/
theorem specifierList_after {s t : State} {xs : List Sketch} {b b' h h' : Bool}
    (hxs : s.Adds .specifiers t xs) (hb : b' = (b || xs.any (·.isSymbol .kwTypedef))) :
    (read (.specifierList b' h')).wp scoping t ((Construct.specifierList b h).Scoped s) := by
  refine wp_read.2 ⟨trivial, ?_⟩
  rintro r s' ⟨ys, hys, hr⟩
  refine ⟨_, hxs.trans hys, ?_⟩
  rw [hr, hb, List.any_append, Bool.or_assoc]

/-- A symbol among specifiers is no name, or that of a type. -/
theorem adds_specifier {s : State} {k : TokenKind} (hs : s.next = some k)
    (hk : k = .identifier → s.view.isTypedef (s.view.nameAt 0) = true) :
    ∃ x : Symbol, x.kind = k ∧ s.Adds .specifiers (s.act .bump) [.leaf x] := by
  obtain ⟨x, rest, hahead, hx⟩ := State.next_eq_some hs
  refine ⟨x, hx, by simp [State.taken, hahead], by simp [hahead], by simp, ?_⟩
  refine agreesAll_cons.2 ⟨agrees_leaf.2 fun _ hid => ?_, agreesAll_nil⟩
  have hname : s.view.nameAt 0 = x.name := by simp [View.nameAt, State.view, hahead]
  rw [← hname]
  exact hk (hx.symm.trans hid)

theorem specifierList_scoped (isTypedef hasType : Bool) (s : State) :
    (specifierList isTypedef hasType).wp scoping s
      ((Construct.specifierList isTypedef hasType).Scoped s) := by
  -- a symbol that is no name
  have symbol {b : Bool} {h h' : Bool} {k : TokenKind} (hs : s.next = some k)
      (hk : k ≠ .identifier) (hb : b = (isTypedef || decide (k = .kwTypedef))) :
      (do bump; read (.specifierList b h') : Rule Bool).wp scoping s
        ((Construct.specifierList isTypedef h).Scoped s) := by
    obtain ⟨x, hx, hadds⟩ := adds_specifier hs fun h => absurd h hk
    rw [wp_bind, wp_bump]
    exact specifierList_after hadds (by simp [hb, Sketch.isSymbol, hx])
  have nodeAfter {b h h' : Bool} {t : State} {k : NodeKind} {xs : List Sketch}
      (hxs : s.Adds .plain t [.node k xs]) (hk : k.role ≠ .member) (he : k ≠ .exprStmt) :
      (read (.specifierList b h')).wp scoping t ((Construct.specifierList b h).Scoped s) :=
    specifierList_after (hxs.congr hk he) (by simp [Sketch.isSymbol])
  have done {h : Bool} : (Construct.specifierList isTypedef h).Scoped s isTypedef s :=
    ⟨[], .refl s, by simp⟩
  rw [specifierList, wp_bind, wp_view]
  split
  · next hs => exact symbol hs (by decide) (by simp)
  · next hs => exact symbol hs (by decide) (by simp)
  · next hs => exact symbol hs (by decide) (by simp)
  · next hs => exact symbol hs (by decide) (by simp)
  · refine wp_bind.2 (wp_read.2 ⟨trivial, ?_⟩)
    rintro _ _ ⟨_, hxs⟩
    exact nodeAfter hxs (by decide) (by decide)
  · refine wp_bind.2 (wp_read.2 ⟨trivial, ?_⟩)
    rintro _ _ ⟨_, hxs⟩
    exact nodeAfter hxs (by decide) (by decide)
  · refine wp_bind.2 (wp_read.2 ⟨trivial, ?_⟩)
    rintro _ _ ⟨_, hxs⟩
    exact nodeAfter hxs (by decide) (by decide)
  · refine wp_bind.2 (wp_read.2 ⟨trivial, ?_⟩)
    rintro _ _ ⟨_, hxs⟩
    exact nodeAfter hxs (by decide) (by decide)
  · refine wp_bind.2 (wp_mono (oneAttribute_adds s) ?_)
    rintro _ _ ⟨_, hxs⟩
    exact nodeAfter hxs (by decide) (by decide)
  · next hs =>
    rw [wp_ite]
    refine ⟨fun htype => ?_, fun _ => done⟩
    obtain ⟨x, hx, hadds⟩ := adds_specifier hs fun _ => (Bool.and_eq_true_iff.1 htype).2
    rw [wp_bind, wp_bump]
    exact specifierList_after hadds (by simp [Sketch.isSymbol, hx])
  · exact done

theorem specifiers_scoped (s : State) :
    specifiers.wp scoping s (Construct.specifiers.Scoped s) := by
  rw [specifiers, wp_node]
  refine wp_read.2 ⟨trivial, ?_⟩
  rintro r s' ⟨xs, hxs, hr⟩
  refine ⟨xs, ?_, by simpa using hr⟩
  exact (hxs.gather (k := .specifiers) s.sketches_opened rfl fun _ _ =>
    mayBegin (by decide) (by simp)).joined

/-! ### Declarators -/

/-- What the core of a declarator consists of, and what it tells of the whole. -/
structure DeclaratorCore (xs : List Sketch) (d : Declared) : Prop where
  isSuffix : ∀ x ∈ xs, x.isSuffix = false
  name : d.name = (nestedLevels xs ++ [xs]).head?.bind nameOf?
  params : d.params = ((nestedLevels xs).findSome? firstParams?).map (entriesAll .plain)

theorem DeclaratorCore.nil : DeclaratorCore [] ⟨none, none⟩ :=
  ⟨by simp, by simp [nestedLevels, nameOf?], by simp [nestedLevels]⟩

theorem DeclaratorCore.ofName (x : Symbol) : DeclaratorCore [.node .name [.leaf x]] ⟨some x.name, none⟩ := by
  refine ⟨by simp [Sketch.isSuffix, Sketch.isNode], ?_, ?_⟩
  · simp [nestedLevels, nameOf?, Sketch.isNode]
  · simp [nestedLevels]

/-- A core in parentheses. -/
theorem DeclaratorCore.nested {xs ys ds : List Sketch} (h : ∀ x ∈ xs, x.isNode .declarator = false) :
    DeclaratorCore [.node .nestedDeclarator (xs ++ .node .declarator ds :: ys)]
      ⟨(Sketch.node .declarator ds).declared?, (Sketch.node .declarator ds).paramNames?⟩ := by
  have hlevels : nestedLevels [.node .nestedDeclarator (xs ++ .node .declarator ds :: ys)] =
      (Sketch.node .declarator ds).levels := by
    rw [nestedLevels]
    exact innerLevels_append h rfl
  refine ⟨by simp [Sketch.isSuffix, Sketch.isNode], ?_, ?_⟩
  · rw [hlevels, declared?, levels_node]
    cases nestedLevels ds <;> simp
  · rw [hlevels, paramNames?, ownParams?]

/-- What a declarator declares is told by its core and its suffixes. -/
theorem DeclaratorCore.declared {ps xs ys zs : List Sketch} {d : Declared} (h : DeclaratorCore xs d) (hps : Aside ps)
    (hys : ∀ y ∈ ys, y.isSuffix = true) (hzs : Aside zs) :
    (Sketch.node .declarator (ps ++ (xs ++ (ys ++ zs)))).declared? = d.name ∧
      (Sketch.node .declarator (ps ++ (xs ++ (ys ++ zs)))).paramNames? =
        d.params.or ((firstParams? ys).map (entriesAll .plain)) := by
  have hsuffix (k : NodeKind) (hk : k ≠ .paramList) (hk' : k ≠ .arraySuffix) :
      ∀ y ∈ ys, y.isNode k = false := by
    intro y hy
    have hy' := hys y hy
    cases y with
    | leaf => rfl
    | node kind parts =>
      simp only [Sketch.isSuffix, Sketch.isNode, Bool.or_eq_true, decide_eq_true_eq] at hy' ⊢
      obtain rfl | rfl := hy'
      · simpa using hk.symm
      · simpa using hk'.symm
  have hrest (k : NodeKind) (hk : k ≠ .paramList) (hk' : k ≠ .arraySuffix) (ha : k ≠ .attr) :
      ∀ y ∈ ys ++ zs, y.isNode k = false := fun y hy =>
    (List.mem_append.1 hy).elim (hsuffix k hk hk' y) (hzs.isNode ha y)
  have hnested : nestedLevels (ps ++ (xs ++ (ys ++ zs))) = nestedLevels xs := by
    rw [nestedLevels_append_left (hps.isNode (by decide)),
      nestedLevels_append_right (hrest _ (by decide) (by decide) (by decide))]
  have hname : nameOf? (ps ++ (xs ++ (ys ++ zs))) = nameOf? xs := by
    rw [nameOf?, nameOf?, find?_append_of_forall (hps.isNode (by decide))
      (hrest _ (by decide) (by decide) (by decide))]
  have hparams : firstParams? (ps ++ (xs ++ (ys ++ zs))) = firstParams? ys := by
    rw [firstParams?, firstParams?, ← List.append_assoc,
      find?_append_of_forall (fun x hx => ?_) hzs.isSuffix]
    exact (List.mem_append.1 hx).elim (hps.isSuffix x) (h.isSuffix x)
  constructor
  · rw [declared?, levels_node, hnested, h.name]
    cases nestedLevels xs with
    | nil => simpa using hname
    | cons l ls => rfl
  · rw [paramNames?, ownParams?, levels_node, hnested, h.params, List.findSome?_append]
    cases (nestedLevels xs).findSome? firstParams? <;> simp [hparams]

theorem declaratorCore_adds (s : State) :
    declaratorCore.wp scoping s fun d s' => ∃ xs, s.Adds .plain s' xs ∧ DeclaratorCore xs d := by
  rw [declaratorCore, wp_bind, wp_view]
  split
  · next hs =>
    obtain ⟨x, rest, hahead, hx⟩ := State.next_eq_some hs
    have hname : s.view.nameAt 0 = x.name := by simp [View.nameAt, State.view, hahead]
    have htaken : s.opened.taken = [.leaf x] := by simp [State.taken, hahead]
    rw [wp_bind, wp_leafNode, wp_pure, hname]
    refine ⟨_, ?_, DeclaratorCore.ofName x⟩
    have hbump : s.opened.Adds .plain (s.opened.act .bump) [.leaf x] :=
      htaken ▸ .bump (by decide) s.opened
    refine (State.Adds.gather (k := .name) hbump s.sketches_opened rfl fun y hy => ?_).joined
    obtain rfl : x = y := by simpa using hy
    exact ⟨fun _ => hx, by simp⟩
  · rw [wp_ite]
    refine ⟨fun _ => ?_, fun _ => ⟨[], .refl s, .nil⟩⟩
    rw [wp_node, wp_bind, wp_bump, wp_bind]
    refine wp_read.2 ⟨trivial, ?_⟩
    rintro _ s₁ ⟨xs, hxs, hxs'⟩
    refine wp_bind.2 ?_
    refine wp_read.2 ⟨trivial, ?_⟩
    rintro d s₂ ⟨ds, hds, hd⟩
    refine wp_bind.2 ?_
    have hopen : s.opened.Adds .plain s₁ _ := (State.Adds.bump (by decide) s.opened).trans hxs
    have finish {t : State} {ys : List Sketch} (hys : s₂.Adds .plain t ys) :
        ∃ zs, s.Adds .plain ((t.act (.gather .nestedDeclarator)).joined s) zs ∧ DeclaratorCore zs d := by
      have hall := hopen.trans (hds.trans hys)
      refine ⟨_, (State.Adds.gather (k := .nestedDeclarator) hall s.sketches_opened rfl
        fun _ _ => mayBegin (by decide) (by simp)).joined, hd ▸ DeclaratorCore.nested ?_⟩
      exact ((Aside.taken s.opened).append hxs').isNode (by decide)
    rw [wp_require]
    exact ⟨fun _ => finish (.bump (by decide) s₂), fun _ => .inr (finish (.fault _ s₂))⟩
  · exact ⟨[], .refl s, .nil⟩

theorem declarator_scoped (s : State) :
    declarator.wp scoping s (Construct.declarator.Scoped s) := by
  rw [declarator, wp_node, wp_bind]
  refine wp_read.2 ⟨trivial, ?_⟩
  rintro _ s₁ ⟨ps, hps, hps'⟩
  refine wp_bind.2 ?_
  refine wp_mono (declaratorCore_adds s₁) ?_
  rintro core s₂ ⟨xs, hxs, hcore⟩
  refine wp_bind.2 ?_
  refine wp_read.2 ⟨trivial, ?_⟩
  rintro params s₃ ⟨ys, hys, hys', hparams⟩
  refine wp_bind.2 ?_
  refine wp_read.2 ⟨trivial, ?_⟩
  rintro _ s₄ ⟨zs, hzs, hzs'⟩
  obtain ⟨hname, hnames⟩ := hcore.declared hps' hys' hzs'
  have hall := hps.trans (hxs.trans (hys.trans hzs))
  refine ⟨_, (State.Adds.gather (k := .declarator) hall s.sketches_opened rfl
    fun _ _ => mayBegin (by decide) (by simp)).joined, ?_⟩
  rw [hname, hnames, hparams, if_pos rfl]

theorem suffixes_scoped (isFirst : Bool) (known : Option Names) (s : State) :
    (suffixes isFirst known).wp scoping s ((Construct.suffixes isFirst known).Scoped s) := by
  rw [suffixes, wp_bind, wp_next]
  split
  · refine wp_bind.2 (wp_read.2 ⟨trivial, ?_⟩)
    rintro _ s₁ ⟨xs, hxs⟩
    refine wp_read.2 ⟨trivial, ?_⟩
    rintro r s₂ ⟨ys, hys, hys', hr⟩
    refine ⟨_, hxs.trans hys, ?_, ?_⟩
    · exact List.forall_mem_append.2 ⟨by simp [Sketch.isSuffix, Sketch.isNode], hys'⟩
    · simp [hr]
  · refine wp_bind.2 (wp_read.2 ⟨trivial, ?_⟩)
    rintro names s₁ ⟨xs, hxs, hnames⟩
    refine wp_read.2 ⟨trivial, ?_⟩
    rintro r s₂ ⟨ys, hys, hys', hr⟩
    refine ⟨_, hxs.trans hys, ?_, ?_⟩
    · exact List.forall_mem_append.2 ⟨by simp [Sketch.isSuffix, Sketch.isNode], hys'⟩
    · rw [hr]
      cases isFirst <;> cases known <;> simp [hnames]
  · exact ⟨[], .refl s, by simp, by cases isFirst <;> simp [firstParams?]⟩

/-! ### Scopes -/

theorem ne_of_role {k k' : NodeKind} {r : Role} (hk : k.role = r) (hk' : k'.role ≠ r) : k ≠ k' := by
  rintro rfl
  exact hk' hk

/-- A node with a scope that holds all but some symbols at its ends. -/
theorem adds_scope {s s₁ t s₂ : State} {k : NodeKind} {st : Setting} {us xs ys : List Sketch}
    (hk : k.role = .scope) (hst : .below k (us ++ (xs ++ ys)) ≠ Setting.specifiers)
    (h₁ : s.opened.Takes s₁ us)
    (h : (s₁.entered []).Adds (.below k (us ++ (xs ++ ys))) t xs) (h₂ : t.closed.Takes s₂ ys) :
    s.Adds st ((s₂.act (.gather k)).joined s) [.node k (us ++ (xs ++ ys))] := by
  refine State.Adds.joined (.gather_of s.sketches_opened ?_ ?_ ?_ ?_)
  · rw [h₂.sketches, State.sketches_closed, h.sketches, State.sketches_entered, h₁.sketches,
      State.sketches_opened, List.nil_append, List.append_assoc]
  · have hahead := h.ahead
    have hahead' := h₂.ahead
    rw [State.ahead_entered] at hahead
    rw [State.ahead_closed] at hahead'
    rw [h₁.ahead, hahead, hahead', symbolsAll_append, symbolsAll_append, List.append_assoc,
      List.append_assoc]
  · rw [h₂.scopes, State.scopes_closed, h.scopes, State.scopes_entered, h₁.scopes,
      entries_scope hk, bring_nil]
    rfl
  · have hagrees := h.agrees
    rw [State.scopes_entered, h₁.scopes] at hagrees
    rw [Agrees, hk]
    refine ⟨fun _ _ => mayBegin (ne_of_role hk (by decide)) fun _ => ne_of_role hk (by decide),
      agreesAll_append.2 ⟨h₁.agrees hst, ?_⟩⟩
    rw [h₁.entriesAll, bring_nil]
    exact agreesAll_append.2 ⟨hagrees, h₂.agrees hst⟩

theorem compound_scoped (s : State) : compound.wp scoping s (Construct.compound.Scoped s) := by
  rw [compound, wp_node, wp_bind, wp_bump, wp_bind, wp_inScope]
  refine wp_read.2 ⟨trivial, ?_⟩
  rintro _ t ⟨xs, hxs⟩
  have finish {u : State} {ys : List Sketch} (hys : t.closed.Takes u ys) :
      Construct.compound.Scoped s () ((u.act (.gather .compoundStmt)).joined s) :=
    ⟨_, adds_scope rfl (by simp [Setting.below]) (.bump s.opened) hxs hys⟩
  rw [wp_require]
  exact ⟨fun _ => finish (.bump _), fun _ => .inr (finish (.fault _ _))⟩

theorem forStatement_scoped (s : State) :
    forStatement.wp scoping s (Construct.forStatement.Scoped s) := by
  have inner : (do requireThen .openParen .forOpen forClauses; read .statement : Rule Unit).Plain
      false fun _ => True := by
    simp [forClauses, forInit]
  rw [forStatement, wp_node, wp_bind, wp_bump, wp_bind, wp_inScope]
  refine wp_mono (inner.adds _) ?_
  rintro _ t ⟨_, xs, hxs⟩
  exact ⟨_, adds_scope (k := .forStmt) rfl (by simp [Setting.below]) (.bump s.opened) hxs
    (.refl t.closed)⟩

theorem paramList_scoped (s : State) : paramList.wp scoping s (Construct.paramList.Scoped s) := by
  rw [paramList, wp_node, wp_bind, wp_bump, wp_bind, wp_inScope]
  refine wp_read.2 ⟨trivial, ?_⟩
  rintro _ t ⟨xs, hxs⟩
  have hnames : t.scopes.head?.getD [] = entriesAll .plain xs := by
    rw [hxs.scopes, State.scopes_entered, bring, List.append_nil]
    rfl
  have finish {u : State} {ys : List Sketch} (hys : t.closed.Takes u ys) :
      Construct.paramList.Scoped s (t.scopes.head?.getD [])
        ((u.act (.gather .paramList)).joined s) := by
    have htake := State.Takes.bump s.opened
    refine ⟨_, adds_scope rfl (by simp [Setting.below]) htake hxs hys, ?_⟩
    rw [hnames, entriesAll_append, entriesAll_append, htake.entriesAll, hys.entriesAll,
      List.nil_append, List.append_nil]
  rw [wp_bind, wp_require]
  exact ⟨fun _ => finish (.bump _), fun _ => .inr (finish (.fault _ _))⟩

theorem functionBody_scoped (names : Names) (s : State) :
    (functionBody names).wp scoping s ((Construct.functionBody names).Scoped s) := by
  have inner : (do
      read .parameterDeclarations
      if ← sees .openBrace then read .compound else fault .noFunctionBody : Rule Unit).Plain false
      fun _ => True := by
    simp
  rw [functionBody, wp_bind, wp_inScope]
  refine wp_mono (inner.adds _) ?_
  rintro _ t ⟨_, xs, hxs⟩
  exact ⟨t, xs, hxs, rfl⟩

/-! ### What declares a name -/

/-- A member of a group or a parameter: its name is declared after its declarator. -/
theorem adds_member {s t u : State} {k : NodeKind} {st : Setting} {b : Bool} {x : Sketch}
    {xs ys : List Sketch} (hk : k.role = .member ∧ b = st.isTypedef ∨ k.role = .param ∧ b = false)
    (hs : s.sketches = []) (h : s.Adds .plain t (xs ++ [x]))
    (hxs : ∀ y ∈ xs, y.isNode .declarator = false) (hx : x.isNode .declarator = true)
    (h' : (t.declaring x.declared? b).Adds .plain u ys) :
    s.Adds st (u.act (.gather k)) [.node k (xs ++ x :: ys)] := by
  have hentries : (Sketch.node k (xs ++ x :: ys)).entries st =
      entriesAll .plain ys ++ own b x ++ entriesAll .plain (xs ++ [x]) := by
    obtain ⟨hk, rfl⟩ | ⟨hk, rfl⟩ := hk
    · rw [entries, hk]
      exact memberEntries_append hxs hx
    · rw [entries, hk]
      exact memberEntries_append hxs hx
  have hagrees : (Sketch.node k (xs ++ x :: ys)).Agrees s.scopes st ↔
      MemberAgrees b s.scopes (xs ++ x :: ys) := by
    obtain ⟨hk, rfl⟩ | ⟨hk, rfl⟩ := hk
    · rw [Agrees, hk]
      exact and_iff_right fun _ _ =>
        mayBegin (ne_of_role hk (by decide)) fun _ => ne_of_role hk (by decide)
    · rw [Agrees, hk]
      exact and_iff_right fun _ _ =>
        mayBegin (ne_of_role hk (by decide)) fun _ => ne_of_role hk (by decide)
  have hscopes : (t.declaring x.declared? b).scopes =
      bring (own b x ++ entriesAll .plain (xs ++ [x])) s.scopes := by
    rw [State.scopes_declaring, h.scopes, bring_bring]
    rfl
  refine .gather_of hs ?_ ?_ ?_ ?_
  · rw [h'.sketches, State.sketches_declaring, h.sketches_of_nil hs, List.append_assoc]
    rfl
  · have hahead := h'.ahead
    rw [State.ahead_declaring] at hahead
    rw [h.ahead, hahead, ← List.append_assoc, ← symbolsAll_append, List.append_assoc]
    rfl
  · rw [h'.scopes, hscopes, bring_bring, hentries, List.append_assoc]
  · rw [hagrees, memberAgrees_append hxs hx]
    exact ⟨h.agrees, hscopes ▸ h'.agrees⟩

theorem param_scoped (s : State) : param.wp scoping s (Construct.param.Scoped s) := by
  rw [param, wp_node, wp_bind]
  refine wp_read.2 ⟨trivial, ?_⟩
  rintro _ s₁ ⟨xs, hxs, _⟩
  refine wp_bind.2 (wp_next.2 ?_)
  have abstract : Construct.param.Scoped s () ((s₁.act (.gather .param)).joined s) := by
    have hnone : ∀ y ∈ [Sketch.node .specifiers xs], y.isNode .declarator = false := by
      simp [Sketch.isNode]
    refine ⟨_, State.Adds.joined (.gather_of s.sketches_opened
      (hxs.sketches_of_nil s.sketches_opened) hxs.ahead ?_ ?_)⟩
    · rw [entries, NodeKind.role]
      exact (memberEntries_of_forall hnone).symm ▸ hxs.scopes
    · rw [Agrees, NodeKind.role]
      exact ⟨fun _ _ => mayBegin (by decide) (by decide), (memberAgrees_of_forall hnone).2 hxs.agrees⟩
  split
  · exact abstract
  · exact abstract
  · exact abstract
  · refine wp_bind.2 (wp_read.2 ⟨trivial, ?_⟩)
    rintro d s₂ ⟨ds, hds, hd⟩
    rw [wp_declare, hd]
    exact ⟨_, State.Adds.joined (adds_member (.inr ⟨rfl, rfl⟩) s.sketches_opened (hxs.trans hds)
      (by simp [Sketch.isNode]) rfl (.refl _))⟩

/-- What follows the declarator of a member. -/
theorem initPart_adds {o s : State} {b : Bool} {d : Sketch} (ho : o.sketches = [])
    (hs : o.Adds .plain s [d]) (hd : d.isNode .declarator = true) :
    (initPart d.declared? b).wp scoping s fun _ s' =>
      ∃ xs, o.Adds (.group b) s' [.node .initDeclarator xs] := by
  have init : (ifAccepts .assign (read .initializer)).Plain false fun _ => True := by simp
  rw [initPart, wp_bind, wp_declare, wp_bind]
  refine wp_mono (init.adds _) ?_
  rintro _ t ⟨_, ys, hys⟩
  refine wp_gather.2 ?_
  exact ⟨_, adds_member (.inl ⟨rfl, rfl⟩) ho (List.nil_append [d] ▸ hs) (by simp) hd hys⟩

theorem moreDeclarators_scoped (isTypedef : Bool) (s : State) :
    (moreDeclarators isTypedef).wp scoping s ((Construct.moreDeclarators isTypedef).Scoped s) := by
  rw [moreDeclarators, wp_ifAccepts]
  refine ⟨fun _ => ?_, fun _ => ⟨[], .refl s⟩⟩
  rw [wp_bind, wp_apart, wp_bind]
  refine wp_read.2 ⟨trivial, ?_⟩
  rintro d s₁ ⟨ds, hds, hd⟩
  refine hd ▸ ?_
  refine wp_mono (initPart_adds (s.act .bump).sketches_opened hds rfl) ?_
  rintro _ s₂ ⟨xs, hxs⟩
  refine wp_read.2 ⟨trivial, ?_⟩
  rintro _ s₃ ⟨ys, hys⟩
  exact ⟨_, (State.Adds.bump (by simp) s).trans (hxs.joined.trans hys)⟩

/-- The first declarator of a declaration is that of its first member, or that of a definition. -/
theorem firstDeclarator_adds (place : Place) (isTypedef : Bool) (s : State) :
    (firstDeclarator place isTypedef).wp scoping s fun d s' =>
      match d with
      | none => ∃ xs, s.Adds (.group isTypedef) s' [.node .initDeclarator xs]
      | some d => ∃ xs, s.Adds .plain s' [.node .declarator xs] ∧
          d = ⟨(Sketch.node .declarator xs).declared?, (Sketch.node .declarator xs).paramNames?⟩ := by
  rw [firstDeclarator, wp_apart, wp_bind]
  refine wp_read.2 ⟨trivial, ?_⟩
  rintro d s₁ ⟨ds, hds, hd⟩
  refine wp_bind.2 (wp_view.2 (wp_ite.2 ?_))
  refine ⟨fun _ => ⟨ds, hds.joined, hd⟩, fun _ => wp_bind.2 (hd ▸ ?_)⟩
  refine wp_mono (initPart_adds s.sketches_opened hds rfl) ?_
  rintro _ _ ⟨xs, hxs⟩
  exact ⟨xs, hxs.joined⟩

/-- A function definition: its name is declared after its declarator, and the rest has a scope. -/
theorem adds_definition {s t u : State} {xs ds ys : List Sketch} (hs : s.sketches = [])
    (h : s.Adds .plain t ([.node .specifiers xs] ++ [.node .declarator ds]))
    (h' : ((t.declaring (Sketch.node .declarator ds).declared? false).entered
      ((Sketch.node .declarator ds).paramNames?.getD [])).Adds .plain u ys) :
    s.Adds .plain (u.closed.act (.gather .functionDef))
      [.node .functionDef ([.node .specifiers xs] ++ .node .declarator ds :: ys)] := by
  have hnone : ∀ y ∈ [Sketch.node .specifiers xs], y.isNode .declarator = false := by
    simp [Sketch.isNode]
  have hscopes : (t.declaring (Sketch.node .declarator ds).declared? false).scopes =
      bring (own false (.node .declarator ds) ++
        entriesAll .plain ([.node .specifiers xs] ++ [.node .declarator ds])) s.scopes := by
    rw [State.scopes_declaring, h.scopes, bring_bring]
    rfl
  refine .gather_of hs ?_ ?_ ?_ ?_
  · rw [State.sketches_closed, h'.sketches, State.sketches_entered, State.sketches_declaring,
      h.sketches_of_nil hs, List.append_assoc]
    rfl
  · have hahead := h'.ahead
    rw [State.ahead_entered, State.ahead_declaring] at hahead
    rw [h.ahead, hahead, ← List.append_assoc, ← symbolsAll_append, List.append_assoc]
    rfl
  · rw [entries, NodeKind.role, State.scopes_closed, h'.scopes, State.scopes_entered, hscopes]
    exact congrArg (bring · s.scopes) (headEntries_append hnone rfl).symm
  · have hagrees := h'.agrees
    rw [State.scopes_entered, hscopes] at hagrees
    rw [Agrees, NodeKind.role]
    exact ⟨fun _ _ => mayBegin (by decide) (by decide),
      (definitionAgrees_append hnone rfl).2 ⟨h.agrees, hagrees⟩⟩

/-- A declaration group. -/
theorem adds_group {s t : State} {xs ys : List Sketch} (hs : s.sketches = [])
    (h : s.Adds (.group (xs.any (·.isSymbol .kwTypedef))) t ([.node .specifiers xs] ++ ys)) :
    s.Adds .plain (t.act (.gather .declGroup)) [.node .declGroup ([.node .specifiers xs] ++ ys)] :=
  State.Adds.gather (k := .declGroup) h hs rfl fun _ _ => mayBegin (by decide) (by decide)

theorem declaration_scoped (place : Place) (s : State) :
    (declaration place).wp scoping s ((Construct.declaration place).Scoped s) := by
  rw [declaration, wp_apart, wp_bind]
  refine wp_read.2 ⟨trivial, ?_⟩
  rintro isTypedef s₁ ⟨xs, hxs, htypedef⟩
  refine wp_bind.2 (wp_sees.2 ?_)
  have hspec : s.opened.Adds (.group isTypedef) s₁ [.node .specifiers xs] :=
    hxs.congr (by decide) (by decide)
  -- once the members are read
  have finish {t u : State} {ys zs : List Sketch} (hys : s₁.Adds (.group isTypedef) t ys)
      (hzs : t.Adds (.group isTypedef) u zs) :
      (Construct.declaration place).Scoped s () ((u.act (.gather .declGroup)).joined s) := by
    have hall := hspec.trans (hys.trans hzs)
    exact ⟨_, _, (adds_group s.sketches_opened (htypedef ▸ hall)).joined, .inl rfl⟩
  rw [wp_ite]
  refine ⟨fun _ => ?_, fun _ => wp_bind.2 ?_⟩
  · rw [wp_bind, unlessInHead, wp_ite]
    exact ⟨fun _ => finish (.refl _) (.refl _), fun _ => finish (.refl _) (.bump (by simp) _)⟩
  · refine wp_mono (firstDeclarator_adds place isTypedef s₁) fun d s₂ h₂ => ?_
    cases d with
    | none =>
      obtain ⟨ms, hms⟩ := h₂
      refine wp_bind.2 (wp_read.2 ⟨trivial, ?_⟩)
      rintro _ s₃ ⟨ys, hys⟩
      rw [wp_bind, unlessInHead, wp_ite, wp_require]
      refine ⟨fun _ => finish (hms.trans hys) (.refl _), fun _ => ⟨fun _ => ?_, fun _ => .inr ?_⟩⟩
      · exact finish (hms.trans hys) (.bump (by simp) _)
      · exact finish (hms.trans hys) (.fault _ _)
    | some d =>
      obtain ⟨ds, hds, rfl⟩ := h₂
      refine wp_bind.2 (wp_declare.2 (wp_bind.2 (wp_read.2 ⟨trivial, ?_⟩)))
      rintro _ _ ⟨t, ys, hys, rfl⟩
      exact ⟨_, _, (adds_definition s.sketches_opened (hxs.trans hds) hys).joined, .inr rfl⟩

theorem enumerators_scoped (s : State) :
    enumerators.wp scoping s (Construct.enumerators.Scoped s) := by
  rw [enumerators, wp_bind, wp_sees, wp_ite]
  refine ⟨fun hs => wp_bind.2 (wp_view.2 (wp_bind.2 ?_)), fun _ => ⟨[], .refl s⟩⟩
  obtain ⟨x, rest, hahead, hx⟩ := State.next_eq_some (of_decide_eq_true hs)
  have hname : s.view.nameAt 0 = x.name := by simp [View.nameAt, State.view, hahead]
  have htaken : s.opened.opened.taken = [.leaf x] := by simp [State.taken, hahead]
  have rest : (do read (.attributes false); ifAccepts .assign (read .conditional) :
      Rule Unit).Plain false fun _ => True := by simp
  rw [wp_node, wp_bind, wp_leafNode]
  refine wp_mono (rest.adds _) ?_
  rintro _ t ⟨_, ys, hys⟩
  have hleaf : s.opened.opened.Adds .plain (s.opened.opened.act .bump) [.leaf x] :=
    htaken ▸ .bump (by decide) s.opened.opened
  have hnode : s.opened.opened.Adds .plain ((s.opened.opened.act .bump).act (.gather .name))
      [.node .name [.leaf x]] := by
    refine State.Adds.gather (k := .name) hleaf s.opened.sketches_opened rfl fun y hy => ?_
    obtain rfl : x = y := by simpa using hy
    exact ⟨fun _ => hx, by simp⟩
  have hall := hnode.joined.trans hys
  have henum : s.Adds .plain
      (((t.act (.gather .enumerator)).joined s).declaring (some x.name) false)
      [.node .enumerator (.node .name [.leaf x] :: ys)] := by
    constructor
    · simpa using hall.sketches
    · simpa using hall.ahead
    · rw [State.scopes_declaring, State.scopes_joined, State.scopes_gather, hall.scopes, bring_bring]
      simp [entries, NodeKind.role, nameOf?, Sketch.isNode]
    · rw [agreesAll_cons, Agrees, NodeKind.role]
      exact ⟨⟨fun _ _ => mayBegin (by decide) (by decide), hall.agrees⟩, agreesAll_nil⟩
  rw [wp_bind, wp_declare, hname, wp_ifAccepts]
  refine ⟨fun _ => wp_read.2 ⟨trivial, ?_⟩, fun _ => ⟨_, henum⟩⟩
  rintro _ u ⟨zs, hzs⟩
  exact ⟨_, henum.trans ((State.Adds.bump (by decide) _).trans hzs)⟩

/-! ### Statements -/

theorem blockItems_scoped (s : State) :
    blockItems.wp scoping s (Construct.blockItems.Scoped s) := by
  have go {t : State} {xs : List Sketch} (hxs : s.Adds .block t xs) :
      (read .blockItems).wp scoping t (Construct.blockItems.Scoped s) := by
    refine wp_read.2 ⟨trivial, ?_⟩
    rintro _ _ ⟨_, hys⟩
    exact ⟨_, hxs.trans hys⟩
  rw [blockItems, wp_bind, wp_endsAt, wp_ite]
  refine ⟨fun _ => ⟨[], .refl s⟩, fun _ => ?_⟩
  rw [wp_bind, wp_orReject]
  refine wp_read.2 ⟨trivial, ?_⟩
  rintro _ s₁ ⟨xs, _, hxs⟩
  refine ⟨fun _ => wp_reject.2 (.inr ?_), fun _ => ?_⟩
  · have herror : (s₁.act (.fault .noStatement)).opened.Adds .block _ [.node .error _] :=
      State.Adds.gather (.bump (by simp [Setting.below]) _) (State.sketches_opened _) rfl
        fun _ _ => mayBegin (by decide) fun _ => by decide
    exact go (hxs.trans ((State.Adds.fault _ s₁).trans herror.joined))
  · exact go hxs

theorem blockItem_scoped (s : State) : blockItem.wp scoping s (Construct.blockItem.Scoped s) := by
  rw [blockItem, wp_bind, wp_view, wp_ite]
  refine ⟨fun _ => wp_read.2 ⟨trivial, ?_⟩, fun hdecl => wp_read.2 ⟨trivial, ?_⟩⟩
  · rintro _ s₁ ⟨k, xs, hxs, hk⟩
    refine ⟨_, hxs, hxs.congr ?_ ?_⟩
    · obtain rfl | rfl := hk <;> decide
    · obtain rfl | rfl := hk <;> decide
  · rintro _ s₁ ⟨xs, hxs, hblock⟩
    exact ⟨xs, hxs, hblock (Bool.eq_false_iff.2 hdecl)⟩

/-- A statement that is no expression may stand anywhere. -/
theorem statement_of_node {s s' : State} {k : NodeKind} {xs : List Sketch}
    (h : s.Adds .plain s' [.node k xs]) (hk : k.role ≠ .member) (he : k ≠ .exprStmt) :
    Construct.statement.Scoped s () s' :=
  ⟨_, h, fun _ => h.congr hk he⟩

theorem Plain.statement {k : NodeKind} {r : Rule Unit} (h : r.Plain true fun _ => True)
    (hk : k.isInert = true) (he : k ≠ .exprStmt) (s : State) :
    (Rule.node k r).wp scoping s (Construct.statement.Scoped s) := by
  refine wp_mono (h.node hk s) ?_
  rintro _ s' ⟨_, xs, hxs⟩
  refine statement_of_node hxs ?_ he
  rw [NodeKind.role_of_isInert hk]
  decide

/-- An expression that stands as a statement where no declaration starts does not begin with the
name of a type. -/
theorem expressionStatement_scoped (s : State)
    (hcolon : s.next = some .identifier → s.view.kindAt 1 ≠ some .colon) :
    expressionStatement.wp scoping s (Construct.statement.Scoped s) := by
  have inner : (do read .expression; require .semicolon .expressionEnd : Rule Unit).Plain true
      fun _ => True := by simp
  refine wp_mono (inner.node (k := .exprStmt) rfl s) ?_
  rintro _ s' ⟨_, xs, hxs⟩
  refine ⟨_, hxs, fun hdecl => ?_⟩
  refine ⟨hxs.sketches, hxs.ahead, hxs.scopes, ?_⟩
  have hagrees := (agreesAll_cons.1 hxs.agrees).1
  refine agreesAll_cons.2 ⟨?_, agreesAll_nil⟩
  rw [Agrees] at hagrees ⊢
  refine ⟨fun x hx => ⟨by simp, fun _ _ hid => ?_⟩, hagrees.2⟩
  -- the statement begins with the next symbol
  obtain ⟨rest, hahead⟩ : ∃ rest, s.ahead = x :: rest := by
    have hahead := hxs.ahead
    rw [symbolsAll_cons, symbols_node, symbolsAll_nil, List.append_nil] at hahead
    cases hsym : symbolsAll xs with
    | nil => simp [hsym] at hx
    | cons y ys =>
      obtain rfl : y = x := by simpa [hsym] using hx
      exact ⟨_, by rw [hahead, hsym]; rfl⟩
  have hnext : s.view.kindAt 0 = some .identifier := by simp [View.kindAt, State.view, hahead, hid]
  have hname : s.view.nameAt 0 = x.name := by simp [View.nameAt, State.view, hahead]
  rw [View.startsDeclaration, hnext] at hdecl
  have htypedef : s.view.isTypedef x.name = false := by
    simpa [hname, hcolon hnext] using hdecl
  exact htypedef

theorem statement_scoped (s : State) : statement.wp scoping s (Construct.statement.Scoped s) := by
  have condition (k : NodeKind) (hk : k.isInert = true) (he : k ≠ .exprStmt) :
      (conditionStatement k).wp scoping s (Construct.statement.Scoped s) := by
    refine Plain.statement ?_ hk he s
    simp
  rw [statement, wp_bind, wp_view]
  split
  · refine wp_read.2 ⟨trivial, ?_⟩
    rintro _ _ ⟨_, h⟩
    exact statement_of_node h (by decide) (by decide)
  · exact condition _ rfl (by decide)
  · exact condition _ rfl (by decide)
  · exact condition _ rfl (by decide)
  · exact Plain.statement (by simp) rfl (by decide) s
  · refine wp_read.2 ⟨trivial, ?_⟩
    rintro _ _ ⟨_, h⟩
    exact statement_of_node h (by decide) (by decide)
  · exact Plain.statement (by simp) rfl (by decide) s
  · exact Plain.statement (by simp) rfl (by decide) s
  · exact Plain.statement (by simp) rfl (by decide) s
  · exact Plain.statement (by simp) rfl (by decide) s
  · exact Plain.statement (by simp) rfl (by decide) s
  · exact Plain.statement (by simp [gotoTarget]) rfl (by decide) s
  · exact Plain.statement (by simp) rfl (by decide) s
  · refine wp_read.2 ⟨trivial, ?_⟩
    rintro _ _ ⟨_, h⟩
    exact statement_of_node h (by decide) (by decide)
  · rw [wp_ite]
    refine ⟨fun _ => Plain.statement (by simp) rfl (by decide) s, fun hcolon => ?_⟩
    exact expressionStatement_scoped s fun _ => hcolon
  · next hnone =>
    exact expressionStatement_scoped s fun h => absurd h hnone

end Rule

/-! ### Readings -/

namespace Construct

open Rule

/-- **Each rule adds what its construct should.** -/
theorem rule_scoped (c : Construct) (s : State) : c.rule.wp scoping s (c.Scoped s) := by
  have plain {r : Rule Unit} (h : r.Plain false fun _ => True) :
      r.wp scoping s fun _ s' => ∃ xs, s.Adds .plain s' xs :=
    wp_mono (h.adds s) fun _ _ h => h.2
  have node {k : NodeKind} {r : Rule Unit} (h : r.Plain true fun _ => True)
      (hk : k.isInert = true) :
      (Rule.node k r).wp scoping s fun _ s' => ∃ xs, s.Adds .plain s' [.node k xs] :=
    wp_mono (h.node hk s) fun _ _ h => h.2
  have tail {r : Rule Unit} (h : r.Plain true fun _ => True) :
      r.wp scoping s fun _ s' => ∀ s₀ : State, s₀.sketches = [] →
        (∃ xs, s₀.Adds .plain s xs) → ∃ xs, s₀.Adds .plain s' xs := by
    refine wp_forall (fun _ _ => trivial) fun s₀ => ?_
    by_cases hs : s₀.sketches = [] ∧ ∃ xs, s₀.Adds .plain s xs
    · exact wp_mono (h.grows hs.1 hs.2) fun _ _ h _ _ => h.2
    · exact wp_of_forall (fun _ _ => trivial) r fun _ _ h₀ h => absurd ⟨h₀, h⟩ hs
  cases c with
  | moreDeclarators isTypedef => exact moreDeclarators_scoped isTypedef s
  | functionBody names => exact functionBody_scoped names s
  | specifiers => exact specifiers_scoped s
  | specifierList isTypedef hasType => exact specifierList_scoped isTypedef hasType s
  | attributes labels => exact attributes_scoped labels s
  | pointers => exact pointers_scoped s
  | series which => exact series_scoped which s
  | declarator => exact declarator_scoped s
  | suffixes isFirst known => exact suffixes_scoped isFirst known s
  | paramList => exact paramList_scoped s
  | blockItems => exact blockItems_scoped s
  | blockItem => exact blockItem_scoped s
  | statement => exact statement_scoped s
  | compound => exact compound_scoped s
  | forStatement => exact forStatement_scoped s
  | declaration place => exact declaration_scoped place s
  | enumerators => exact enumerators_scoped s
  | param => exact param_scoped s
  | arraySuffix => exact node plain_arraySuffix rfl
  | tagSpecifier => exact node plain_tagSpecifier rfl
  | typeofSpecifier => exact node plain_typeofSpecifier rfl
  | asmStatement => exact node plain_asmStatement rfl
  | commaTail => exact tail plain_commaTail
  | binaryTail level => exact tail (plain_binaryTail level)
  | postfixTail => exact tail plain_postfixTail
  | declarations => exact plain plain_declarations
  | externalDeclaration => exact plain plain_externalDeclaration
  | parameterDeclarations => exact plain plain_parameterDeclarations
  | structBody => exact plain plain_structBody
  | fields => exact plain plain_fields
  | fieldGroup => exact plain plain_fieldGroup
  | fieldDeclarators => exact plain plain_fieldDeclarators
  | enumBody => exact plain plain_enumBody
  | balanced depth => exact plain (plain_balanced depth)
  | params => exact plain plain_params
  | initializer => exact plain plain_initializer
  | initList => exact plain plain_initList
  | initializers => exact plain plain_initializers
  | designator => exact plain plain_designator
  | designatorParts => exact plain plain_designatorParts
  | typeName => exact plain plain_typeName
  | labelBody => exact plain plain_labelBody
  | condition => exact plain plain_condition
  | asmOperands => exact plain plain_asmOperands
  | expression => exact plain plain_expression
  | assignment => exact plain plain_assignment
  | conditional => exact plain plain_conditional
  | binary level => exact plain (plain_binary level)
  | unary => exact plain plain_unary
  | argList => exact plain plain_argList
  | args => exact plain plain_args
  | primary => exact plain plain_primary

/-- **Every construct adds what it should**: it leaves the scopes as they are read off the trees it
adds, and these use names as the scopes say. -/
theorem read_scoped (c : Construct) (s : State) (hstarts : c.Starts s.next) :
    c.Scoped s (c.read s).1 (c.read s).2 :=
  read_post (K := scoping) (fun c s _ _ => rule_scoped c s) c s hstarts trivial
    fun h => by cases h

end Construct

/-- **In the sketch of a file, names are used as the scopes say.** -/
theorem agrees_skeletons (symbols : List Symbol) :
    AgreesAll [[]] .plain (Skeleton.sketchAll (skeletons symbols)) := by
  obtain ⟨xs, hxs⟩ := Construct.read_scoped .declarations (.initial symbols) trivial
  have hsketches : Skeleton.sketchAll (skeletons symbols) = xs := by
    rw [skeletons, List.reverse_cons, Skeleton.sketchAll_append]
    have hfinal : (State.final symbols).sketches = xs := hxs.sketches
    simpa [State.sketches, State.trees] using hfinal
  rw [hsketches]
  exact hxs.agrees

end Whittle.Grammar
