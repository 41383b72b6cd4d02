import Whittle.Proofs.Tree.Sketch

/-!
# Labels at the end of blocks

A label may stand before nothing, but only at the end of its block. So a file without faults has a
closing brace after each label of this kind, and a statement that ends with a colon ends with such a
label.

* `Sketch.LabelParts`: the parts of a label. What it stands before is missing only before a brace.
* `Sketch.Braced`: whether all labels of a sketch are of these parts and stand in closed blocks.
* `Rule.Ordinary`: rules that make neither labels nor blocks of their own. They keep to this if the
  constructs they read do.
* `Construct.read_labelling`: **a construct that is read without faults keeps to it.**
* `braced_skeletons`, `tight_skeletons`: what follows for a file without faults.
-/

namespace Whittle

open Grammar

/-- Whether a node is a label: that of a statement, a `case` or a `default`. -/
def NodeKind.isLabel (k : NodeKind) : Bool := k = .labeledStmt || k = .caseStmt

/-! ### Labels in sketches -/

namespace Sketch

variable {b : Bool} {k : NodeKind} {rest : List Symbol} {x : Sketch} {xs ys : List Sketch}

/-- Whether parts of a label end with its colon, apart from attributes. -/
def isBare (parts : List Sketch) : Bool :=
  (parts.reverse.find? fun x => !x.isNode .attr).any (·.isSymbol .colon)

/-- Whether a label that stands before nothing is among the nodes of a sketch. -/
inductive HasBare : Sketch → Prop
  | self {k : NodeKind} {parts : List Sketch} (hk : k.isLabel = true)
      (hbare : isBare parts = true) : HasBare (.node k parts)
  | part {k : NodeKind} {parts : List Sketch} {x : Sketch} (hx : x ∈ parts) (h : HasBare x) :
      HasBare (.node k parts)

mutual

/-- The kind of the symbol that a sketch ends with. -/
def lastKind? : Sketch → Option TokenKind
  | .leaf symbol => some symbol.kind
  | .node _ parts => lastKindOf? parts

/-- The kind of the symbol that the last of some sketches ends with. -/
def lastKindOf? : List Sketch → Option TokenKind
  | [] => none
  | [x] => x.lastKind?
  | _ :: xs => lastKindOf? xs

end

theorem lastKindOf?_concat (xs : List Sketch) (x : Sketch) :
    lastKindOf? (xs ++ [x]) = x.lastKind? := by
  induction xs with
  | nil => rw [List.nil_append, lastKindOf?]
  | cons y ys ih =>
    cases ys with
    | nil => exact ih
    | cons z zs => exact ih

/-- **A statement ends with a colon only if it ends with a label that stands before nothing.** -/
def Ends (x : Sketch) : Prop := x.lastKind? = some .colon → x.HasBare

theorem Ends.concat (h : x.Ends) (k : NodeKind) (xs : List Sketch) :
    (node k (xs ++ [x])).Ends := by
  intro hlast
  rw [lastKind?, lastKindOf?_concat] at hlast
  exact .part (by simp) (h hlast)

theorem Ends.leaf {y : Symbol} (h : y.kind ≠ .colon) : (Sketch.leaf y).Ends := by
  intro hlast
  rw [lastKind?] at hlast
  exact absurd (Option.some.inj hlast) h

/-- **The parts of a label**: its head, its colon, its attributes and what it stands before. This is
missing only before a closing brace or where nothing follows. -/
inductive LabelParts (rest : List Symbol) : List Sketch → Prop
  | closing {first colon : Symbol} {head attrs : List Sketch} (hcolon : colon.kind = .colon)
      (hattrs : ∀ a ∈ attrs, a.isNode .attr = true)
      (hrest : ∀ y, rest.head? = some y → y.kind = .closeBrace) :
      LabelParts rest (.leaf first :: (head ++ .leaf colon :: attrs))
  | before {first colon : Symbol} {head attrs : List Sketch} {k : NodeKind} {ys : List Sketch}
      (hcolon : colon.kind = .colon) (hattrs : ∀ a ∈ attrs, a.isNode .attr = true)
      (hk : k ≠ .attr) (hends : (node k ys).Ends) :
      LabelParts rest (.leaf first :: (head ++ .leaf colon :: (attrs ++ [.node k ys])))

theorem isBare_of_attrs {colon : Symbol} (hcolon : colon.kind = .colon)
    (hattrs : ∀ a ∈ ys, a.isNode .attr = true) : isBare (xs ++ .leaf colon :: ys) = true := by
  have hnone : ys.reverse.find? (fun x => !x.isNode .attr) = none :=
    List.find?_eq_none.2 fun a ha => by simpa using hattrs a (List.mem_reverse.1 ha)
  rw [isBare, List.reverse_append, List.reverse_cons, List.append_assoc, List.find?_append, hnone]
  simp [isNode, isSymbol, hcolon]

theorem not_isBare_concat (hk : k ≠ .attr) : isBare (xs ++ [node k ys]) = false := by
  rw [isBare, List.reverse_append]
  simp [isNode, isSymbol, hk]

/-- A label without anything to stand before is followed by a brace, if by anything. -/
theorem LabelParts.closeBrace (h : LabelParts rest xs) (hbare : isBare xs = true) {y : Symbol}
    (hy : rest.head? = some y) : y.kind = .closeBrace := by
  cases h with
  | closing hcolon hattrs hrest => exact hrest y hy
  | @before first colon head attrs k ys hcolon hattrs hk hends =>
    have hnot : isBare (.leaf first :: (head ++ .leaf colon :: attrs) ++ [node k ys]) = false :=
      not_isBare_concat hk
    rw [List.cons_append, List.append_assoc, List.cons_append, hbare] at hnot
    cases hnot

/-- A label that ends with a colon, or with an attribute as its last node, holds one without anything
to stand before. -/
theorem LabelParts.hasBare (h : LabelParts rest xs) (hk : k.isLabel = true)
    (hlast : (node k xs).lastKind? = some .colon ∨
      ∃ ys a zs, xs = ys ++ node .attr a :: zs ∧ ∀ z ∈ zs, ∃ y, z = .leaf y) :
    (node k xs).HasBare := by
  cases h with
  | @closing first colon head attrs hcolon hattrs hrest =>
    have hbare : isBare (.leaf first :: head ++ .leaf colon :: attrs) = true :=
      isBare_of_attrs hcolon hattrs
    exact .self hk hbare
  | @before first colon head attrs k' ys hcolon hattrs hk' hends =>
    have hparts : Sketch.leaf first :: (head ++ .leaf colon :: (attrs ++ [.node k' ys])) =
        .leaf first :: (head ++ .leaf colon :: attrs) ++ [.node k' ys] := by simp
    rw [hparts] at hlast ⊢
    rcases hlast with hcolon' | ⟨us, a, zs, hsplit, hzs⟩
    · exact hends.concat _ _ hcolon'
    · -- the last node is what the label stands before, and that is no attribute
      have hnode := congrArg List.getLast? hsplit
      rcases zs.eq_nil_or_concat with rfl | ⟨vs, v, rfl⟩
      · simp only [List.getLast?_append, List.getLast?_singleton, Option.some_or,
          Option.some.injEq, node.injEq] at hnode
        exact absurd hnode.1 hk'
      · obtain ⟨y, rfl⟩ := hzs v (by simp)
        simp [List.getLast?_cons] at hnode

mutual

/-- Whether the labels of a sketch have the parts they should, given the symbols after it, and stand
in blocks that end with a symbol of their own. -/
def Braced (inBlock : Bool) (rest : List Symbol) : Sketch → Prop
  | .leaf _ => True
  | .node k parts =>
    (k.isLabel = true → inBlock = true ∧ LabelParts rest parts) ∧
      (k = .compoundStmt → ∃ ys y, parts = ys ++ [.leaf y]) ∧
      BracedAll (inBlock || k = .compoundStmt) rest parts

/-- Whether the labels of some sketches are as they should be. -/
def BracedAll (inBlock : Bool) (rest : List Symbol) : List Sketch → Prop
  | [] => True
  | x :: xs => x.Braced inBlock (symbolsAll xs ++ rest) ∧ BracedAll inBlock rest xs

end

@[simp] theorem braced_leaf {y : Symbol} : (leaf y).Braced b rest := by simp [Braced]

@[simp] theorem bracedAll_nil : BracedAll b rest [] := by simp [BracedAll]

@[simp] theorem bracedAll_cons : BracedAll b rest (x :: xs) ↔
    x.Braced b (symbolsAll xs ++ rest) ∧ BracedAll b rest xs := by
  rw [BracedAll]

theorem bracedAll_append : BracedAll b rest (xs ++ ys) ↔
    BracedAll b (symbolsAll ys ++ rest) xs ∧ BracedAll b rest ys := by
  induction xs with
  | nil => simp
  | cons x xs ih => simp [ih, and_assoc]

end Sketch

/-! ### Labels in skeletons -/

namespace Skeleton

mutual

/-- Whether no label of a skeleton ends with trivia. -/
def Tight : Skeleton → Prop
  | .leaf _ => True
  | .slot => True
  | .node k children => (k.isLabel = true → children.getLast? ≠ some .slot) ∧ TightAll children

/-- Whether no label of some skeletons ends with trivia. -/
def TightAll : List Skeleton → Prop
  | [] => True
  | s :: ss => s.Tight ∧ TightAll ss

end

@[simp] theorem tight_leaf {x : Symbol} : (leaf x).Tight := by simp [Tight]

@[simp] theorem tight_slot : slot.Tight := by simp [Tight]

@[simp] theorem tight_node {k : NodeKind} {ss : List Skeleton} :
    (node k ss).Tight ↔ (k.isLabel = true → ss.getLast? ≠ some .slot) ∧ TightAll ss := by
  rw [Tight]

@[simp] theorem tightAll_nil : TightAll [] := by simp [TightAll]

@[simp] theorem tightAll_cons {s : Skeleton} {ss : List Skeleton} :
    TightAll (s :: ss) ↔ s.Tight ∧ TightAll ss := by
  rw [TightAll]

@[simp] theorem tightAll_append {ss rs : List Skeleton} :
    TightAll (ss ++ rs) ↔ TightAll ss ∧ TightAll rs := by
  induction ss with
  | nil => simp
  | cons s ss ih => simp [ih, and_assoc]

/-- Whether some skeletons are attributes with trivia before each of them. -/
structure Attributes (ss : List Skeleton) : Prop where
  isNode : ∀ x ∈ sketchAll ss, x.isNode .attr = true
  getLast? : ss.getLast? ≠ some .slot

end Skeleton

namespace Grammar

open Sketch Skeleton

/-! ### Labels in states -/

namespace State

variable {items b : Bool} {s t u : State}

/-- The symbols of the innermost segment and those ahead. -/
def symbols (s : State) : List Symbol := symbolsAll s.sketches ++ s.ahead

/-- Whether the labels of the innermost segment are as they should be. -/
structure Labelled (inBlock : Bool) (s : State) : Prop where
  braced : BracedAll inBlock s.ahead s.sketches
  tight : TightAll s.trees

/-- **Whether labels stay as they should be** from one state to another, in blocks or, if no block
items are read, anywhere. -/
structure Keeps (items : Bool) (s s' : State) : Prop where
  symbols : s'.symbols = s.symbols
  labelled : ∀ b, (items = true → b = true) → s.Labelled b → s'.Labelled b

theorem labelled_of_trees_eq_nil (h : s.trees = []) : s.Labelled b :=
  ⟨by simp [sketches, h], by simp [h]⟩

namespace Keeps

theorem of_eq (htrees : t.trees = s.trees) (hahead : t.ahead = s.ahead) : s.Keeps items t where
  symbols := by rw [State.symbols, State.symbols, sketches, sketches, htrees, hahead]
  labelled b _ hs := by
    refine ⟨?_, htrees ▸ hs.tight⟩
    rw [sketches, htrees, hahead]
    exact hs.braced

theorem refl (s : State) : s.Keeps items s := of_eq rfl rfl

theorem trans (h : s.Keeps items t) (h' : t.Keeps items u) : s.Keeps items u where
  symbols := h'.symbols.trans h.symbols
  labelled b hb hs := h'.labelled b hb (h.labelled b hb hs)

theorem mono {items' : Bool} (h : s.Keeps items t) (himp : items = true → items' = true) :
    s.Keeps items' t where
  symbols := h.symbols
  labelled b hb hs := h.labelled b (fun hitems => hb (himp hitems)) hs

theorem bump (s : State) : s.Keeps items (s.act .bump) where
  symbols := by
    rw [State.symbols, State.symbols, sketches_bump, Sketch.symbolsAll_append, List.append_assoc,
      ahead_bump, ← s.ahead_eq_taken]
  labelled b _ hs := by
    constructor
    · rw [sketches_bump, ahead_bump, bracedAll_append, ← s.ahead_eq_taken]
      refine ⟨hs.braced, ?_⟩
      unfold taken
      cases s.ahead <;> simp
    · rw [trees_bump, tightAll_append]
      refine ⟨hs.tight, ?_⟩
      unfold bumped
      cases s.ahead <;> simp

theorem settle (s : State) : s.Keeps items (s.act .settle) where
  symbols := by rw [State.symbols, State.symbols, sketches_settle, ahead_settle]
  labelled b _ hs := by
    refine ⟨by simpa using hs.braced, ?_⟩
    rw [trees_settle, tightAll_append]
    exact ⟨hs.tight, by simp⟩

theorem declaring (n : Option Nat) (b : Bool) (s : State) : s.Keeps items (s.declaring n b) :=
  of_eq (s.trees_declaring n b) (s.ahead_declaring n b)

/-- A segment becomes a node that is neither a label nor a block. -/
theorem gather {k : NodeKind} (hlabel : k.isLabel = false) (hblock : k ≠ .compoundStmt)
    (s : State) : s.Keeps items (s.act (.gather k)) where
  symbols := by simp [State.symbols]
  labelled b _ hs := by
    constructor
    · simpa [Braced, hlabel, hblock] using hs.braced
    · simpa [hlabel] using hs.tight

/-- A segment that keeps labels as they should be joins the trees before it. -/
theorem segment (h : ({ s with built := [] } : State).Keeps items t) :
    s.Keeps items { t with built := t.built ++ s.built } := by
  have htrees : ({ t with built := t.built ++ s.built } : State).trees = s.trees ++ t.trees := by
    simp [trees]
  have hsketches : ({ t with built := t.built ++ s.built } : State).sketches =
      s.sketches ++ t.sketches := by
    rw [sketches, htrees, sketchAll_append, sketches, sketches]
  have hinner : symbolsAll t.sketches ++ t.ahead = s.ahead := h.symbols
  constructor
  · change symbolsAll (State.sketches _) ++ t.ahead = _
    rw [hsketches, Sketch.symbolsAll_append, List.append_assoc, hinner, State.symbols]
  · intro b hb hs
    have ht := h.labelled b hb (labelled_of_trees_eq_nil rfl)
    constructor
    · change BracedAll b t.ahead _
      rw [hsketches, bracedAll_append, hinner]
      exact ⟨hs.braced, ht.braced⟩
    · rw [htrees, tightAll_append]
      exact ⟨hs.tight, ht.tight⟩

/-- A segment whose labels are as they should be joins the trees before it. -/
theorem joined (hsymbols : t.symbols = s.ahead)
    (hlabelled : ∀ b, (items = true → b = true) → t.Labelled b) : s.Keeps items (t.joined s) :=
  (settle s).trans (segment ⟨hsymbols, fun b hb _ => hlabelled b hb⟩)

end Keeps

/-- Whether a state comes of another by a statement that ends as it should. -/
def AddsStatement (s s' : State) : Prop :=
  ∃ k ss, s'.trees = s.trees ++ [.slot, .node k ss] ∧ k ≠ .attr ∧
    (Sketch.node k (sketchAll ss)).Ends

theorem AddsStatement.ends (h : s.AddsStatement t) (k : NodeKind) :
    (Sketch.node k t.sketches).Ends := by
  obtain ⟨k', ss, htrees, -, hends⟩ := h
  have hsketches : t.sketches = s.sketches ++ [.node k' (sketchAll ss)] := by
    simp [sketches, htrees]
  rw [hsketches]
  exact hends.concat k _

theorem addsStatement_joined {k : NodeKind} (hk : k ≠ .attr) (h : (Sketch.node k t.sketches).Ends) :
    s.AddsStatement ((t.act (.gather k)).joined s) :=
  ⟨k, t.trees, by simp, hk, h⟩

end State

/-- Whether a construct may be a label. These are only read in blocks. -/
def Construct.isItem : Construct → Bool
  | .blockItems | .blockItem | .statement | .labelBody | .forStatement => true
  | _ => false

/-- What is known of the end of what a construct adds. -/
def Construct.Ends : Construct → State → State → Prop
  | .statement, s, s' | .blockItem, s, s' | .compound, s, s' | .forStatement, s, s'
  | .asmStatement, s, s' | .declaration .block, s, s' => s.AddsStatement s'
  | .labelBody, s, s' =>
    s' = s ∧ (s.next = none ∨ s.next = some .closeBrace) ∨ s.AddsStatement s'
  | .attributes _, s, s' => ∃ ss, s'.trees = s.trees ++ ss ∧ Attributes ss
  | _, _, _ => True

/-- How labels are read, if there are no faults. -/
def labelling : Contract where
  pre _ _ := True
  post c s r s' := (form.pre c s → form.post c s r s') ∧ s.Keeps c.isItem s' ∧ c.Ends s s'
  strict := true

namespace Rule

variable {α β : Type} {items : Bool} {Q : α → Prop}

/-! ### Rules that make neither labels nor blocks -/

/-- **Whether a rule makes neither labels nor blocks of its own**, reads block items only if it may,
and may end with results that satisfy `Q`. -/
def Ordinary (items : Bool) {α : Type} : Rule α → (α → Prop) → Prop
  | .done a, Q => Q a
  | .look next, Q => ∀ v, (next v).Ordinary items Q
  | .act .bump next, Q => next.Ordinary items Q
  | .act .settle next, Q => next.Ordinary items Q
  | .act (.fault _) next, Q => next.Ordinary items Q
  | .act (.declare _ _) next, Q => next.Ordinary items Q
  | .act (.gather k) next, Q =>
    k.isLabel = false ∧ k ≠ .compoundStmt ∧ next.Ordinary items Q
  | .segment inner next, Q => inner.Ordinary items fun b => (next b).Ordinary items Q
  | .scope _ inner next, Q => inner.Ordinary items fun b => ∀ ns, (next b ns).Ordinary items Q
  | .call c next, Q => (c.isItem = true → items = true) ∧ ∀ r, (next r).Ordinary items Q

@[simp] theorem ordinary_pure (a : α) : (pure a : Rule α).Ordinary items Q ↔ Q a := Iff.rfl

@[simp] theorem ordinary_bind {r : Rule α} {f : α → Rule β} {Q : β → Prop} :
    (r >>= f).Ordinary items Q ↔ r.Ordinary items fun a => (f a).Ordinary items Q := by
  change (r.bind f).Ordinary items Q ↔ _
  induction r with
  | done a => exact Iff.rfl
  | look next ih => exact forall_congr' fun v => ih v
  | act action next ih =>
    cases action with
    | gather k => exact and_congr_right fun _ => and_congr_right fun _ => ih
    | _ => exact ih
  | segment inner next _ ih => simp only [Rule.bind, Ordinary, ih]
  | scope names inner next _ ih => simp only [Rule.bind, Ordinary, ih]
  | call c next ih => simp only [Rule.bind, Ordinary, ih]

@[simp] theorem ordinary_ite {p : Prop} [Decidable p] {r t : Rule α} :
    (if p then r else t).Ordinary items Q ↔
      (p → r.Ordinary items Q) ∧ (¬p → t.Ordinary items Q) := by
  by_cases h : p <;> simp [h]

@[simp] theorem ordinary_view {Q : View → Prop} : view.Ordinary items Q ↔ ∀ v, Q v := Iff.rfl

@[simp] theorem ordinary_next {Q : Option TokenKind → Prop} :
    next.Ordinary items Q ↔ ∀ v : View, Q (v.kindAt 0) := Iff.rfl

@[simp] theorem ordinary_sees {k : TokenKind} {Q : Bool → Prop} :
    (sees k).Ordinary items Q ↔ ∀ v : View, Q (v.kindAt 0 == some k) := Iff.rfl

@[simp] theorem ordinary_remaining {Q : Nat → Prop} :
    remaining.Ordinary items Q ↔ ∀ v : View, Q v.ahead.length := Iff.rfl

@[simp] theorem ordinary_endsAt {k : TokenKind} {Q : Bool → Prop} :
    (endsAt k).Ordinary items Q ↔ ∀ v : View, Q (v.ahead.isEmpty || v.kindAt 0 == some k) :=
  Iff.rfl

@[simp] theorem ordinary_bump {Q : Unit → Prop} : bump.Ordinary items Q ↔ Q () := Iff.rfl

@[simp] theorem ordinary_settle {Q : Unit → Prop} : settle.Ordinary items Q ↔ Q () := Iff.rfl

@[simp] theorem ordinary_fault {f : Fault} {Q : Unit → Prop} :
    (fault f).Ordinary items Q ↔ Q () := Iff.rfl

@[simp] theorem ordinary_declare {n : Option Nat} {b : Bool} {Q : Unit → Prop} :
    (declare n b).Ordinary items Q ↔ Q () := by
  cases n <;> exact Iff.rfl

@[simp] theorem ordinary_gather {k : NodeKind} {Q : Unit → Prop} :
    (gather k).Ordinary items Q ↔ k.isLabel = false ∧ k ≠ .compoundStmt ∧ Q () := Iff.rfl

@[simp] theorem ordinary_read {c : Construct} {Q : c.Result → Prop} :
    @Ordinary items (no_index c.Result) (read c) Q ↔
      (c.isItem = true → items = true) ∧ ∀ r, Q r := Iff.rfl

@[simp] theorem ordinary_apart {r : Rule α} :
    (apart r).Ordinary items Q ↔ r.Ordinary items Q := Iff.rfl

@[simp] theorem ordinary_node {k : NodeKind} {r : Rule α} :
    (node k r).Ordinary items Q ↔
      r.Ordinary items fun a => k.isLabel = false ∧ k ≠ .compoundStmt ∧ Q a := by
  simp [node]

@[simp] theorem ordinary_inScope {names : Names} {r : Rule Unit} {Q : Names → Prop} :
    (inScope names r).Ordinary items Q ↔ r.Ordinary items fun _ => ∀ ns, Q ns := Iff.rfl

/-- **An ordinary rule keeps labels as they should be.** -/
theorem Ordinary.keeps {r : Rule α} (h : r.Ordinary items Q) (s : State) :
    r.wp labelling s fun a s' => Q a ∧ s.Keeps items s' := by
  induction r generalizing s with
  | done a => exact ⟨h, .refl s⟩
  | look next ih => exact ih s.view (h s.view) s
  | act action next ih =>
    have after {t : State} (ht : s.Keeps items t) (h : next.Ordinary items Q) :
        next.wp labelling t fun a s' => Q a ∧ s.Keeps items s' :=
      wp_mono (ih h t) fun _ _ hs' => ⟨hs'.1, ht.trans hs'.2⟩
    cases action with
    | bump => exact after (.bump s) h
    | settle => exact after (.settle s) h
    | fault f => exact .inl rfl
    | declare n b => exact after (.declaring (some n) b s) h
    | gather k => exact after (.gather h.1 h.2.1 s) h.2.2
  | segment inner next ihi ihn =>
    rw [wp]
    refine wp_mono (ihi h { s with built := [] }) ?_
    rintro b t ⟨hnext, ht⟩
    exact wp_mono (ihn b hnext _) fun _ _ hs' => ⟨hs'.1, ht.segment.trans hs'.2⟩
  | scope names inner next ihi ihn =>
    rw [wp]
    refine wp_mono (ihi h (s.entered names)) ?_
    rintro b t ⟨hnext, ht⟩
    have hs : s.Keeps items t.closed :=
      State.Keeps.trans (.of_eq (s.trees_entered names) rfl) (ht.trans (.of_eq t.trees_closed rfl))
    exact wp_mono (ihn b _ (hnext _) _) fun _ _ hs' => ⟨hs'.1, hs.trans hs'.2⟩
  | call c next ih =>
    refine ⟨trivial, ?_⟩
    rintro r t ⟨_, ht, _⟩
    exact wp_mono (ih r (h.2 r) t) fun _ _ hs' => ⟨hs'.1, (ht.mono h.1).trans hs'.2⟩

/-! ### Ordinary constructs -/

attribute [local simp] NodeKind.isLabel Construct.isItem leafNode reject orReject ifSees unlessSees
  accept ifAccepts optional require requireThen

theorem ordinary_rule {c : Construct} (hstatement : c ≠ .statement) (hcompound : c ≠ .compound) :
    c.rule.Ordinary c.isItem fun _ => True := by
  cases c with
  | statement => exact absurd rfl hstatement
  | compound => exact absurd rfl hcompound
  | declarations => simp [Construct.rule, declarations]
  | externalDeclaration =>
    rw [Construct.rule, externalDeclaration, ordinary_bind, ordinary_view]
    intro v
    split <;> simp
  | declaration place =>
    rw [Construct.rule, declaration, ordinary_apart, ordinary_bind, ordinary_read]
    refine ⟨by simp, fun isTypedef => ?_⟩
    simp [firstDeclarator, initPart, unlessInHead]
  | moreDeclarators isTypedef => simp [Construct.rule, moreDeclarators, initPart]
  | functionBody names => simp [Construct.rule, functionBody]
  | parameterDeclarations => simp [Construct.rule, parameterDeclarations]
  | specifiers => simp [Construct.rule, specifiers]
  | specifierList isTypedef hasType =>
    rw [Construct.rule, specifierList, ordinary_bind, ordinary_view]
    intro v
    split <;> simp [oneAttribute]
  | tagSpecifier => simp [Construct.rule, tagSpecifier]
  | structBody => simp [Construct.rule, structBody]
  | fields => simp [Construct.rule, fields]
  | fieldGroup => simp [Construct.rule, fieldGroup]
  | fieldDeclarators => simp [Construct.rule, fieldDeclarators]
  | enumBody => simp [Construct.rule, enumBody]
  | enumerators => simp [Construct.rule, enumerators]
  | attributes labels => simp [Construct.rule, attributes, oneAttribute]
  | balanced depth =>
    rw [Construct.rule, balanced, ordinary_bind, ordinary_next]
    intro v
    split <;> simp
  | typeofSpecifier => simp [Construct.rule, typeofSpecifier, typeofOperand]
  | declarator =>
    rw [Construct.rule, declarator, ordinary_node, ordinary_bind, ordinary_read]
    refine ⟨by simp, fun _ => ?_⟩
    rw [ordinary_bind, declaratorCore, ordinary_bind, ordinary_view]
    intro v
    split <;> simp
  | pointers => simp [Construct.rule, pointers]
  | suffixes isFirst known =>
    rw [Construct.rule, suffixes, ordinary_bind, ordinary_next]
    intro v
    split <;> simp
  | arraySuffix => simp [Construct.rule, arraySuffix, arraySize]
  | paramList => simp [Construct.rule, paramList]
  | params => simp [Construct.rule, params]
  | param =>
    rw [Construct.rule, param, ordinary_node, ordinary_bind, ordinary_read]
    refine ⟨by simp, fun _ => ?_⟩
    rw [ordinary_bind, ordinary_next]
    intro v
    split <;> simp
  | initializer => simp [Construct.rule, initializer]
  | initList => simp [Construct.rule, initList]
  | initializers => simp [Construct.rule, initializers, listedInitializer, optionalDesignator]
  | designator => simp [Construct.rule, designator]
  | designatorParts => simp [Construct.rule, designatorParts]
  | typeName =>
    rw [Construct.rule, typeName, ordinary_node, ordinary_bind, ordinary_read]
    refine ⟨by simp, fun _ => ?_⟩
    rw [ordinary_bind, ordinary_next]
    intro v
    split <;> simp
  | blockItems => simp [Construct.rule, blockItems]
  | blockItem => simp [Construct.rule, blockItem]
  | labelBody => simp [Construct.rule, labelBody]
  | condition => simp [Construct.rule, condition]
  | forStatement => simp [Construct.rule, forStatement, forClauses, forInit]
  | asmStatement => simp [Construct.rule, asmStatement]
  | asmOperands =>
    have operand {Q : Unit → Prop} (h : Q ()) : asmOperand.Ordinary false Q := by
      rw [asmOperand, ordinary_bind, ordinary_next]
      intro v
      split <;> simp [h]
    simp [Construct.rule, asmOperands, operand]
  | expression => simp [Construct.rule, expression]
  | commaTail => simp [Construct.rule, commaTail]
  | assignment =>
    rw [Construct.rule, assignment, ordinary_apart, ordinary_bind, ordinary_read]
    refine ⟨by simp, fun _ => ?_⟩
    rw [ordinary_bind, ordinary_next]
    intro v
    split <;> simp
  | conditional => simp [Construct.rule, conditional]
  | binary level => simp [Construct.rule, binary]
  | binaryTail level => simp [Construct.rule, binaryTail]
  | unary =>
    rw [Construct.rule, unary, ordinary_bind, ordinary_view]
    intro v
    split <;> simp [prefixed, labelAddress, postfixed, sizeofExpression, typed]
  | postfixTail =>
    rw [Construct.rule, postfixTail, ordinary_bind, ordinary_next]
    intro v
    split <;> simp
  | argList => simp [Construct.rule, argList]
  | args => simp [Construct.rule, args, argument]
  | primary =>
    rw [Construct.rule, primary, ordinary_bind, ordinary_view]
    intro v
    split <;> simp
  | series which => simp [Construct.rule, series]

/-! ### How statements end -/

/-- Whether a node of the parts that a rule leaves, whatever was there before, ends as a statement
should. -/
def Finishes (r : Rule α) : Prop :=
  ∀ (k : NodeKind) (s : State), r.wp labelling s fun _ t => (Sketch.node k t.sketches).Ends

theorem finishes_bind {r : Rule α} {f : α → Rule β} (hf : ∀ a, (f a).Finishes) :
    (r >>= f).Finishes := fun k _ =>
  wp_bind.2 (wp_of_forall (fun _ _ => trivial) r fun a t => hf a k t)

theorem finishes_seq {r : Rule α} {t : Rule β} (ht : t.Finishes) : (r >>= fun _ => t).Finishes :=
  finishes_bind fun _ => ht

theorem ends_bump {s : State} {kind : TokenKind} (hkind : kind ≠ .colon) (hs : s.next = some kind)
    (k : NodeKind) : (Sketch.node k (s.act .bump).sketches).Ends := by
  obtain ⟨x, rest, hahead, rfl⟩ := State.next_eq_some hs
  rw [State.sketches_bump, State.taken, hahead]
  exact (Sketch.Ends.leaf hkind).concat k s.sketches

theorem finishes_require {kind : TokenKind} {f : Fault} (hkind : kind ≠ .colon) :
    (require kind f).Finishes := fun k _ =>
  wp_require.2 ⟨fun hs => ends_bump hkind hs k, fun _ => .inl rfl⟩

theorem finishes_statement : (read .statement).Finishes := fun k _ =>
  wp_read.2 ⟨trivial, fun _ _ hpost => State.AddsStatement.ends hpost.2.2 k⟩

theorem finishes_else {p : Prop} [Decidable p] : (do
    read .statement
    if p then ifAccepts .kwElse (read .statement) : Rule Unit).Finishes := by
  intro k s
  rw [wp_bind]
  refine wp_mono (finishes_statement k s) fun _ t ht => ?_
  exact wp_ite.2 ⟨fun _ => wp_ifAccepts.2 ⟨fun _ => finishes_statement k _, fun _ => ht⟩, fun _ => ht⟩

theorem finishes_inScope {names : Names} {r : Rule Unit} (hr : r.Finishes) :
    (do let _ ← inScope names r : Rule Unit).Finishes := fun k s =>
  wp_bind.2 (wp_inScope.2 (hr k (s.entered names)))

/-- A statement whose parts a rule leaves. -/
theorem node_addsStatement {k : NodeKind} {r : Rule α} (hk : k ≠ .attr) (hr : r.Finishes)
    (s : State) : (node k r).wp labelling s fun _ s' => s.AddsStatement s' :=
  wp_node.2 (wp_mono (hr k s.opened) fun _ _ ht => State.addsStatement_joined hk ht)

theorem finishes_asmStatement : (do
    bump
    read (.series .asmQualifiers)
    requireThen .openParen .asmOpen do
      read .asmOperands
      require .closeParen .asmClose
    require .semicolon .asmEnd : Rule Unit).Finishes :=
  finishes_seq <| finishes_seq <| finishes_seq <| finishes_require (by decide)

/-- Outside files, what a declaration starts with is no definition. -/
theorem firstDeclarator_block (isTypedef : Bool) (s : State) :
    (firstDeclarator .block isTypedef).wp labelling s fun d _ => d = none := by
  simp only [firstDeclarator, reduceCtorEq, decide_false, Bool.false_and, Bool.false_eq_true,
    if_false]
  rw [wp_apart, wp_bind]
  refine wp_of_forall (fun _ _ => trivial) _ fun _ _ => ?_
  rw [wp_bind, wp_view, wp_bind]
  exact wp_of_forall (fun _ _ => trivial) _ fun _ _ => rfl

theorem declaration_addsStatement (s : State) :
    (declaration .block).wp labelling s fun _ s' => s.AddsStatement s' := by
  have group {r : Rule Unit} {t : State}
      (hr : r.wp labelling t fun _ u => (Sketch.node .declGroup u.sketches).Ends) :
      (do unlessInHead .block r; gather .declGroup : Rule Unit).wp labelling t fun _ s' =>
        s.AddsStatement (s'.joined s) := by
    rw [wp_bind]
    exact wp_mono hr fun _ u hu => State.addsStatement_joined (by decide) hu
  rw [declaration, wp_apart, wp_bind]
  refine wp_of_forall (fun _ _ => trivial) _ fun isTypedef t => ?_
  rw [wp_bind, wp_sees, wp_ite]
  refine ⟨fun hstop => group ?_, fun _ => ?_⟩
  · exact ends_bump (show TokenKind.semicolon ≠ .colon by decide) (of_decide_eq_true hstop) _
  rw [wp_bind]
  refine wp_mono (firstDeclarator_block isTypedef t) fun d u hd => ?_
  obtain rfl := hd
  rw [wp_bind]
  refine wp_of_forall (fun _ _ => trivial) _ fun _ u => group ?_
  exact finishes_require (by decide) _ u

/-! ### Blocks and labels -/

/-- What a rule leaves when it is carried out in a segment of its own. -/
theorem Ordinary.labelled {r : Rule α} (h : r.Ordinary items Q) (s : State) :
    r.wp labelling s.opened fun _ t =>
      t.symbols = s.ahead ∧ ∀ b, (items = true → b = true) → t.Labelled b :=
  wp_mono (h.keeps s.opened) fun _ _ ht =>
    ⟨ht.2.symbols, fun b hb => ht.2.labelled b hb (State.labelled_of_trees_eq_nil s.trees_opened)⟩

theorem compound_labelling (s : State) :
    compound.wp labelling s fun _ s' => s.Keeps false s' ∧ s.AddsStatement s' := by
  have inner : (do
      bump
      let _ ← inScope [] (read .blockItems)
      require .closeBrace .blockEnd : Rule Unit).Ordinary true fun _ => True := by
    simp
  have last : (do
      bump
      let _ ← inScope [] (read .blockItems)
      require .closeBrace .blockEnd : Rule Unit).wp labelling s.opened fun _ t =>
        ∃ ys y, y.kind = .closeBrace ∧ t.sketches = ys ++ [.leaf y] := by
    rw [wp_bind, wp_bump, wp_bind]
    refine wp_of_forall (fun _ _ => trivial) _ fun _ u => ?_
    refine wp_require.2 ⟨fun hu => ?_, fun _ => .inl rfl⟩
    obtain ⟨y, rest, hahead, hy⟩ := State.next_eq_some hu
    exact ⟨_, y, hy, by rw [State.sketches_bump, State.taken, hahead]; rfl⟩
  rw [compound, wp_node]
  refine wp_mono (wp_and (inner.labelled s) last) ?_
  rintro _ t ⟨⟨hsymbols, hlabelled⟩, ys, y, hy, hsketches⟩
  have ht := hlabelled true fun _ => rfl
  refine ⟨State.Keeps.joined (by simpa [State.symbols] using hsymbols) fun b _ => ⟨?_, ?_⟩,
    State.addsStatement_joined (by decide) ?_⟩
  · have hbraced := ht.braced
    rw [hsketches] at hbraced
    rw [State.sketches_gather, State.ahead_gather, bracedAll_cons, Braced, hsketches]
    exact ⟨⟨by simp, fun _ => ⟨ys, y, rfl⟩, by simpa using hbraced⟩, bracedAll_nil⟩
  · simpa using ht.tight
  · rw [hsketches]
    exact (Sketch.Ends.leaf (by rw [hy]; decide)).concat _ _

/-- A label whose parts a rule leaves. -/
theorem label_labelling {k : NodeKind} {r : Rule Unit} {s : State} (hk : k.isLabel = true)
    (hr : r.Ordinary true fun _ => True)
    (hparts : r.wp labelling s.opened fun _ t =>
      LabelParts t.ahead t.sketches ∧ t.trees.getLast? ≠ some .slot) :
    (node k r).wp labelling s fun _ s' => s.Keeps true s' ∧ s.AddsStatement s' := by
  have hblock : k ≠ .compoundStmt := by rintro rfl; cases hk
  have hattr : k ≠ .attr := by rintro rfl; cases hk
  rw [wp_node]
  refine wp_mono (wp_and (hr.labelled s) hparts) ?_
  rintro _ t ⟨⟨hsymbols, hlabelled⟩, hparts, hlast⟩
  refine ⟨State.Keeps.joined (by simpa [State.symbols] using hsymbols) fun b hb => ?_,
    State.addsStatement_joined hattr fun hcolon => hparts.hasBare hk (.inl hcolon)⟩
  obtain rfl := hb rfl
  have ht := hlabelled true fun _ => rfl
  constructor
  · rw [State.sketches_gather, State.ahead_gather, bracedAll_cons, Braced]
    exact ⟨⟨fun _ => ⟨rfl, by simpa using hparts⟩, fun h => absurd h hblock, by simpa using ht.braced⟩,
      bracedAll_nil⟩
  · simpa using ⟨fun _ => hlast, ht.tight⟩

/-- What a label stands before, after its head, its colon and its attributes. -/
theorem labelBody_parts {s : State} {first colon : Symbol} {head attrs : List Sketch}
    (hcolon : colon.kind = .colon) (hattrs : ∀ a ∈ attrs, a.isNode .attr = true)
    (hsketches : s.sketches = .leaf first :: (head ++ .leaf colon :: attrs))
    (hlast : s.trees.getLast? ≠ some .slot) :
    (read .labelBody).wp labelling s fun _ t =>
      LabelParts t.ahead t.sketches ∧ t.trees.getLast? ≠ some .slot := by
  refine wp_read.2 ⟨trivial, ?_⟩
  rintro _ t ⟨_, _, hends⟩
  obtain ⟨rfl, hnext⟩ | ⟨k, ss, htrees, hk, hends⟩ := hends
  · refine ⟨?_, hlast⟩
    rw [hsketches]
    refine .closing hcolon hattrs fun y hy => ?_
    have hnext' : t.next = some y.kind := by
      rw [State.next, View.kindAt, State.ahead_view, ← List.head?_eq_getElem?, hy]
      rfl
    rw [hnext'] at hnext
    simpa using hnext
  · refine ⟨?_, by rw [htrees]; simp⟩
    have ht : t.sketches = .leaf first ::
        (head ++ .leaf colon :: (attrs ++ [.node k (sketchAll ss)])) := by
      rw [State.sketches, htrees, sketchAll_append, ← State.sketches, hsketches]
      simp
    rw [ht]
    exact .before hcolon hattrs hk hends

theorem labeledStatement_labelling {s : State} (hs : s.next = some .identifier)
    (hcolon : s.view.kindAt 1 = some .colon) :
    labeledStatement.wp labelling s fun _ s' => s.Keeps true s' ∧ s.AddsStatement s' := by
  refine label_labelling rfl (by simp) ?_
  rw [wp_bind, wp_bump, wp_bind, wp_bump, wp_bind]
  obtain ⟨x, rest, hx, -⟩ := State.next_eq_some (s := s.opened) hs
  have hbump : (s.opened.act .bump).next = some .colon := by rw [State.next_bump]; exact hcolon
  obtain ⟨y, rest', hy, hykind⟩ := State.next_eq_some hbump
  have hsketches : ((s.opened.act .bump).act .bump).sketches = [.leaf x, .leaf y] := by
    rw [State.sketches_bump, State.sketches_bump, State.taken, State.taken, hx, hy,
      State.sketches_opened]
    rfl
  have hlast : ((s.opened.act .bump).act .bump).trees.getLast? ≠ some .slot := by
    rw [State.trees_bump, State.bumped, hy]
    simp
  refine wp_read.2 ⟨trivial, ?_⟩
  rintro _ t ⟨_, _, ss, htrees, hattrs⟩
  have ht : t.sketches = .leaf x :: ([] ++ .leaf y :: sketchAll ss) := by
    rw [State.sketches, htrees, sketchAll_append, ← State.sketches, hsketches]
    rfl
  refine labelBody_parts hykind hattrs.isNode ht ?_
  rw [htrees, List.getLast?_append]
  cases hss : ss.getLast? with
  | none => simpa using hlast
  | some a => simpa [hss] using hattrs.getLast?

/-- What comes after the word of a `case` or a `default`. -/
theorem caseColon_parts {s : State} {first : Symbol} {head : List Sketch} (f : Fault)
    (hsketches : s.sketches = .leaf first :: head) :
    (do require .colon f; read .labelBody : Rule Unit).wp labelling s fun _ t =>
      LabelParts t.ahead t.sketches ∧ t.trees.getLast? ≠ some .slot := by
  rw [wp_bind]
  refine wp_require.2 ⟨fun hs => ?_, fun _ => .inl rfl⟩
  obtain ⟨y, rest, hy, hykind⟩ := State.next_eq_some hs
  have hbump : (s.act .bump).sketches = .leaf first :: (head ++ .leaf y :: []) := by
    rw [State.sketches_bump, State.taken, hy, hsketches]
    rfl
  refine labelBody_parts hykind (by simp) hbump ?_
  rw [State.trees_bump, State.bumped, hy]
  simp

theorem sketches_bump_opened {s : State} {k : TokenKind} (hs : s.next = some k) :
    ∃ x, (s.opened.act .bump).sketches = [.leaf x] := by
  obtain ⟨x, rest, hx, -⟩ := State.next_eq_some (s := s.opened) hs
  exact ⟨x, by rw [State.sketches_bump, State.taken, hx, State.sketches_opened]; rfl⟩

theorem defaultStatement_labelling {s : State} (hs : s.next = some .kwDefault) :
    defaultStatement.wp labelling s fun _ s' => s.Keeps true s' ∧ s.AddsStatement s' := by
  refine label_labelling rfl (by simp) ?_
  obtain ⟨x, hx⟩ := sketches_bump_opened hs
  rw [wp_bind, wp_bump]
  exact caseColon_parts _ hx

theorem caseStatement_labelling {s : State} (hs : s.next = some .kwCase) :
    caseStatement.wp labelling s fun _ s' => s.Keeps true s' ∧ s.AddsStatement s' := by
  -- an expression leaves what stands before it
  have value {t : State} {first : Symbol} {head : List Sketch}
      (ht : t.sketches = .leaf first :: head) :
      (read .conditional).wp labelling t fun _ u => ∃ head, u.sketches = .leaf first :: head := by
    refine wp_read.2 ⟨trivial, ?_⟩
    rintro _ u ⟨hform, _⟩
    obtain ⟨ss, htrees, -⟩ := hform trivial
    refine ⟨head ++ sketchAll ss, ?_⟩
    rw [State.sketches, htrees, sketchAll_append, ← State.sketches, ht]
    rfl
  refine label_labelling rfl (by simp) ?_
  obtain ⟨x, hx⟩ := sketches_bump_opened hs
  rw [wp_bind, wp_bump, wp_bind]
  refine wp_mono (value hx) ?_
  rintro _ t ⟨head, ht⟩
  rw [wp_bind]
  refine wp_ifAccepts.2 ⟨fun _ => ?_, fun _ => caseColon_parts _ ht⟩
  have hbump : (t.act .bump).sketches = .leaf x :: (head ++ t.taken) := by
    rw [State.sketches_bump, ht]
    rfl
  refine wp_mono (value hbump) ?_
  rintro _ u ⟨_, hu⟩
  exact caseColon_parts _ hu

/-- A statement that is no label. -/
theorem node_labelling {k : NodeKind} {r : Rule Unit}
    (hk : k.isLabel = false ∧ k ≠ .compoundStmt ∧ k ≠ .attr)
    (hordinary : r.Ordinary true fun _ => True) (hfinishes : r.Finishes) (s : State) :
    (node k r).wp labelling s fun _ s' => s.Keeps true s' ∧ s.AddsStatement s' := by
  have hnode : (node k r).Ordinary true fun _ => True := by
    rw [ordinary_node]
    simpa only [hk.1, hk.2.1, ne_eq, not_false_eq_true, and_self] using hordinary
  exact wp_and (wp_mono (hnode.keeps s) fun _ _ h => h.2) (node_addsStatement hk.2.2 hfinishes s)

/-- A statement that is read as another construct. -/
theorem read_item {c : Construct} (hends : ∀ s s', c.Ends s s' → s.AddsStatement s') (s : State) :
    (read c).wp labelling s fun _ s' => s.Keeps true s' ∧ s.AddsStatement s' := by
  refine wp_read.2 ⟨trivial, ?_⟩
  rintro _ s' ⟨_, hkeeps, h⟩
  exact ⟨hkeeps.mono fun _ => rfl, hends s s' h⟩

theorem statement_labelling (s : State) :
    statement.wp labelling s fun _ s' => s.Keeps true s' ∧ s.AddsStatement s' := by
  have condition {k : NodeKind} (hk : k.isLabel = false ∧ k ≠ .compoundStmt ∧ k ≠ .attr) :
      (conditionStatement k).wp labelling s fun _ s' => s.Keeps true s' ∧ s.AddsStatement s' :=
    node_labelling hk (by simp) (finishes_seq <| finishes_seq finishes_else) s
  have expression :
      expressionStatement.wp labelling s fun _ s' => s.Keeps true s' ∧ s.AddsStatement s' :=
    node_labelling (by decide) (by simp) (finishes_seq <| finishes_require (by decide)) s
  have jump :
      jumpStatement.wp labelling s fun _ s' => s.Keeps true s' ∧ s.AddsStatement s' :=
    node_labelling (by decide) (by simp) (finishes_seq <| finishes_require (by decide)) s
  rw [statement, wp_bind, wp_view]
  split
  · exact read_item (c := .compound) (fun _ _ h => h) s
  · exact condition (by decide)
  · exact condition (by decide)
  · exact condition (by decide)
  · exact node_labelling (by decide) (by simp) (finishes_seq <| finishes_seq <| finishes_seq <|
      finishes_seq <| finishes_require (by decide)) s
  · exact read_item (c := .forStatement) (fun _ _ h => h) s
  · next hs => exact caseStatement_labelling hs
  · next hs => exact defaultStatement_labelling hs
  · exact node_labelling (by decide) (by simp) (finishes_seq <| finishes_seq <|
      finishes_require (by decide)) s
  · exact jump
  · exact jump
  · exact node_labelling (by decide) (by simp [gotoTarget]) (finishes_seq <| finishes_seq <|
      finishes_require (by decide)) s
  · next hs =>
    have hempty : (leafNode .emptyStmt).Ordinary true fun _ => True := by simp
    refine wp_and (wp_mono (hempty.keeps s) fun _ _ h => h.2) (wp_leafNode.2 ?_)
    exact State.addsStatement_joined (by decide)
      (ends_bump (s := s.opened) (show TokenKind.semicolon ≠ .colon by decide) hs _)
  · exact read_item (c := .asmStatement) (fun _ _ h => h) s
  · next hs =>
    rw [wp_ite]
    exact ⟨fun hcolon => labeledStatement_labelling hs hcolon, fun _ => expression⟩
  · exact expression

theorem attributes_ends (labels : Bool) (s : State) :
    (attributes labels).wp labelling s fun _ s' => ∃ ss, s'.trees = s.trees ++ ss ∧ Attributes ss := by
  rw [attributes, wp_bind, wp_next, wp_ite]
  refine ⟨fun _ => ?_, fun _ => ⟨[], by simp, ⟨by simp, by simp⟩⟩⟩
  rw [wp_bind, oneAttribute, wp_node]
  refine wp_of_forall (fun _ _ => trivial) _ fun _ t => ?_
  refine wp_read.2 ⟨trivial, ?_⟩
  rintro _ s' ⟨_, _, ss, htrees, hattrs⟩
  refine ⟨.slot :: .node .attr t.trees :: ss, by rw [htrees]; simp, ⟨?_, ?_⟩⟩
  · intro x hx
    rw [sketchAll_cons, sketchAll_cons, sketch_slot, sketch_node, List.nil_append,
      List.singleton_append, List.mem_cons] at hx
    obtain rfl | hx := hx
    · rfl
    · exact hattrs.isNode x hx
  · cases ss with
    | nil => simp
    | cons a as => simpa [List.getLast?_cons] using hattrs.getLast?

theorem labelBody_ends (s : State) :
    labelBody.wp labelling s (fun _ s' => Construct.labelBody.Ends s s') := by
  rw [labelBody, wp_bind, wp_endsAt, wp_ite]
  refine ⟨fun hend => .inl ⟨rfl, of_decide_eq_true hend⟩, fun _ => ?_⟩
  exact wp_read.2 ⟨trivial, fun _ _ hpost => .inr hpost.2.2⟩

end Rule

/-! ### Readings -/

namespace Construct

open Rule

theorem rule_keeps (c : Construct) (s : State) :
    c.rule.wp labelling s fun _ s' => s.Keeps c.isItem s' := by
  by_cases hstatement : c = .statement
  · subst hstatement
    exact wp_mono (statement_labelling s) fun _ _ h => h.1
  by_cases hcompound : c = .compound
  · subst hcompound
    exact wp_mono (compound_labelling s) fun _ _ h => h.1
  exact wp_mono ((ordinary_rule hstatement hcompound).keeps s) fun _ _ h => h.2

theorem rule_ends (c : Construct) (s : State) : c.rule.wp labelling s fun _ s' => c.Ends s s' := by
  have nothing {c : Construct} (h : ∀ s s', c.Ends s s') :
      c.rule.wp labelling s fun _ s' => c.Ends s s' :=
    wp_of_forall (fun _ _ => trivial) _ fun _ s' => h s s'
  cases c with
  | statement => exact wp_mono (statement_labelling s) fun _ _ h => h.2
  | compound => exact wp_mono (compound_labelling s) fun _ _ h => h.2
  | blockItem =>
    rw [rule, Rule.blockItem, wp_bind, wp_view, wp_ite]
    exact ⟨fun _ => wp_read.2 ⟨trivial, fun _ _ hpost => hpost.2.2⟩,
      fun _ => wp_read.2 ⟨trivial, fun _ _ hpost => hpost.2.2⟩⟩
  | forStatement =>
    refine node_addsStatement (by decide) (finishes_seq <| finishes_inScope ?_) s
    exact finishes_seq finishes_statement
  | asmStatement => exact node_addsStatement (by decide) finishes_asmStatement s
  | declaration place =>
    cases place with
    | block => exact declaration_addsStatement s
    | _ => exact nothing fun _ _ => trivial
  | labelBody => exact labelBody_ends s
  | attributes labels => exact attributes_ends labels s
  | _ => exact nothing fun _ _ => trivial

theorem rule_labelling (c : Construct) (s : State) (hstarts : c.Starts s.next) :
    c.rule.wp labelling s (labelling.post c s) := by
  have hform : c.rule.wp labelling s fun r s' => form.pre c s → form.post c s r s' := by
    by_cases hpre : form.pre c s
    · refine wp_mono (wp_of_contract (P := form) (K := labelling) rfl (fun _ _ _ => trivial)
        (fun _ _ _ _ hpre hpost => hpost.1 hpre) (rule_form c s hstarts hpre)) ?_
      exact fun _ _ h _ => h
    · exact wp_of_forall (fun _ _ => trivial) _ fun _ _ h => absurd h hpre
  exact wp_and hform (wp_and (rule_keeps c s) (rule_ends c s))

/-- **A construct that is read without faults keeps labels as they should be**, and ends as is known
of it. -/
theorem read_labelling (c : Construct) (s : State) (hstarts : c.Starts s.next)
    (hquiet : Quiet s (c.read s).2) : s.Keeps c.isItem (c.read s).2 ∧ c.Ends s (c.read s).2 :=
  (read_post (fun c s hstarts _ => rule_labelling c s hstarts) c s hstarts trivial
    fun _ => hquiet).2

end Construct

/-! ### Files without faults -/

theorem labelled_final {symbols : List Symbol} (h : faults symbols = []) :
    (State.final symbols).Labelled false := by
  have hquiet : Rule.Quiet (.initial symbols) (Construct.declarations.read (.initial symbols)).2 := by
    have hfinal : (State.final symbols).faults = [] := by simpa [faults] using h
    exact congrArg List.length hfinal
  have hkeeps := (Construct.read_labelling .declarations _ trivial hquiet).1
  exact hkeeps.labelled false (fun hitem => by cases hitem) (State.labelled_of_trees_eq_nil rfl)

/-- **In a file without faults the labels are as they should be.** -/
theorem braced_skeletons {symbols : List Symbol} (h : faults symbols = []) :
    BracedAll false [] (sketchAll (skeletons symbols)) := by
  have hbraced := (labelled_final h).braced
  rw [ahead_final] at hbraced
  rw [skeletons, List.reverse_cons, sketchAll_append]
  simpa [State.sketches, State.trees] using hbraced

/-- In a file without faults no label ends with trivia. -/
theorem tight_skeletons {symbols : List Symbol} (h : faults symbols = []) :
    TightAll (skeletons symbols) := by
  rw [skeletons, List.reverse_cons, tightAll_append]
  exact ⟨(labelled_final h).tight, by simp⟩

end Grammar

end Whittle
