import Whittle.Program
import Whittle.Proofs.Grammar.Progress
import Whittle.Proofs.Tree.Table
import Whittle.Proofs.Tree.Trivia

/-!
# What stands where in a tree

The trees of all texts, also of malformed ones, obey the table of what a node may hold, and no node
below the root begins with trivia.

* `Construct.Yields`: what a construct may be read as.
* `Construct.read_form`: each construct is read as what it may be, and below that the table holds.
* `leaves_parse`: **a tree holds all tokens of its text.**
* `admits_parse`: **the table holds in the tree of every text.**
* `trimmed_parse`: **no node below the root begins with trivia.**
-/

namespace Whittle

open Shape Category

/-! ### Trees of states -/

namespace Grammar

/-- Whether the table holds in some skeletons, and their nodes start where trivia have settled. -/
structure Sound (clear : Bool) (ss : List Skeleton) : Prop where
  formed : AllOf NodeKind.Admits (Skeleton.shapesAll ss)
  settled : Skeleton.SettledAll clear ss

namespace Sound

variable {clear : Bool} {ss rs : List Skeleton}

theorem nil : Sound clear [] := ⟨by simp [Skeleton.shapesAll], by simp⟩

theorem append (hss : Sound clear ss) (hrs : Sound false rs) : Sound clear (ss ++ rs) :=
  ⟨by rw [Skeleton.shapesAll_append, allOf_append]; exact ⟨hss.formed, hrs.formed⟩,
    Skeleton.settledAll_append.2 ⟨hss.settled, hrs.settled.mono⟩⟩

/-- A node starts where trivia have settled. -/
theorem node {k : NodeKind} (hss : Sound true ss) (hk : k.Admits (Skeleton.shapesAll ss)) :
    Sound true [.node k ss] :=
  ⟨by simpa [Skeleton.shapesAll, Skeleton.shapes] using ⟨hk, hss.formed⟩,
    by simpa using hss.settled⟩

/-- After a slot trivia have settled. -/
theorem slot (hss : Sound true ss) : Sound clear (.slot :: ss) :=
  ⟨by simpa [Skeleton.shapesAll, Skeleton.shapes] using hss.formed, by simpa using hss.settled⟩

theorem leaf {x : Symbol} : Sound clear [.leaf x] :=
  ⟨by simp [Skeleton.shapesAll, Skeleton.shapes], by simp⟩

end Sound

namespace State

/-- The trees of the innermost segment from left to right. -/
def trees (s : State) : List Skeleton := s.built.reverse

/-- The shapes of the trees of the innermost segment. -/
def shapes (s : State) : List Shape := Skeleton.shapesAll s.trees

/-- What consuming the next symbol adds. -/
def bumped (s : State) : Skeleton := (s.ahead.head?.map Skeleton.leaf).getD .slot

@[simp] theorem trees_bump (s : State) : (s.act .bump).trees = s.trees ++ [s.bumped] := by
  unfold act trees bumped
  cases s.ahead <;> simp

@[simp] theorem trees_settle (s : State) : (s.act .settle).trees = s.trees ++ [.slot] := by
  simp [act, trees]

@[simp] theorem trees_gather (s : State) (k : NodeKind) :
    (s.act (.gather k)).trees = [.node k s.trees] := by
  simp [act, trees]

@[simp] theorem trees_fault (s : State) (f : Fault) : (s.act (.fault f)).trees = s.trees := rfl

@[simp] theorem trees_declaring (s : State) (n : Option Nat) (b : Bool) :
    (s.declaring n b).trees = s.trees := by
  cases n with
  | none => rfl
  | some n => unfold declaring act trees; cases s.scopes <;> rfl

@[simp] theorem trees_opened (s : State) : s.opened.trees = [] := rfl

@[simp] theorem trees_joined (i o : State) :
    (i.joined o).trees = o.trees ++ .slot :: i.trees := by
  simp [joined, trees, act]

@[simp] theorem trees_entered (s : State) (names : Names) : (s.entered names).trees = s.trees := rfl

@[simp] theorem trees_closed (s : State) : s.closed.trees = s.trees := rfl

theorem shapesAll_bumped (s : State) :
    Skeleton.shapesAll [s.bumped] = (s.next.map Shape.leaf).toList := by
  unfold bumped next view View.kindAt
  cases s.ahead <;> simp [Skeleton.shapesAll, Skeleton.shapes]

theorem sound_bumped (clear : Bool) (s : State) : Sound clear [s.bumped] := by
  unfold bumped
  cases s.ahead with
  | nil => exact Sound.slot .nil
  | cons x rest => exact Sound.leaf

end State

namespace Construct

/-- Whether the operand before a construct becomes a part of what is read. -/
def isTail : Construct → Bool
  | .commaTail | .binaryTail _ | .postfixTail => true
  | _ => false

/-- The categories of the trees that a construct is read as. -/
def gives : Construct → List Category
  | .declarations | .externalDeclaration =>
    [.statement, .part .declGroup, .part .functionDef, .part .error]
  | .declaration .file => [.part .declGroup, .part .functionDef]
  | .declaration _ | .parameterDeclarations => [.part .declGroup]
  | .moreDeclarators _ => [.token, .part .initDeclarator]
  | .functionBody _ => [.part .declGroup, .part .compoundStmt]
  | .specifiers => [.part .specifiers]
  | .specifierList _ _ => [.token, .part .tagSpecifier, .part .typeofSpecifier, .part .attr]
  | .tagSpecifier => [.part .tagSpecifier]
  | .structBody => [.part .structBody]
  | .fields => [.token, .part .fieldGroup, .part .error]
  | .fieldGroup => [.part .fieldGroup]
  | .fieldDeclarators => [.token, .expression, .part .declarator, .part .attr, .part .error]
  | .enumBody => [.part .enumBody]
  | .enumerators => [.token, .part .enumerator]
  | .attributes _ => [.part .attr]
  | .balanced _ | .series _ => [.token]
  | .typeofSpecifier => [.part .typeofSpecifier]
  | .declarator => [.part .declarator]
  | .pointers => [.token, .part .attr]
  | .suffixes _ _ => [.part .arraySuffix, .part .paramList]
  | .arraySuffix => [.part .arraySuffix]
  | .paramList => [.part .paramList]
  | .params => [.token, .part .param, .part .error]
  | .param => [.part .param]
  | .initializer => [.expression, .part .initList, .part .error]
  | .initList => [.part .initList]
  | .initializers => [.token, .expression, .part .designator, .part .initList, .part .error]
  | .designator => [.part .designator]
  | .designatorParts | .condition | .asmOperands => [.token, .expression, .part .error]
  | .typeName => [.part .typeName]
  | .compound => [.part .compoundStmt]
  | .blockItems => [.statement, .part .compoundStmt, .part .declGroup, .part .error]
  | .blockItem | .labelBody => [.statement, .part .compoundStmt, .part .declGroup]
  | .statement => [.statement, .part .compoundStmt]
  | .forStatement | .asmStatement => [.statement]
  | .expression | .assignment | .conditional | .binary _ | .unary | .primary | .commaTail
  | .binaryTail _ | .postfixTail => [.expression, .part .error]
  | .argList => [.part .argList]
  | .args => [.token, .expression, .part .typeName, .part .error]

/-- What a construct may be read as: trees of some categories, for some constructs a single one or
trees in some order. -/
def Yields (c : Construct) (xs : List Shape) : Prop :=
  match c with
  | .specifiers => Single (.part .specifiers) xs
  | .declarator => Single (.part .declarator) xs
  | .compound => Single (.part .compoundStmt) xs
  | .moreDeclarators _ => Further xs
  | .functionBody _ => Body xs
  | c => Within c.gives xs

/-- Whether only the categories of what a construct is read as matter. -/
def isFree : Construct → Bool
  | .specifiers | .declarator | .compound | .moreDeclarators _ | .functionBody _ | .paramList => false
  | _ => true

theorem yields_of_within {c : Construct} (hc : c.isFree = true) {xs : List Shape}
    (h : Within c.gives xs) : c.Yields xs := by
  cases c <;> first | exact h | cases hc

theorem Yields.within {c : Construct} {xs : List Shape} (h : c.Yields xs) : Within c.gives xs := by
  cases c with
  | specifiers | declarator | compound => exact Single.within h
  | moreDeclarators => exact Further.within h
  | functionBody => exact Body.within h
  | _ => exact h

end Construct

namespace State

/-- Whether the trees of the innermost segment are as wanted, with the table holding in them. -/
def Holds (P : List Shape → Prop) (s : State) : Prop := P s.shapes ∧ Sound true s.trees

/-- Whether a state comes of another by trees that are as wanted, with the table holding in
them. -/
def Extends (P : List Shape → Prop) (s s' : State) : Prop :=
  ∃ ss, s'.trees = s.trees ++ ss ∧ P (Skeleton.shapesAll ss) ∧ Sound false ss

theorem holds_declaring {P : List Shape → Prop} {s : State} (n : Option Nat) (b : Bool) :
    (s.declaring n b).Holds P ↔ s.Holds P := by
  simp [Holds, shapes]

theorem shapes_eq_nil {s : State} (h : s.trees = []) : s.shapes = [] := by
  simp [shapes, h, Skeleton.shapesAll]

theorem Extends.of_trees_eq {P : List Shape → Prop} {s s' : State} (hP : P [])
    (h : s'.trees = s.trees) : s.Extends P s' :=
  ⟨[], by simp [h], by simpa [Skeleton.shapesAll] using hP, Sound.nil⟩

theorem Extends.mono {P Q : List Shape → Prop} {s s' : State} (h : s.Extends P s')
    (hPQ : ∀ xs, P xs → Q xs) : s.Extends Q s' := by
  obtain ⟨ss, htrees, hP, hsound⟩ := h
  exact ⟨ss, htrees, hPQ _ hP, hsound⟩

/-- What comes of a segment by more trees. -/
theorem Extends.holds {P Q R : List Shape → Prop} {s s' : State} (h : s.Extends Q s')
    (hs : s.Holds P) (hPQ : ∀ xs ys, P xs → Q ys → R (xs ++ ys)) : s'.Holds R := by
  obtain ⟨ss, htrees, hQ, hsound⟩ := h
  rw [Holds, shapes, htrees, Skeleton.shapesAll_append]
  exact ⟨hPQ _ _ hs.1 hQ, hs.2.append hsound⟩

theorem Extends.trans {P Q R : List Shape → Prop} {s s₁ s₂ : State} (h₁ : s.Extends P s₁)
    (h₂ : s₁.Extends Q s₂) (hPQ : ∀ xs ys, P xs → Q ys → R (xs ++ ys)) : s.Extends R s₂ := by
  obtain ⟨ss, hs₁, hP, hsound⟩ := h₁
  obtain ⟨rs, hs₂, hQ, hsound'⟩ := h₂
  refine ⟨ss ++ rs, by simp [hs₂, hs₁], ?_, hsound.append hsound'⟩
  rw [Skeleton.shapesAll_append]
  exact hPQ _ _ hP hQ

/-- What comes of an empty segment. -/
theorem Extends.holds_of_nil {P : List Shape → Prop} {s s' : State} (h : s.Extends P s')
    (hs : s.trees = []) : s'.Holds P := by
  refine h.holds (P := fun xs => xs = []) ⟨shapes_eq_nil hs, hs ▸ Sound.nil⟩ ?_
  rintro xs ys rfl hys
  exact hys

/-- A segment that ends joins the trees before it. -/
theorem Holds.extends_joined {P : List Shape → Prop} {i o : State} (h : i.Holds P) :
    o.Extends P (i.joined o) := by
  refine ⟨.slot :: i.trees, by simp, ?_, h.2.slot⟩
  simpa [Skeleton.shapesAll, Skeleton.shapes, shapes] using h.1

/-- A segment becomes a node. -/
theorem Holds.gather {P Q : List Shape → Prop} {s : State} {k : NodeKind} (h : s.Holds P)
    (hk : ∀ xs, P xs → k.Admits xs) (hQ : ∀ xs, P xs → Q [.node k xs]) :
    (s.act (.gather k)).Holds Q := by
  rw [Holds, shapes, trees_gather]
  refine ⟨?_, h.2.node (hk _ h.1)⟩
  simpa [Skeleton.shapesAll, Skeleton.shapes, shapes] using hQ _ h.1

end State

/-- What every construct is read as. -/
def form : Contract where
  pre c s := if c.isTail then s.Holds (Within c.gives) else True
  post c s _ s' := if c.isTail then s'.Holds (Within c.gives) else s.Extends c.Yields s'
  strict := false

/-! ### Rules that only add trees -/

namespace Rule

variable {α β : Type} {cats : List Category}

/-- In whatever state it is carried out, a rule adds trees of some categories, with the table
holding in them. -/
def Adds (cats : List Category) (r : Rule α) : Prop :=
  ∀ s, r.wp form s fun _ s' => s.Extends (Within cats) s'

theorem extends_of_trees_eq {s s' : State} (h : s'.trees = s.trees) :
    s.Extends (Within cats) s' :=
  .of_trees_eq within_nil h

theorem adds_pure (a : α) : Adds cats (pure a : Rule α) :=
  fun _ => extends_of_trees_eq rfl

theorem adds_bind {r : Rule α} {f : α → Rule β} (hr : Adds cats r) (hf : ∀ a, Adds cats (f a)) :
    Adds cats (r >>= f) := by
  intro s
  rw [wp_bind]
  refine wp_mono (hr s) fun a s₁ h₁ => ?_
  exact wp_mono (hf a s₁) fun _ s₂ h₂ => h₁.trans h₂ fun _ _ hxs hys =>
    within_append.2 ⟨hxs, hys⟩

theorem adds_seq {r : Rule α} {t : Rule β} (hr : Adds cats r) (ht : Adds cats t) :
    Adds cats (r >>= fun _ => t) :=
  adds_bind hr fun _ => ht

theorem adds_ite {p : Prop} [Decidable p] {r t : Rule α} (hr : Adds cats r)
    (ht : Adds cats t) : Adds cats (if p then r else t) := by
  split
  · exact hr
  · exact ht

theorem adds_view : Adds cats view := fun _ => extends_of_trees_eq rfl

theorem adds_next : Adds cats next := fun _ => extends_of_trees_eq rfl

theorem adds_sees (k : TokenKind) : Adds cats (sees k) :=
  fun _ => extends_of_trees_eq rfl

theorem adds_remaining : Adds cats remaining := fun _ => extends_of_trees_eq rfl

theorem adds_endsAt (k : TokenKind) : Adds cats (endsAt k) :=
  fun _ => extends_of_trees_eq rfl

theorem extends_bump {P : List Shape → Prop} {s : State}
    (h : P (s.next.map Shape.leaf).toList) : s.Extends P (s.act .bump) :=
  ⟨[s.bumped], s.trees_bump, s.shapesAll_bumped ▸ h, s.sound_bumped false⟩

theorem adds_bump (h : among [.token] cats = true) : Adds cats bump := by
  intro s
  have htoken : .token ∈ cats := among_iff.1 h (List.mem_singleton_self _)
  refine wp_bump.2 (extends_bump ?_)
  cases s.next <;> simp [Shape.category, htoken]

theorem adds_fault (f : Fault) : Adds cats (fault f) :=
  fun _ => wp_fault.2 (.inr (extends_of_trees_eq rfl))

theorem adds_declare (n : Option Nat) (b : Bool) : Adds cats (declare n b) :=
  fun s => wp_declare.2 (extends_of_trees_eq (s.trees_declaring n b))

/-- What a segment holds when it ends is added. -/
theorem extends_apart {P : List Shape → Prop} {r : Rule α} {s : State}
    (h : r.wp form s.opened fun _ s' => s'.Holds P) :
    (apart r).wp form s fun _ s' => s.Extends P s' :=
  wp_apart.2 (wp_mono h fun _ _ h' => h'.extends_joined)

theorem adds_apart {r : Rule α}
    (h : ∀ s, s.trees = [] → r.wp form s fun _ s' => s'.Holds (Within cats)) :
    Adds cats (apart r) :=
  fun s => extends_apart (h s.opened s.trees_opened)

theorem holds_of_adds {s : State} {r : Rule α} (h : Adds cats r) (hs : s.trees = []) :
    r.wp form s fun _ s' => s'.Holds (Within cats) :=
  wp_mono (h s) fun _ _ h' => h'.holds_of_nil hs

/-- A rule whose trees become a node. -/
theorem extends_node {P : List Shape → Prop} {r : Rule α} {k : NodeKind} {s : State}
    (h : r.wp form s.opened fun _ s' => s'.Holds k.Admits) (hP : ∀ xs, P [.node k xs]) :
    (node k r).wp form s fun _ s' => s.Extends P s' := by
  rw [wp_node]
  refine wp_mono h fun _ s' h' => ?_
  exact (h'.gather (fun _ h => h) fun xs _ => hP xs).extends_joined

theorem holds_admits {r : Rule α} {k : NodeKind} {s : State} (hr : Adds k.holds r)
    (hplain : k.isPlain = true) (hs : s.trees = []) :
    r.wp form s fun _ s' => s'.Holds k.Admits :=
  wp_mono (holds_of_adds hr hs) fun _ _ h => ⟨NodeKind.admits_of_within hplain h.1, h.2⟩

theorem adds_plain {r : Rule α} {k : NodeKind} (h : (k.isPlain && among [k.category] cats) = true)
    (hr : Adds k.holds r) : Adds cats (node k r) := by
  intro s
  obtain ⟨hplain, hk⟩ := Bool.and_eq_true_iff.1 h
  refine extends_node (holds_admits hr hplain s.trees_opened) fun _ => ?_
  exact within_cons.2 ⟨among_iff.1 hk (List.mem_singleton_self _), within_nil⟩

theorem adds_leafNode {k : NodeKind}
    (h : (k.isPlain && among [k.category] cats && among [.token] k.holds) = true) :
    Adds cats (leafNode k) :=
  adds_plain (Bool.and_eq_true_iff.1 h).1 (adds_bump (Bool.and_eq_true_iff.1 h).2)

theorem form_post {c : Construct} (hc : c.isTail = false) {s s' : State} {r : c.Result}
    (h : form.post c s r s') : s.Extends c.Yields s' := by
  simpa only [form, hc, Bool.false_eq_true, if_false] using h

theorem form_pre {c : Construct} (hc : c.isTail = false) {s : State} : form.pre c s := by
  simp only [form, hc, Bool.false_eq_true, if_false]

theorem extends_read {c : Construct} (hc : c.isTail = false) (s : State) :
    (read c).wp form s fun _ s' => s.Extends c.Yields s' :=
  wp_read.2 ⟨form_pre hc, fun _ _ => form_post hc⟩

theorem adds_read {c : Construct} (h : (!c.isTail && among c.gives cats) = true) :
    Adds cats (read c) := by
  intro s
  simp only [Bool.and_eq_true, Bool.not_eq_true', among_iff] at h
  exact wp_mono (extends_read h.1 s) fun _ _ h' => h'.mono fun _ hxs => hxs.within.mono h.2

theorem adds_inScope {names : Names} {r : Rule Unit} (hr : Adds cats r) :
    Adds cats (inScope names r) :=
  fun s => wp_inScope.2 (hr (s.entered names))

theorem adds_accept {k : TokenKind} (h : among [.token] cats = true) : Adds cats (accept k) :=
  adds_bind (adds_sees k) fun _ => adds_ite (adds_seq (adds_bump h) (adds_pure _)) (adds_pure _)

theorem adds_ifSees {k : TokenKind} {r : Rule Unit} (hr : Adds cats r) : Adds cats (ifSees k r) :=
  adds_bind (adds_sees k) fun _ => adds_ite hr (adds_pure _)

theorem adds_unlessSees {k : TokenKind} {r : Rule Unit} (hr : Adds cats r) :
    Adds cats (unlessSees k r) :=
  adds_bind (adds_sees k) fun _ => adds_ite (adds_pure _) hr

theorem adds_ifAccepts {k : TokenKind} {r : Rule Unit} (h : among [.token] cats = true)
    (hr : Adds cats r) : Adds cats (ifAccepts k r) :=
  adds_bind (adds_accept h) fun _ => adds_ite hr (adds_pure _)

theorem adds_optional {k : TokenKind} (h : among [.token] cats = true) : Adds cats (optional k) :=
  adds_bind (adds_sees k) fun _ => adds_ite (adds_bump h) (adds_pure _)

theorem adds_require {k : TokenKind} {f : Fault} (h : among [.token] cats = true) :
    Adds cats (require k f) :=
  adds_bind (adds_sees k) fun _ => adds_ite (adds_bump h) (adds_fault f)

theorem adds_requireThen {k : TokenKind} {f : Fault} {r : Rule Unit}
    (h : among [.token] cats = true) (hr : Adds cats r) : Adds cats (requireThen k f r) :=
  adds_bind (adds_accept h) fun _ => adds_ite hr (adds_fault f)

theorem adds_reject {f : Fault} (h : among [.part .error] cats = true) : Adds cats (reject f) :=
  adds_seq (adds_fault f) (adds_plain h (adds_bump rfl))

theorem adds_orReject {r : Rule Unit} {f : Fault} (h : among [.part .error] cats = true)
    (hr : Adds cats r) : Adds cats (orReject r f) :=
  adds_bind adds_remaining fun _ => adds_seq hr <|
    adds_bind adds_remaining fun _ => adds_ite (adds_reject h) (adds_pure _)

/-! ### Rules that work on a whole segment -/

/-- If the innermost segment holds trees of some categories before a rule, then it holds trees of
other categories after it. -/
def Leaves (A B : List Category) (r : Rule α) : Prop :=
  ∀ s, s.Holds (Within A) → r.wp form s fun _ s' => s'.Holds (Within B)

variable {A B C : List Category}

theorem leaves_of_adds {r : Rule α} (hr : Adds cats r) (hA : A ⊆ B) (hB : cats ⊆ B) :
    Leaves A B r := by
  intro s hs
  refine wp_mono (hr s) fun _ s' h' => h'.holds hs fun xs ys hxs hys => ?_
  exact within_append.2 ⟨hxs.mono hA, hys.mono hB⟩

theorem leaves_bind {r : Rule α} {f : α → Rule β} (hr : Leaves A B r)
    (hf : ∀ a, Leaves B C (f a)) : Leaves A C (r >>= f) := by
  intro s hs
  rw [wp_bind]
  exact wp_mono (hr s hs) fun a s₁ h₁ => hf a s₁ h₁

theorem leaves_pure (a : α) : Leaves A A (pure a : Rule α) := fun _ hs => hs

theorem leaves_ite {p : Prop} [Decidable p] {r t : Rule α} (hr : Leaves A B r)
    (ht : Leaves A B t) : Leaves A B (if p then r else t) := by
  split
  · exact hr
  · exact ht

theorem leaves_bump : Leaves A (.token :: A) bump := by
  refine leaves_of_adds (adds_bump ?_) (List.subset_cons_self _ _) (fun _ h => h)
  exact among_iff.2 (by simp)

theorem leaves_gather {k : NodeKind}
    (h : (k.isPlain && among A k.holds && among [k.category] B) = true) :
    Leaves A B (gather k) := by
  intro s hs
  simp only [Bool.and_eq_true, among_iff] at h
  obtain ⟨⟨hplain, hA⟩, hB⟩ := h
  refine wp_gather.2 (hs.gather (fun xs hxs => ?_) fun xs _ => ?_)
  · exact NodeKind.admits_of_within hplain (hxs.mono hA)
  · exact within_cons.2 ⟨hB (List.mem_singleton_self _), within_nil⟩

theorem leaves_ifAccepts {k : TokenKind} {r : Rule Unit} (hr : Leaves (.token :: A) A r) :
    Leaves A A (ifAccepts k r) := by
  intro s hs
  refine wp_ifAccepts.2 ⟨fun _ => ?_, fun _ => hs⟩
  exact hr (s.act .bump) (wp_bump.1 (leaves_bump s hs))

/-! ### The rules -/

theorem adds_oneAttribute (h : among [.part .attr] cats = true) : Adds cats oneAttribute :=
  adds_plain h <| adds_seq (adds_bump rfl) <| adds_ifSees (adds_read rfl)

theorem adds_conditionStatement {k : NodeKind}
    (hk : k = .ifStmt ∨ k = .whileStmt ∨ k = .switchStmt) :
    Adds Construct.statement.gives (conditionStatement k) := by
  rcases hk with rfl | rfl | rfl
  all_goals
    exact adds_plain rfl <| adds_seq (adds_bump rfl) <| adds_seq (adds_read rfl) <|
      adds_seq (adds_read rfl) <| adds_ite (adds_ifAccepts rfl (adds_read rfl)) (adds_pure _)

theorem adds_forClauses : Adds NodeKind.forStmt.holds forClauses :=
  adds_seq (adds_bind adds_view fun _ =>
  adds_ite (adds_read rfl) (adds_unlessSees (adds_read rfl))) <|
    adds_seq (adds_require rfl) <| adds_seq (adds_unlessSees (adds_read rfl)) <|
    adds_seq (adds_require rfl) <|
    adds_seq (adds_unlessSees (adds_read rfl)) (adds_require rfl)

/-! Nodes whose parts have an order. -/

theorem initPart_form {s : State} (name : Option Nat) (isTypedef : Bool)
    (hs : s.Holds (Single (.part .declarator))) :
    (initPart name isTypedef).wp form s fun _ s' => s'.Holds (Single (.part .initDeclarator)) := by
  have value : Adds [.token, .expression, .part .initList, .part .error]
      (ifAccepts .assign (read .initializer)) := adds_ifAccepts rfl (adds_read rfl)
  simp only [initPart, wp_bind, wp_declare, wp_gather]
  refine wp_mono (value (s.declaring name isTypedef)) fun _ s' h' => ?_
  have hs' : s'.Holds NodeKind.initDeclarator.Admits := by
    refine h'.holds ((State.holds_declaring name isTypedef).2 hs) ?_
    rintro xs ys ⟨x, rfl, hx⟩ hys
    exact ⟨x, ys, rfl, hx, hys⟩
  exact hs'.gather (fun _ h => h) fun xs _ => ⟨_, rfl, rfl⟩

theorem member_form (isTypedef : Bool) (s : State) :
    (apart do let d ← read .declarator; initPart d.name isTypedef).wp form s fun _ s' =>
      s.Extends (Single (.part .initDeclarator)) s' := by
  refine extends_apart (wp_bind.2 ?_)
  refine wp_mono (extends_read (c := .declarator) rfl s.opened) fun d s₁ h₁ => ?_
  exact initPart_form d.name isTypedef (h₁.holds_of_nil s.trees_opened)

theorem moreDeclarators_form (isTypedef : Bool) (s : State) :
    (moreDeclarators isTypedef).wp form s fun _ s' => s.Extends Further s' := by
  refine wp_ifAccepts.2 ⟨fun hcomma => wp_bind.2 ?_, fun _ => .of_trees_eq .nil rfl⟩
  have h₀ : s.Extends (fun xs => xs = [.leaf .comma]) (s.act .bump) :=
    extends_bump (by simp [hcomma])
  refine wp_mono (member_form isTypedef (s.act .bump)) fun _ s₁ h₁ => ?_
  refine wp_mono (extends_read (c := .moreDeclarators isTypedef) rfl s₁) fun _ s₂ h₂ => ?_
  have h₁₂ : (s.act .bump).Extends (fun zs => Further (.leaf .comma :: zs)) s₂ := by
    refine h₁.trans h₂ ?_
    rintro xs ys ⟨x, rfl, hx⟩ hys
    exact .cons hx hys
  refine h₀.trans h₁₂ ?_
  rintro xs ys rfl hys
  exact hys

theorem firstDeclarator_form (place : Place) (isTypedef : Bool) (s : State) :
    (firstDeclarator place isTypedef).wp form s fun d s' =>
      (d.isSome = true → place = .file) ∧
        s.Extends (Single (if d.isSome then .part .declarator else .part .initDeclarator)) s' := by
  simp only [firstDeclarator, wp_apart, wp_bind]
  refine wp_mono (extends_read (c := .declarator) rfl s.opened) fun d s₁ h₁ => ?_
  replace h₁ : s₁.Holds (Single (.part .declarator)) := h₁.holds_of_nil s.trees_opened
  simp only [wp_view, wp_ite, wp_bind, wp_pure]
  refine ⟨fun hdef => ⟨fun _ => by simp_all, h₁.extends_joined⟩, fun _ => ?_⟩
  refine wp_mono (initPart_form _ isTypedef h₁) fun _ s₂ h₂ => ⟨by simp, h₂.extends_joined⟩

/-- The semicolon after a group, if there is one. -/
theorem declarationEnd_form {place : Place} {r : Rule Unit} (s : State)
    (hr : r = bump ∧ s.next = some .semicolon ∨ r = require .semicolon .declarationEnd) :
    (unlessInHead place r).wp form s fun _ s' =>
      s.Extends (fun xs => xs = [] ∨ xs = [.leaf .semicolon]) s' := by
  have nothing {s' : State} (h : s'.trees = s.trees) :
      s.Extends (fun xs => xs = [] ∨ xs = [.leaf .semicolon]) s' := .of_trees_eq (.inl rfl) h
  have semicolon (h : s.next = some .semicolon) :
      s.Extends (fun xs => xs = [] ∨ xs = [.leaf .semicolon]) (s.act .bump) :=
    extends_bump (.inr (by simp [h]))
  refine wp_ite.2 ⟨fun _ => nothing rfl, fun _ => ?_⟩
  obtain ⟨rfl, h⟩ | rfl := hr
  · exact semicolon h
  · exact wp_require.2 ⟨semicolon, fun _ => .inr (nothing rfl)⟩

/-- A group is its specifiers, its members and perhaps a semicolon. -/
theorem declGroup_form {place : Place} {r : Rule Unit} {s : State}
    (hs : s.Holds fun xs => ∃ x members, xs = x :: members ∧ x.category = .part .specifiers ∧
      Members members)
    (hr : r = bump ∧ s.next = some .semicolon ∨ r = require .semicolon .declarationEnd) :
    (do unlessInHead place r; gather .declGroup).wp form s fun _ s' =>
      s'.Holds (Single (.part .declGroup)) := by
  rw [wp_bind]
  refine wp_mono (declarationEnd_form s hr) fun _ s₁ h₁ => ?_
  have hs₁ : s₁.Holds NodeKind.declGroup.Admits := by
    refine h₁.holds hs ?_
    rintro xs stop ⟨x, members, rfl, hx, hmembers⟩ hstop
    exact ⟨x, members, stop, rfl, hx, hmembers, hstop⟩
  exact hs₁.gather (fun _ h => h) fun xs _ => ⟨_, rfl, rfl⟩

theorem declaration_form (place : Place) (s : State) :
    (declaration place).wp form s fun _ s' =>
    s.Extends (Construct.declaration place).Yields s' := by
  refine extends_apart (wp_bind.2 ?_)
  refine wp_mono (extends_read (c := .specifiers) rfl s.opened) fun isTypedef s₁ h₁ => ?_
  replace h₁ : s₁.Holds (Single (.part .specifiers)) := h₁.holds_of_nil s.trees_opened
  have group {s' : State} (h : s'.Holds (Single (.part .declGroup))) :
      s'.Holds (Construct.declaration place).Yields :=
    ⟨h.1.within.mono (by cases place <;> simp [Construct.gives]), h.2⟩
  rw [wp_bind, wp_sees, wp_ite]
  refine ⟨fun hstop => ?_, fun _ => wp_bind.2 ?_⟩
  · -- no members
    refine wp_mono (declGroup_form ?_ (.inl ⟨rfl, of_decide_eq_true hstop⟩)) fun _ _ => group
    obtain ⟨⟨x, hx, hcat⟩, hsound⟩ := h₁
    exact ⟨⟨x, [], hx, hcat, .nil⟩, hsound⟩
  refine wp_mono (firstDeclarator_form place isTypedef s₁) fun d s₂ ⟨hfile, h₂⟩ => ?_
  cases d with
  | none =>
    refine wp_bind.2 (wp_mono (extends_read (c := .moreDeclarators isTypedef) rfl s₂) fun _ s₃ h₃
      => ?_)
    refine wp_mono (declGroup_form ?_ (.inr rfl)) fun _ _ => group
    refine (h₂.trans h₃ (R := Members) ?_).holds h₁ ?_
    · rintro xs ys ⟨x, rfl, hx⟩ hys
      exact .cons hx hys
    · rintro xs ys ⟨x, rfl, hx⟩ hys
      exact ⟨x, ys, rfl, hx, hys⟩
  | some d =>
    obtain rfl := hfile rfl
    simp only [wp_bind, wp_declare, wp_gather]
    refine wp_mono (extends_read (c := .functionBody _) rfl _) fun _ s₃ h₃ => ?_
    have hs₂ : s₂.Holds fun xs => ∃ x d, xs = [x, d] ∧ x.category = .part .specifiers ∧
        d.category = .part .declarator := by
      refine h₂.holds h₁ ?_
      rintro xs ys ⟨x, rfl, hx⟩ ⟨d, rfl, hd⟩
      exact ⟨x, d, rfl, hx, hd⟩
    have hs₃ : s₃.Holds NodeKind.functionDef.Admits := by
      refine h₃.holds ((State.holds_declaring d.name false).2 hs₂) ?_
      rintro xs body ⟨x, d, rfl, hx, hd⟩ hbody
      exact ⟨x, d, body, rfl, hx, hd, hbody⟩
    exact hs₃.gather (fun _ h => h) fun xs _ =>
      by simp [Construct.Yields, Shape.category, NodeKind.category, Construct.gives]

theorem functionBody_form (params : Names) (s : State) :
    (functionBody params).wp form s fun _ s' => s.Extends Body s' := by
  simp only [functionBody, wp_bind, wp_inScope, wp_pure]
  refine wp_mono (extends_read (c := .parameterDeclarations) rfl _) fun _ s₁ h₁ => ?_
  have body {s₂ : State}
      (h₂ : s₁.Extends (fun xs => xs = [] ∨ Single (.part .compoundStmt) xs) s₂) :
      s.Extends Body s₂.closed :=
    h₁.trans h₂ fun groups body hgroups hbody => ⟨groups, body, rfl, hgroups, hbody⟩
  refine wp_sees.2 (wp_ite.2 ⟨fun _ => ?_, fun _ => wp_fault.2 (.inr ?_)⟩)
  · exact wp_mono (extends_read (c := .compound) rfl s₁) fun _ _ h₂ => body (h₂.mono fun _ => .inr)
  · exact body (.of_trees_eq (.inl rfl) rfl)

/-- What stands in the middle of a declarator. -/
def Core (xs : List Shape) : Prop :=
  xs.length ≤ 1 ∧ Within [.part .name, .part .nestedDeclarator] xs

theorem core_node {k : NodeKind} (hk : k = .name ∨ k = .nestedDeclarator) (xs : List Shape) :
    Core [.node k xs] := by
  rcases hk with rfl | rfl <;> simp [Core, Shape.category, NodeKind.category]

theorem nestedDeclarator_form (s : State) :
    (node .nestedDeclarator do
      bump
      read (.attributes false)
      let d ← read .declarator
      require .closeParen .declaratorClose
      return d).wp form s fun _ s' => s.Extends Core s' := by
  refine extends_node (wp_bind.2 ?_) (core_node (.inr rfl))
  have opening : Adds [.token, .part .attr] bump := adds_bump rfl
  have closing : Adds [.token] (require .closeParen .declaratorClose) := adds_require rfl
  refine wp_mono (opening s.opened) fun _ s₁ h₁ => wp_bind.2 ?_
  refine wp_mono (extends_read (c := .attributes false) rfl s₁) fun _ s₂ h₂ => wp_bind.2 ?_
  refine wp_mono (extends_read (c := .declarator) rfl s₂) fun _ s₃ h₃ => wp_bind.2 ?_
  refine wp_mono (closing s₃) fun _ s₄ h₄ => ?_
  have hs₂ : s₂.Holds (Within [.token, .part .attr]) := by
    refine h₂.holds (h₁.holds_of_nil s.trees_opened) fun xs ys hxs hys => ?_
    exact within_append.2 ⟨hxs, hys.within.mono (by simp [Construct.gives])⟩
  have h₃₄ : s₂.Extends (fun zs => ∃ x after, zs = x :: after ∧
      x.category = .part .declarator ∧ Within [.token] after) s₄ := by
    refine h₃.trans h₄ ?_
    rintro xs after ⟨x, rfl, hx⟩ hafter
    exact ⟨x, after, rfl, hx, hafter⟩
  refine h₃₄.holds hs₂ ?_
  rintro before zs hbefore ⟨x, after, rfl, hx, hafter⟩
  exact ⟨before, x, after, rfl, hbefore, hx, hafter⟩

theorem declaratorCore_form (s : State) :
    declaratorCore.wp form s fun _ s' => s.Extends Core s' := by
  have nothing : s.Extends Core s := .of_trees_eq ⟨by simp, within_nil⟩ rfl
  have name : Adds NodeKind.name.holds bump := adds_bump rfl
  rw [declaratorCore, wp_bind, wp_view]
  split
  · refine wp_bind.2 (extends_node ?_ (core_node (.inl rfl)))
    exact holds_admits name rfl s.trees_opened
  · rw [wp_ite]
    exact ⟨fun _ => nestedDeclarator_form s, fun _ => nothing⟩
  · exact nothing

theorem declarator_form (s : State) :
    declarator.wp form s fun _ s' => s.Extends (Single (.part .declarator)) s' := by
  refine extends_node (wp_bind.2 ?_) fun xs => ⟨_, rfl, rfl⟩
  refine wp_mono (extends_read (c := .pointers) rfl s.opened) fun _ s₁ h₁ => wp_bind.2 ?_
  refine wp_mono (declaratorCore_form s₁) fun core s₂ h₂ => wp_bind.2 ?_
  refine wp_mono (extends_read (c := .suffixes _ _) rfl s₂) fun params s₃ h₃ => wp_bind.2 ?_
  refine wp_mono (extends_read (c := .attributes _) rfl s₃) fun _ s₄ h₄ => ?_
  have hs₂ : s₂.Holds fun xs => ∃ before core, xs = before ++ core ∧
      Within [.token, .part .attr] before ∧ Core core :=
    h₂.holds (h₁.holds_of_nil s.trees_opened) fun before core hbefore hcore =>
      ⟨before, core, rfl, hbefore, hcore⟩
  refine (h₃.trans h₄ (R := Within [.part .arraySuffix, .part .paramList, .part .attr])
    fun xs ys hxs hys => ?_).holds hs₂ ?_
  · exact within_append.2 ⟨hxs.within.mono (by simp [Construct.gives]),
      hys.within.mono (by simp [Construct.gives])⟩
  · rintro _ after ⟨before, core, rfl, hbefore, hcore⟩ hafter
    exact ⟨before, core, after, rfl, hbefore, hcore.1, hcore.2, hafter⟩

/-! Operators, which take the operand before them into their node. -/

/-- The categories of expressions. -/
abbrev expressions : List Category := [.expression, .part .error]

theorem leaves_read {c : Construct} (h : (!c.isTail && among c.gives A) = true) :
    Leaves A A (read c) :=
  leaves_of_adds (adds_read h) (fun _ h => h) (fun _ h => h)

theorem leaves_operand {c : Construct} (h : (!c.isTail && among c.gives expressions) = true) :
    Leaves [] expressions (read c) :=
  leaves_of_adds (adds_read h) (by simp) (fun _ h => h)

theorem leaves_tail {c : Construct} (hc : c.isTail = true) (h : c.gives = expressions) :
    Leaves expressions expressions (read c) := by
  intro s hs
  rw [wp_read]
  simp only [form, hc, h, if_true]
  exact ⟨hs, fun _ _ h' => h'⟩

theorem leaves_require {k : TokenKind} {f : Fault} :
    Leaves (.token :: A) (.token :: A) (require k f) :=
  leaves_of_adds (adds_require (among_iff.2 (by simp))) (fun _ h => h) (fun _ h => h)

theorem adds_segment {r : Rule α} (h : Leaves [] cats r) : Adds cats (apart r) :=
  adds_apart fun s hs => h s ⟨by simp [State.shapes_eq_nil hs], hs ▸ Sound.nil⟩

theorem adds_expression : Adds expressions expression :=
  adds_segment <| leaves_bind (leaves_operand rfl) fun _ => leaves_tail rfl rfl

theorem adds_assignment : Adds expressions assignment := by
  refine adds_segment <| leaves_bind (leaves_operand rfl) fun _ =>
    leaves_bind (B := expressions) ?_ ?_
  · exact leaves_of_adds adds_next (fun _ h => h) (fun _ h => h)
  intro k
  split
  · exact leaves_bind leaves_bump fun _ => leaves_bind (leaves_read rfl) fun _ => leaves_gather rfl
  · exact leaves_bind leaves_bump fun _ => leaves_bind (leaves_read rfl) fun _ => leaves_gather rfl
  · exact leaves_pure _

theorem adds_conditional : Adds expressions conditional := by
  refine adds_segment <| leaves_bind (leaves_operand rfl) fun _ => leaves_ifAccepts ?_
  refine leaves_bind (B := .token :: expressions) ?_ fun _ => ?_
  · exact leaves_of_adds (adds_unlessSees (adds_read rfl)) (fun _ h => h) (fun _ h => h)
  · exact leaves_bind leaves_require fun _ => leaves_bind (leaves_read rfl) fun _ =>
      leaves_gather rfl

theorem adds_binary (level : Nat) : Adds expressions (binary level) :=
  adds_segment <| leaves_bind (leaves_operand rfl) fun _ => leaves_tail rfl rfl

theorem leaves_commaTail : Leaves expressions expressions commaTail :=
  leaves_ifAccepts <| leaves_bind (leaves_read rfl) fun _ =>
    leaves_bind (leaves_gather rfl) fun _ => leaves_tail rfl rfl

theorem leaves_binaryTail (level : Nat) : Leaves expressions expressions (binaryTail level) := by
  refine leaves_bind (B := expressions) ?_ fun v => leaves_ite (leaves_pure _) ?_
  · exact leaves_of_adds adds_view (fun _ h => h) (fun _ h => h)
  · exact leaves_bind leaves_bump fun _ => leaves_bind (leaves_read rfl) fun _ =>
      leaves_bind (leaves_gather rfl) fun _ => leaves_tail rfl rfl

theorem leaves_postfixTail : Leaves expressions expressions postfixTail := by
  refine leaves_bind (B := expressions) ?_ fun k => ?_
  · exact leaves_of_adds adds_next (fun _ h => h) (fun _ h => h)
  have field : Leaves expressions expressions (do
      bump; require .identifier .fieldName; gather .fieldExpr; read .postfixTail) :=
    leaves_bind leaves_bump fun _ => leaves_bind leaves_require fun _ =>
      leaves_bind (leaves_gather rfl) fun _ => leaves_tail rfl rfl
  have step : Leaves expressions expressions (do
      bump; gather .postfixExpr; read .postfixTail) :=
    leaves_bind leaves_bump fun _ => leaves_bind (leaves_gather rfl) fun _ => leaves_tail rfl rfl
  split
  · refine leaves_bind (B := .part .argList :: expressions) ?_ fun _ =>
      leaves_bind (leaves_gather rfl) fun _ => leaves_tail rfl rfl
    have args : Adds [.part .argList] (read .argList) := adds_read rfl
    exact leaves_of_adds args (by simp) (by simp)
  · exact leaves_bind leaves_bump fun _ => leaves_bind (leaves_read rfl) fun _ =>
      leaves_bind leaves_require fun _ => leaves_bind (leaves_gather rfl) fun _ =>
      leaves_tail rfl rfl
  · exact field
  · exact field
  · exact step
  · exact step
  · exact leaves_pure _

theorem adds_typed : Adds expressions typed := by
  refine adds_segment <| leaves_bind (B := [.token, .part .typeName]) ?_ fun _ =>
    leaves_bind (leaves_read rfl) fun _ => leaves_bind leaves_require fun _ => ?_
  · exact leaves_of_adds (adds_bump rfl) (by simp) (fun _ h => h)
  refine leaves_bind (B := [.token, .part .typeName]) ?_ fun _ => leaves_ite ?_ ?_
  · exact leaves_of_adds (adds_sees _) (fun _ h => h) (fun _ h => h)
  · refine leaves_bind (B := [.token, .part .typeName, .part .initList]) ?_ fun _ =>
      leaves_bind (leaves_gather rfl) fun _ => leaves_tail rfl rfl
    exact leaves_of_adds (adds_read rfl) (by simp) (fun _ h => h)
  · refine leaves_bind (B := .token :: .part .typeName :: expressions) ?_ fun _ => leaves_gather rfl
    exact leaves_of_adds (adds_read rfl) (by simp) (fun _ h => h)

theorem adds_postfixed : Adds expressions postfixed :=
  adds_segment <| leaves_bind (leaves_operand rfl) fun _ => leaves_tail rfl rfl

theorem adds_unary : Adds expressions unary := by
  have prefixed : Adds expressions prefixed := adds_plain rfl <|
    adds_seq (adds_bump rfl) (adds_read rfl)
  refine adds_bind adds_view fun v => ?_
  split
  · exact prefixed
  · exact prefixed
  · exact prefixed
  · exact prefixed
  · exact prefixed
  · exact prefixed
  · exact prefixed
  · exact prefixed
  · exact adds_ite (adds_plain rfl <| adds_seq (adds_bump rfl) (adds_require rfl)) adds_postfixed
  · exact adds_ite prefixed adds_postfixed
  · refine adds_plain rfl <| adds_seq (adds_bump rfl) <| adds_bind adds_view fun _ =>
      adds_ite ?_ (adds_read rfl)
    exact adds_seq (adds_bump rfl) <| adds_seq (adds_read rfl) <| adds_seq (adds_require rfl) <|
      adds_ifSees (adds_read rfl)
  · exact adds_ite adds_typed adds_postfixed
  · exact adds_postfixed

theorem adds_primary : Adds expressions primary := by
  refine adds_bind adds_view fun v => ?_
  split
  · exact adds_leafNode rfl
  · exact adds_leafNode rfl
  · exact adds_leafNode rfl
  · exact adds_plain rfl (adds_read rfl)
  · exact adds_ite (adds_plain rfl <| adds_seq (adds_bump rfl) <|
      adds_seq (adds_read rfl) (adds_require rfl))
      (adds_plain rfl <| adds_seq (adds_bump rfl) <| adds_seq (adds_read rfl) (adds_require rfl))
  · exact adds_fault _
  · exact adds_fault _
  · exact adds_fault _
  · exact adds_fault _
  · exact adds_fault _
  · exact adds_fault _
  · exact adds_reject rfl

/-- A parameter list is read where its parenthesis stands, and so starts with it. -/
theorem paramList_form (s : State) (hopen : s.next = some .openParen) :
    paramList.wp form s fun _ s' => s.Extends (Within [.part .paramList]) s' := by
  refine extends_node (wp_bind.2 (wp_bump.2 ?_)) fun _ => by simp [Shape.category, NodeKind.category]
  have hparen : s.opened.Extends (fun xs => xs = [.leaf .openParen]) (s.opened.act .bump) :=
    extends_bump (by simp [hopen])
  have hrest : Adds [.token, .part .param, .part .error] (do
      let names ← inScope [] (read .params); require .closeParen .parametersClose; return names) :=
    adds_bind (adds_inScope (adds_read rfl)) fun _ => adds_seq (adds_require rfl) (adds_pure _)
  refine wp_mono (hrest (s.opened.act .bump)) fun _ s₁ h₁ => ?_
  refine (hparen.trans h₁ ?_).holds_of_nil s.trees_opened
  rintro xs ys rfl hys
  exact ⟨ys, rfl, hys⟩

/-- Each rule adds trees of the categories of its construct. -/
theorem adds_rule {c : Construct} (hc : c.isTail = false) (hfree : c.isFree = true) :
    Adds c.gives c.rule := by
  cases c with
  | declarations =>
    exact adds_bind adds_view fun _ => adds_ite (adds_pure _) <|
      adds_seq (adds_orReject rfl (adds_read rfl)) (adds_read rfl)
  | externalDeclaration =>
    refine adds_bind adds_view fun v => ?_
    split
    · exact adds_leafNode rfl
    · exact adds_read rfl
    · exact adds_read rfl
    · exact adds_read rfl
    · exact adds_read rfl
    · exact adds_ite (adds_read rfl) (adds_reject rfl)
  | parameterDeclarations =>
    exact adds_bind adds_view fun _ => adds_ite (adds_bind adds_remaining fun _ =>
      adds_seq (adds_read rfl) <|
      adds_bind adds_remaining fun _ => adds_ite (adds_read rfl) (adds_pure _)) (adds_pure _)
  | specifierList isTypedef hasType =>
    refine adds_bind adds_view fun v => ?_
    split
    · exact adds_seq (adds_bump rfl) (adds_read rfl)
    · exact adds_seq (adds_bump rfl) (adds_read rfl)
    · exact adds_seq (adds_bump rfl) (adds_read rfl)
    · exact adds_seq (adds_bump rfl) (adds_read rfl)
    · exact adds_seq (adds_read rfl) (adds_read rfl)
    · exact adds_seq (adds_read rfl) (adds_read rfl)
    · exact adds_seq (adds_read rfl) (adds_read rfl)
    · exact adds_seq (adds_read rfl) (adds_read rfl)
    · exact adds_seq (adds_oneAttribute rfl) (adds_read rfl)
    · exact adds_ite (adds_seq (adds_bump rfl) (adds_read rfl)) (adds_pure _)
    · exact adds_pure _
  | tagSpecifier =>
    exact adds_plain rfl <| adds_bind (adds_sees _) fun _ => adds_seq (adds_bump rfl) <|
      adds_seq (adds_read rfl) <| adds_seq (adds_optional rfl) <|
      adds_seq (adds_ifSees (adds_ite (adds_read rfl) (adds_read rfl))) (adds_read rfl)
  | structBody =>
    exact adds_plain rfl <| adds_seq (adds_bump rfl) <| adds_seq (adds_read rfl) (adds_require rfl)
  | fields =>
    exact adds_bind (adds_endsAt _) fun _ => adds_ite (adds_pure _) <|
      adds_seq (adds_orReject rfl <| adds_bind (adds_accept rfl) fun _ =>
        adds_ite (adds_pure _) (adds_read rfl)) (adds_read rfl)
  | fieldGroup =>
    exact adds_plain rfl <| adds_bind (adds_read rfl) fun _ =>
      adds_seq (adds_unlessSees (adds_read rfl)) (adds_require rfl)
  | fieldDeclarators =>
    exact adds_seq (adds_unlessSees <| adds_bind (adds_read rfl) fun _ => adds_pure _) <|
      adds_seq (adds_ifAccepts rfl (adds_read rfl)) <| adds_seq (adds_read rfl) <|
      adds_ifAccepts rfl (adds_read rfl)
  | enumBody =>
    exact adds_plain rfl <| adds_seq (adds_bump rfl) <| adds_seq (adds_read rfl) (adds_require rfl)
  | enumerators =>
    exact adds_bind (adds_sees _) fun _ => adds_ite (adds_bind adds_view fun _ =>
      adds_seq (adds_plain rfl <| adds_seq (adds_leafNode rfl) <| adds_seq (adds_read rfl) <|
        adds_ifAccepts rfl (adds_read rfl)) <|
      adds_seq (adds_declare _ _) <| adds_ifAccepts rfl (adds_read rfl)) (adds_pure _)
  | attributes labels =>
    exact adds_bind adds_next fun _ =>
      adds_ite (adds_seq (adds_oneAttribute rfl) (adds_read rfl)) (adds_pure _)
  | balanced depth =>
    refine adds_bind adds_next fun k => ?_
    split
    · exact adds_fault _
    · exact adds_seq (adds_bump rfl) <| adds_ite (adds_read rfl) (adds_pure _)
  | typeofSpecifier =>
    exact adds_plain rfl <| adds_seq (adds_bump rfl) <| adds_requireThen rfl <|
      adds_seq (adds_bind adds_view fun _ => adds_ite (adds_read rfl) (adds_read rfl)) <|
      adds_require rfl
  | pointers =>
    exact adds_ifAccepts rfl <| adds_seq (adds_read rfl) <| adds_seq (adds_read rfl) (adds_read rfl)
  | suffixes isFirst params =>
    refine adds_bind adds_next fun k => ?_
    split
    · exact adds_seq (adds_read rfl) (adds_read rfl)
    · exact adds_bind (adds_read rfl) fun _ => adds_read rfl
    · exact adds_pure _
  | arraySuffix =>
    exact adds_plain rfl <| adds_seq (adds_bump rfl) <| adds_seq (adds_read rfl) <|
      adds_seq (adds_bind adds_view fun _ =>
        adds_ite (adds_bump rfl) (adds_unlessSees (adds_read rfl))) (adds_require rfl)
  | params =>
    exact adds_bind (adds_endsAt _) fun _ => adds_ite (adds_pure _) <|
      adds_seq (adds_orReject rfl <| adds_bind (adds_accept rfl) fun _ =>
        adds_ite (adds_pure _) (adds_read rfl)) <|
      adds_ifAccepts rfl (adds_read rfl)
  | param =>
    refine adds_plain rfl <| adds_bind (adds_read rfl) fun _ => adds_bind adds_next fun k => ?_
    split
    · exact adds_pure _
    · exact adds_pure _
    · exact adds_pure _
    · exact adds_bind (adds_read rfl) fun _ => adds_declare _ _
  | typeName =>
    refine adds_plain rfl <| adds_bind (adds_read rfl) fun _ => adds_bind adds_next fun k => ?_
    split
    · exact adds_pure _
    · exact adds_pure _
    · exact adds_pure _
    · exact adds_bind (adds_read rfl) fun _ => adds_pure _
  | initializer =>
    exact adds_bind (adds_sees _) fun _ => adds_ite (adds_read rfl) (adds_read rfl)
  | initList =>
    exact adds_plain rfl <| adds_seq (adds_bump rfl) <| adds_seq (adds_read rfl) (adds_require rfl)
  | initializers =>
    exact adds_bind (adds_endsAt _) fun _ => adds_ite (adds_pure _) <|
      adds_seq (adds_orReject rfl <|
        adds_seq (adds_bind adds_next fun _ => adds_ite (adds_read rfl) (adds_pure _)) <|
        adds_read rfl) <|
      adds_ifAccepts rfl (adds_read rfl)
  | designator =>
    exact adds_plain rfl <| adds_seq (adds_read rfl) (adds_optional rfl)
  | designatorParts =>
    exact adds_bind (adds_accept rfl) fun _ =>
      adds_ite (adds_seq (adds_require rfl) (adds_read rfl)) <|
      adds_bind (adds_accept rfl) fun _ => adds_ite (adds_seq (adds_read rfl) <|
        adds_seq (adds_ifAccepts rfl (adds_read rfl)) <|
        adds_seq (adds_require rfl) (adds_read rfl)) (adds_pure _)
  | blockItems =>
    exact adds_bind (adds_endsAt _) fun _ => adds_ite (adds_pure _) <|
      adds_seq (adds_orReject rfl (adds_read rfl)) (adds_read rfl)
  | blockItem =>
    exact adds_bind adds_view fun _ => adds_ite (adds_read rfl) (adds_read rfl)
  | labelBody =>
    exact adds_bind (adds_endsAt _) fun _ => adds_ite (adds_pure _) (adds_read rfl)
  | condition =>
    exact adds_seq (adds_require rfl) <| adds_seq (adds_read rfl) (adds_require rfl)
  | statement =>
    refine adds_bind adds_view fun v => ?_
    split
    · exact adds_read rfl
    · exact adds_conditionStatement (by simp)
    · exact adds_conditionStatement (by simp)
    · exact adds_conditionStatement (by simp)
    · exact adds_plain rfl <| adds_seq (adds_bump rfl) <| adds_seq (adds_read rfl) <|
        adds_seq (adds_require rfl) <| adds_seq (adds_read rfl) (adds_require rfl)
    · exact adds_read rfl
    · exact adds_plain rfl <| adds_seq (adds_bump rfl) <| adds_seq (adds_read rfl) <|
        adds_seq (adds_ifAccepts rfl (adds_read rfl)) <| adds_seq (adds_require rfl) (adds_read rfl)
    · exact adds_plain rfl <| adds_seq (adds_bump rfl) <|
        adds_seq (adds_require rfl) (adds_read rfl)
    · exact adds_plain rfl <| adds_seq (adds_bump rfl) <|
        adds_seq (adds_unlessSees (adds_read rfl)) (adds_require rfl)
    · exact adds_plain rfl <| adds_seq (adds_bump rfl) (adds_require rfl)
    · exact adds_plain rfl <| adds_seq (adds_bump rfl) (adds_require rfl)
    · exact adds_plain rfl <| adds_seq (adds_bump rfl) <|
        adds_seq (adds_bind (adds_accept rfl) fun _ =>
          adds_ite (adds_read rfl) (adds_require rfl)) (adds_require rfl)
    · exact adds_leafNode rfl
    · exact adds_read rfl
    · exact adds_ite
        (adds_plain rfl <| adds_seq (adds_bump rfl) <| adds_seq (adds_bump rfl) <|
          adds_seq (adds_read rfl) (adds_read rfl))
        (adds_plain rfl <| adds_seq (adds_read rfl) (adds_require rfl))
    · exact adds_plain rfl <| adds_seq (adds_read rfl) (adds_require rfl)
  | forStatement =>
    exact adds_plain rfl <| adds_seq (adds_bump rfl) <|
      adds_bind (adds_inScope <| adds_seq (adds_requireThen rfl adds_forClauses) (adds_read rfl))
        fun _ => adds_pure _
  | asmStatement =>
    exact adds_plain rfl <| adds_seq (adds_bump rfl) <| adds_seq (adds_read rfl) <|
      adds_seq (adds_requireThen rfl <| adds_seq (adds_read rfl) (adds_require rfl)) <|
      adds_require rfl
  | asmOperands =>
    refine adds_bind (adds_endsAt _) fun _ => adds_ite (adds_pure _) <| adds_seq ?_ (adds_read rfl)
    refine adds_bind adds_next fun k => ?_
    split
    · exact adds_bump rfl
    · exact adds_bump rfl
    · exact adds_bump rfl
    · exact adds_bump rfl
    · exact adds_seq (adds_bump rfl) <| adds_seq (adds_optional rfl) (adds_require rfl)
    · exact adds_read rfl
    · exact adds_reject rfl
  | declaration place => exact declaration_form place
  | expression => exact adds_expression
  | assignment => exact adds_assignment
  | conditional => exact adds_conditional
  | binary level => exact adds_binary level
  | unary => exact adds_unary
  | primary => exact adds_primary
  | argList =>
    exact adds_plain rfl <| adds_seq (adds_bump rfl) <| adds_seq (adds_read rfl) (adds_require rfl)
  | args =>
    refine adds_bind (adds_endsAt _) fun _ => adds_ite (adds_pure _) <|
      adds_bind adds_remaining fun _ => ?_
    exact adds_seq (adds_bind adds_view fun _ => adds_ite (adds_read rfl) (adds_read rfl)) <|
      adds_bind adds_remaining fun _ => adds_ite (adds_ifAccepts rfl (adds_read rfl)) (adds_pure _)
  | series which =>
    exact adds_bind adds_view fun _ =>
      adds_ite (adds_seq (adds_bump rfl) (adds_read rfl)) (adds_pure _)
  | moreDeclarators | functionBody | specifiers | declarator | compound | paramList => cases hfree
  | commaTail | binaryTail | postfixTail => cases hc

/-- **Each rule adds what its construct may be read as.** -/
theorem rule_yields {c : Construct} (hc : c.isTail = false) (s : State) (hstarts : c.Starts s.next) :
    c.rule.wp form s fun _ s' => s.Extends c.Yields s' := by
  cases hfree : c.isFree with
  | true =>
    exact wp_mono (adds_rule hc hfree s) fun _ _ h => h.mono fun _ =>
      Construct.yields_of_within hfree
  | false =>
    have specifiers : Adds NodeKind.specifiers.holds (read (.specifierList false false)) :=
      (adds_read rfl)
    have block : Adds NodeKind.compoundStmt.holds (do
        bump; let _ ← inScope [] (read .blockItems); require .closeBrace .blockEnd) :=
      adds_seq (adds_bump rfl) <| adds_seq (adds_inScope (adds_read rfl)) (adds_require rfl)
    cases c with
    | moreDeclarators isTypedef => exact moreDeclarators_form isTypedef s
    | functionBody params => exact functionBody_form params s
    | specifiers =>
      exact extends_node (holds_admits specifiers rfl s.trees_opened) fun _ => ⟨_, rfl, rfl⟩
    | declarator => exact declarator_form s
    | compound =>
      exact extends_node (holds_admits block rfl s.trees_opened) fun _ => ⟨_, rfl, rfl⟩
    | paramList => exact paramList_form s hstarts
    | _ => cases hfree

end Rule

/-! ### Readings -/

namespace Construct

theorem rule_form (c : Construct) (s : State) (hstarts : c.Starts s.next) (hpre : form.pre c s) :
    c.rule.wp form s (form.post c s) := by
  cases hc : c.isTail with
  | false =>
    refine Rule.wp_mono (Rule.rule_yields hc s hstarts) fun _ s' h => ?_
    simpa only [form, hc, Bool.false_eq_true, if_false] using h
  | true =>
    cases c with
    | commaTail => exact Rule.leaves_commaTail s hpre
    | binaryTail level => exact Rule.leaves_binaryTail level s hpre
    | postfixTail => exact Rule.leaves_postfixTail s hpre
    | _ => cases hc

/-- **Each construct is read as what it may be**, and in that the table holds. -/
theorem read_form (c : Construct) (s : State) (hstarts : c.Starts s.next) (hpre : form.pre c s) :
    form.post c s (c.read s).1 (c.read s).2 :=
  read_post rule_form c s hstarts hpre fun h => by cases h

end Construct

/-! ### Whole files -/

/-- What is consumed stands in what is built. -/
theorem steady_symbols : Steady fun s s' => ∃ xs, s.ahead = xs ++ s'.ahead ∧
    Skeleton.symbolsAll s'.built.reverse = Skeleton.symbolsAll s.built.reverse ++ xs where
  refl s := ⟨[], rfl, (List.append_nil _).symm⟩
  trans := by
    rintro s t u ⟨xs, hxs, hxs'⟩ ⟨ys, hys, hys'⟩
    exact ⟨xs ++ ys, by rw [hxs, hys, List.append_assoc], by rw [hys', hxs', List.append_assoc]⟩
  act s a := by
    cases a with
    | bump =>
      cases hs : s.ahead with
      | nil =>
        exact ⟨[], by simp [State.act, hs], by
          simp [State.act, hs, Skeleton.symbolsAll, Skeleton.symbols]⟩
      | cons x rest =>
        exact ⟨[x], by simp [State.act, hs], by
          simp [State.act, hs, Skeleton.symbolsAll, Skeleton.symbols]⟩
    | settle => exact ⟨[], rfl, by simp [State.act, Skeleton.symbolsAll, Skeleton.symbols]⟩
    | gather k => exact ⟨[], rfl, by simp [State.act, Skeleton.symbolsAll, Skeleton.symbols]⟩
    | fault f => exact ⟨[], rfl, (List.append_nil _).symm⟩
    | declare n b =>
      refine ⟨[], by simp, ?_⟩
      unfold State.act
      cases s.scopes <;> simp
  segment := by
    rintro s s' ⟨xs, hxs, hxs'⟩
    refine ⟨xs, hxs, ?_⟩
    simpa [Skeleton.symbolsAll] using hxs'
  scope _ h := h
  stall s := ⟨[], rfl, (List.append_nil _).symm⟩

/-- The declarations of a file leave nothing ahead. -/
theorem ahead_final (symbols : List Symbol) : (State.final symbols).ahead = [] := by
  let K : Contract :=
    { pre := fun _ _ => True
      post := fun c _ _ s' => c = .declarations → s'.ahead = []
      strict := false }
  refine Construct.read_post (K := K) (fun c s _ _ => ?_) .declarations (.initial symbols) trivial
    trivial (fun h => by cases h) rfl
  by_cases hc : c = .declarations
  · subst hc
    simp only [Construct.rule, Rule.declarations, Rule.wp_bind, Rule.wp_view, Rule.wp_ite]
    refine ⟨fun hend _ => by simpa using hend, fun _ => ?_⟩
    exact Rule.wp_of_forall (fun _ _ => trivial) _ fun _ s₁ => ⟨trivial, fun _ _ h => h⟩
  · exact Rule.wp_of_forall (fun _ _ => trivial) _ fun _ _ h => absurd h hc

theorem symbols_skeletons (symbols : List Symbol) :
    Skeleton.symbolsAll (skeletons symbols) = symbols := by
  obtain ⟨xs, hxs, hbuilt⟩ := Construct.read_steady steady_symbols .declarations (.initial symbols)
  have hend : (Construct.declarations.read (.initial symbols)).2.ahead = [] := ahead_final symbols
  rw [hend, List.append_nil] at hxs
  rw [skeletons, List.reverse_cons, Skeleton.symbolsAll_append, State.final, hbuilt, ← hxs]
  simp [State.initial, Skeleton.symbolsAll, Skeleton.symbols]

theorem map_kind_ofTokens (ts : List Token) :
    (Symbol.ofTokens ts).map (·.kind) = ts.map (·.kind) := by
  simp [Symbol.ofTokens, Symbol.ofToken]

end Grammar

open Grammar

/-- What is left after weaving ends with a slot never starts with trivia. -/
theorem Skeleton.weaveAll_append_slot (ss : List Skeleton) (ts : List Token) :
    (weaveAll (ss ++ [.slot]) ts).2 = (weaveAll ss ts).2.dropWhile (·.isTrivia) := by
  induction ss generalizing ts with
  | nil => rfl
  | cons s ss ih => exact ih _

/-- What is woven into the skeletons of a text. -/
theorem weave_parse (t : Text) :
    let ss := skeletons (Symbol.ofTokens (Token.significant (tokens t)))
    Tree.shapesAll (Skeleton.weaveAll ss (tokens t)).1 = Skeleton.shapesAll ss ∧
      (Skeleton.weaveAll ss (tokens t)).2 = [] := by
  intro ss
  have hkinds : Skeleton.kindsOf (tokens t) = (Skeleton.symbolsAll ss).map (·.kind) ++ [] := by
    rw [symbols_skeletons, map_kind_ofTokens, List.append_nil, Skeleton.kindsOf]
  obtain ⟨hshapes, hrest⟩ := Skeleton.shapes_weaveAll ss (tokens t) [] hkinds
  refine ⟨hshapes, ?_⟩
  -- nothing significant is left, and the last slot has taken the trivia
  have hss : ss = (State.final (Symbol.ofTokens (Token.significant (tokens t)))).built.reverse ++
      [.slot] := List.reverse_cons ..
  rw [hss, Skeleton.weaveAll_append_slot] at hrest ⊢
  rw [Skeleton.kindsOf, List.map_eq_nil_iff, Token.significant_dropWhile] at hrest
  exact Token.dropWhile_eq_nil hrest

/-- **A tree holds all tokens of its text**, in their order. -/
theorem leaves_parse (t : Text) : (parse t).tree.leaves = tokens t := by
  have hleaves := Skeleton.leaves_weaveAll
    (skeletons (Symbol.ofTokens (Token.significant (tokens t)))) (tokens t)
  rwa [(weave_parse t).2, List.append_nil] at hleaves

/-- What the skeletons of a file are. -/
theorem sound_skeletons (symbols : List Symbol) :
    Within NodeKind.root.holds (Skeleton.shapesAll (skeletons symbols)) ∧
      Sound false (skeletons symbols) := by
  obtain ⟨ss, hss, hwithin, hsound⟩ :=
    Construct.read_form .declarations (.initial symbols) trivial trivial
  have hskeletons : skeletons symbols = ss ++ [.slot] := by
    rw [skeletons, List.reverse_cons]
    exact congrArg (· ++ [Skeleton.slot]) (hss.trans (List.nil_append ss))
  rw [hskeletons]
  refine ⟨?_, hsound.append (Sound.slot .nil)⟩
  rw [Skeleton.shapesAll_append]
  have hroot : Within NodeKind.root.holds (Skeleton.shapesAll ss) := hwithin
  simpa [Skeleton.shapesAll, Skeleton.shapes] using hroot

/-- **The table holds in the tree of every text.** -/
theorem admits_parse (t : Text) : AllOf NodeKind.Admits (parse t).root.shapes := by
  obtain ⟨hwithin, hsound⟩ := sound_skeletons (Symbol.ofTokens (Token.significant (tokens t)))
  rw [Parsed.root, Tree.shapes_place, parse, Tree.shapes, (weave_parse t).1, allOf_cons, all_node]
  exact ⟨⟨hwithin, hsound.formed⟩, allOf_nil⟩

/-- **No node below the root begins with trivia.** -/
theorem trimmed_parse (t : Text) : ∃ ts, (parse t).tree = .node .root ts ∧ Tree.TrimmedAll ts := by
  obtain ⟨-, hsound⟩ := sound_skeletons (Symbol.ofTokens (Token.significant (tokens t)))
  refine ⟨_, rfl, (Skeleton.trimmed_weaveAll _ false (tokens t) hsound.settled ?_).1⟩
  intro h
  cases h

end Whittle
