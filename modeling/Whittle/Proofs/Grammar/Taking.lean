import Whittle.Proofs.Grammar.Termination

/-!
# What readings take

A reading without faults takes some tokens and builds trees of them. For the constructs of which
expressions are made, and for those around a function's body, it is said here what reading one comes
to, in terms of the readings within it.

* `Built`: from one state to another the tokens of some trees were taken and the trees were built.
* `Took`: so they were, and no scope has changed.
* `Construct.after`: the state after a construct is read.
* `Construct.read_eq_of_wp`: what a rule comes to is what its construct is read as.
* `Construct.after_expression`, `Construct.after_binaryTail` and the like: the readings of the
  constructs, one for each way the symbols ahead may decide.
-/

namespace Whittle

/-! ### Taking tokens -/

namespace Tree

open Grammar

/-- The symbols of the tokens of a tree. -/
def symbols (names : List Text) (t : Tree) : List Symbol := t.leaves.map (.ofToken names)

/-- The symbols of the tokens of some trees. -/
def symbolsAll (names : List Text) (ts : List Tree) : List Symbol :=
  (leavesAll ts).map (.ofToken names)

variable (names : List Text)

@[simp] theorem symbols_token (t : Token) : (token t).symbols names = [.ofToken names t] := rfl

@[simp] theorem symbols_node (kind : NodeKind) (ts : List Tree) :
    (node kind ts).symbols names = symbolsAll names ts := rfl

@[simp] theorem symbolsAll_nil : symbolsAll names [] = [] := rfl

@[simp] theorem symbolsAll_cons (t : Tree) (ts : List Tree) :
    symbolsAll names (t :: ts) = t.symbols names ++ symbolsAll names ts := by
  rw [symbolsAll, leavesAll, List.map_append]
  rfl

@[simp] theorem symbolsAll_append (ts us : List Tree) :
    symbolsAll names (ts ++ us) = symbolsAll names ts ++ symbolsAll names us := by
  rw [symbolsAll, leavesAll_append, List.map_append]
  rfl

end Tree

namespace Grammar

open Rule

/-- From `s` to `s'` the tokens of some trees were taken and the trees were built, and no fault was
noticed. -/
structure Built (names : List Text) (ts : List Tree) (s s' : State) : Prop where
  ahead : s.ahead = Tree.symbolsAll names ts ++ s'.ahead
  faults : s'.faults = s.faults
  shapes : s'.shapes = s.shapes ++ Tree.shapesAll ts

/-- From `s` to `s'` some trees were built, and no scope has changed. -/
structure Took (names : List Text) (ts : List Tree) (s s' : State) : Prop
    extends Built names ts s s' where
  scopes : s'.scopes = s.scopes

variable {names : List Text} {ts us : List Tree} {s s' s'' : State}

namespace Built

theorem trans (h : Built names ts s s') (h' : Built names us s' s'') :
    Built names (ts ++ us) s s'' where
  ahead := by rw [h.ahead, h'.ahead, Tree.symbolsAll_append, List.append_assoc]
  faults := h'.faults.trans h.faults
  shapes := by rw [h'.shapes, h.shapes, Tree.shapesAll_append, List.append_assoc]

/-- What was built where nothing stood before becomes one node. -/
theorem gather (h : Built names ts s s') (hs : s.shapes = []) (k : NodeKind) :
    Built names [.node k ts] s (s'.act (.gather k)) where
  ahead := by
    rw [State.ahead_gather, h.ahead]
    simp
  faults := h.faults
  shapes := by
    have hshapes : s'.shapes = Tree.shapesAll ts := by rw [h.shapes, hs, List.nil_append]
    rw [hs, State.shapes, State.trees_gather]
    simp only [Skeleton.shapesAll, Skeleton.shapes, Tree.shapesAll, Tree.shapes, List.append_nil,
      List.nil_append]
    rw [← hshapes, State.shapes]

/-- What was built apart joins what stood before. -/
theorem joined (h : Built names ts s.opened s') : Built names ts s (s'.joined s) where
  ahead := h.ahead
  faults := h.faults
  shapes := by
    have hshapes : s'.shapes = Tree.shapesAll ts := by rw [h.shapes]; rfl
    rw [← hshapes]
    simp [State.shapes, Skeleton.shapesAll, Skeleton.shapes]

theorem declaring (h : Built names ts s s') (n : Option Nat) (b : Bool) :
    Built names ts s (s'.declaring n b) where
  ahead := by rw [State.ahead_declaring, h.ahead]
  faults := by
    rw [← h.faults]
    cases n with
    | none => rfl
    | some n =>
      unfold State.declaring State.act
      cases s'.scopes <;> rfl
  shapes := by rw [State.shapes, State.trees_declaring, ← State.shapes, h.shapes]

/-- What is ahead after a tree is what follows its tokens. -/
theorem ahead_eq {x : Tree} {rest : List Symbol} (h : Built names [x] s s')
    (hs : s.ahead = x.symbols names ++ rest) : s'.ahead = rest := by
  have hahead : x.symbols names ++ s'.ahead = x.symbols names ++ rest := by
    rw [← hs, h.ahead, Tree.symbolsAll_cons, Tree.symbolsAll_nil, List.append_nil]
  exact List.append_cancel_left hahead

/-- What is ahead after some trees is what follows their tokens. -/
theorem ahead_eq_of_append {rest : List Symbol} (h : Built names ts s s')
    (hs : s.ahead = Tree.symbolsAll names ts ++ rest) : s'.ahead = rest :=
  List.append_cancel_left (h.ahead.symm.trans hs)

/-- With a tree's tokens something is taken. -/
theorem length_ne (h : Built names ts s s') (hts : Tree.symbolsAll names ts ≠ []) :
    s'.ahead.length ≠ s.ahead.length := by
  have hlength := congrArg List.length h.ahead
  have hpos := List.length_pos_iff.2 hts
  rw [List.length_append] at hlength
  omega

end Built

namespace Took

theorem refl (s : State) : Took names [] s s :=
  ⟨⟨rfl, rfl, by simp [Tree.shapesAll]⟩, rfl⟩

theorem trans (h : Took names ts s s') (h' : Took names us s' s'') :
    Took names (ts ++ us) s s'' :=
  ⟨h.toBuilt.trans h'.toBuilt, h'.scopes.trans h.scopes⟩

theorem gather (h : Took names ts s s') (hs : s.shapes = []) (k : NodeKind) :
    Took names [.node k ts] s (s'.act (.gather k)) :=
  ⟨h.toBuilt.gather hs k, h.scopes⟩

theorem joined (h : Took names ts s.opened s') : Took names ts s (s'.joined s) :=
  ⟨h.toBuilt.joined, h.scopes⟩

/-- The next token is taken by itself. -/
theorem bump {t : Token} {rest : List Symbol} (h : s.ahead = Symbol.ofToken names t :: rest)
    (ht : t.isTrivia = false) : Took names [.token t] s (s.act .bump) where
  ahead := by simp [h]
  faults := by rw [State.act_bump h]
  shapes := by
    rw [State.shapes, State.trees_bump, Skeleton.shapesAll_append, State.shapesAll_bumped,
      State.next, View.kindAt, State.ahead_view, h]
    simp [State.shapes, Tree.shapesAll, Tree.shapes, Token.shapes, ht, Symbol.ofToken]
  scopes := by rw [State.act_bump h]

/-- A token is taken after some trees. -/
theorem snoc {t : Token} {rest : List Symbol} (h : Took names ts s s')
    (hs : s'.ahead = Symbol.ofToken names t :: rest) (ht : t.isTrivia = false) :
    Took names (ts ++ [.token t]) s (s'.act .bump) :=
  h.trans (bump hs ht)

/-- What was read in a scope of its own leaves the scopes around as they were. -/
theorem closed {ns : Names} (h : Took names ts (s.entered ns) s') :
    Took names ts s s'.closed where
  ahead := h.ahead
  faults := h.faults
  shapes := h.shapes
  scopes := by
    have hscopes : s'.scopes = ns :: s.scopes := h.scopes
    change s'.scopes.tail = s.scopes
    rw [hscopes, List.tail_cons]

end Took

namespace State

variable {x y : Symbol} {rest : List Symbol}

theorem next_of_ahead (h : s.ahead = x :: rest) : s.next = some x.kind := by
  simp [next, View.kindAt, h]

theorem kindAt_one_of_ahead (h : s.ahead = x :: y :: rest) : s.view.kindAt 1 = some y.kind := by
  simp [View.kindAt, h]

theorem ahead_bump_of_ahead (h : s.ahead = x :: rest) : (s.act .bump).ahead = rest := by
  rw [ahead_bump, h, List.tail_cons]

@[simp] theorem shapes_opened (s : State) : s.opened.shapes = [] := rfl

end State

namespace Construct

/-! ### Readings through the readings within -/

/-- Constructs are read where they start, and come to what reading them comes to. -/
def reading : Contract where
  pre c s := c.Starts s.next
  post c s r s' := r = (c.read s).1 ∧ s' = (c.read s).2
  strict := false

@[simp] theorem pre_reading {c : Construct} :
    reading.pre c s ↔ c.Starts s.next := Iff.rfl

@[simp] theorem post_reading {c : Construct} {r : c.Result} :
    reading.post c s r s' ↔ r = (c.read s).1 ∧ s' = (c.read s).2 := Iff.rfl

/-- The state after a construct is read. -/
def after (c : Construct) (s : State) : State := (c.read s).2

/-- What a rule comes to is what its construct is read as. -/
theorem read_eq_of_wp {c : Construct} {r : c.Result} (hs : c.Starts s.next)
    (h : c.rule.wp reading s fun r₁ s₁ => r₁ = r ∧ s₁ = s') : c.read s = (r, s') :=
  Prod.ext_iff.2 (read_of_wp (P := reading) rfl (fun _ _ _ => ⟨rfl, rfl⟩) hs h)

theorem after_eq_of_wp {c : Construct} (hs : c.Starts s.next)
    (h : c.rule.wp reading s fun _ s₁ => s₁ = s') : c.after s = s' :=
  read_of_wp (P := reading) (Q := fun _ s₁ => s₁ = s') rfl (fun _ _ _ => ⟨rfl, rfl⟩) hs h

attribute [local simp] Starts

/-! ### Commas, assignments and conditionals -/

theorem after_expression (s : State) :
    expression.after s = (commaTail.after (assignment.after s.opened)).joined s :=
  after_eq_of_wp trivial (by simp [rule, Rule.expression, after])

theorem after_commaTail (h : s.next = some .comma) : commaTail.after s =
    commaTail.after ((assignment.after (s.act .bump)).act (.gather .binaryExpr)) :=
  after_eq_of_wp trivial (by simp [rule, Rule.commaTail, after, h])

theorem after_commaTail_of_ne (h : s.next ≠ some .comma) : commaTail.after s = s :=
  after_eq_of_wp trivial (by simp [rule, Rule.commaTail, h])

theorem after_assignment (h : (conditional.after s.opened).next = some .assign ∨
      (conditional.after s.opened).next = some .assignOp) :
    assignment.after s = ((assignment.after ((conditional.after s.opened).act .bump)).act
      (.gather .binaryExpr)).joined s := by
  refine after_eq_of_wp trivial ?_
  rw [after] at h
  obtain h | h := h <;> simp [rule, Rule.assignment, after, h]

theorem after_assignment_of_ne (h : (conditional.after s.opened).next ≠ some .assign)
    (h' : (conditional.after s.opened).next ≠ some .assignOp) :
    assignment.after s = (conditional.after s.opened).joined s := by
  refine after_eq_of_wp trivial ?_
  simp only [rule, Rule.assignment, wp_apart, wp_bind, wp_read, pre_reading, post_reading, Starts,
    true_and]
  rintro _ s' ⟨-, rfl⟩
  rw [wp_next]
  split <;> simp_all [after]

/-- A conditional with all its operands. -/
theorem after_conditional {s₁ : State} (h₁ : s₁ = ((binary 1).after s.opened).act .bump)
    (hquestion : ((binary 1).after s.opened).next = some .question)
    (hmiddle : s₁.next ≠ some .colon) (hcolon : (expression.after s₁).next = some .colon) :
    conditional.after s = ((conditional.after ((expression.after s₁).act .bump)).act
      (.gather .conditionalExpr)).joined s := by
  subst h₁
  refine after_eq_of_wp trivial ?_
  simp only [after, State.next_bump] at hquestion hmiddle hcolon
  simp [rule, Rule.conditional, after, hquestion, hmiddle, hcolon]

theorem after_conditional_of_ne (h : ((binary 1).after s.opened).next ≠ some .question) :
    conditional.after s = ((binary 1).after s.opened).joined s := by
  refine after_eq_of_wp trivial ?_
  rw [after] at h
  simp [rule, Rule.conditional, after, h]

/-! ### Binary operators -/

theorem after_binary (n : Nat) (s : State) :
    (binary n).after s = ((binaryTail n).after (unary.after s.opened)).joined s :=
  after_eq_of_wp trivial (by simp [rule, Rule.binary, after])

theorem after_binaryTail {n p : Nat} (hp : s.view.level = p) (hpos : 0 < p) (hn : n ≤ p) :
    (binaryTail n).after s =
      (binaryTail n).after (((binary (p + 1)).after (s.act .bump)).act (.gather .binaryExpr)) := by
  subst hp
  have hlevel : ¬(s.view.level = 0 ∨ s.view.level < n) := by omega
  exact after_eq_of_wp trivial
    (by simp [rule, Rule.binaryTail, after, hlevel])

theorem after_binaryTail_of_lt {n : Nat} (h : s.view.level = 0 ∨ s.view.level < n) :
    (binaryTail n).after s = s := by
  refine after_eq_of_wp trivial ?_
  have hlevel : (decide (s.view.level = 0) || decide (s.view.level < n)) = true := by simpa using h
  rw [rule, Rule.binaryTail, wp_bind, wp_view, if_pos hlevel, wp_pure]

/-! ### Unary and postfix operators -/

/-- The kinds of the prefix operators. -/
def prefixKinds : List TokenKind :=
  [.increment, .decrement, .amp, .star, .plus, .minus, .bang, .tilde]

theorem after_unary_prefixed {k : TokenKind} (hk : k ∈ prefixKinds) (h : s.next = some k) :
    unary.after s =
      ((unary.after (s.opened.act .bump)).act (.gather .prefixExpr)).joined s := by
  refine after_eq_of_wp trivial ?_
  simp only [prefixKinds, List.mem_cons, List.not_mem_nil, or_false] at hk
  rcases hk with rfl | rfl | rfl | rfl | rfl | rfl | rfl | rfl <;>
    simp [rule, Rule.unary, Rule.prefixed, after, h]

/-- A cast. -/
theorem after_unary_cast {s₁ : State} (h₁ : s₁ = (typeName.after (s.opened.act .bump)).act .bump)
    (hopen : s.next = some .openParen) (htype : s.view.startsType 1 = true)
    (hclose : (typeName.after (s.opened.act .bump)).next = some .closeParen)
    (hbrace : s₁.next ≠ some .openBrace) :
    unary.after s = ((unary.after s₁).act (.gather .castExpr)).joined s := by
  subst h₁
  refine after_eq_of_wp trivial ?_
  simp only [after, State.next_bump] at hclose hbrace
  simp [rule, Rule.unary, Rule.typed, after, hopen, htype, hclose, hbrace]

theorem after_unary_postfixed (h : s.next = some .identifier ∨ s.next = some .number ∨
      s.next = some .openParen ∧ s.view.startsType 1 = false) :
    unary.after s = (postfixTail.after (primary.after s.opened)).joined s := by
  refine after_eq_of_wp trivial ?_
  rcases h with h | h | ⟨h, htype⟩ <;>
    simp [rule, Rule.unary, Rule.postfixed, after, *]

theorem after_postfixTail_call (h : s.next = some .openParen) :
    postfixTail.after s = postfixTail.after ((argList.after s).act (.gather .callExpr)) :=
  after_eq_of_wp trivial (by simp [rule, Rule.postfixTail, after, h])

theorem after_postfixTail_index (h : s.next = some .openBracket)
    (hclose : (expression.after (s.act .bump)).next = some .closeBracket) :
    postfixTail.after s = postfixTail.after
      (((expression.after (s.act .bump)).act .bump).act (.gather .indexExpr)) := by
  rw [after] at hclose
  exact after_eq_of_wp trivial
    (by simp [rule, Rule.postfixTail, after, h, hclose])

theorem after_postfixTail_member (h : s.next = some .dot ∨ s.next = some .arrow)
    (hfield : (s.act .bump).next = some .identifier) :
    postfixTail.after s =
      postfixTail.after (((s.act .bump).act .bump).act (.gather .fieldExpr)) := by
  rw [State.next_bump] at hfield
  refine after_eq_of_wp trivial ?_
  obtain h | h := h <;> simp [rule, Rule.postfixTail, after, h, hfield]

theorem after_postfixTail_step (h : s.next = some .increment ∨ s.next = some .decrement) :
    postfixTail.after s = postfixTail.after ((s.act .bump).act (.gather .postfixExpr)) := by
  refine after_eq_of_wp trivial ?_
  obtain h | h := h <;> simp [rule, Rule.postfixTail, after, h]

/-- The kinds of the symbols that go on with an operand. -/
def postfixKinds : List TokenKind :=
  [.openParen, .openBracket, .dot, .arrow, .increment, .decrement]

theorem after_postfixTail_of_not_mem (h : ∀ k ∈ postfixKinds, s.next ≠ some k) :
    postfixTail.after s = s := by
  refine after_eq_of_wp trivial ?_
  rw [rule, Rule.postfixTail, wp_bind, wp_next]
  split
  case h_7 => rfl
  all_goals
    next hnext => exact absurd hnext (h _ (by decide))

/-! ### Arguments -/

theorem after_argList (h : s.next = some .openParen)
    (hclose : (args.after (s.opened.act .bump)).next = some .closeParen) :
    argList.after s =
      (((args.after (s.opened.act .bump)).act .bump).act (.gather .argList)).joined s := by
  rw [after] at hclose
  exact after_eq_of_wp h (by simp [rule, Rule.argList, after, hclose])

theorem after_args_of_close (h : s.next = some .closeParen) : args.after s = s :=
  after_eq_of_wp trivial (by simp [rule, Rule.args, h])

theorem after_args_of_comma (hne : s.next ≠ none) (hclose : s.next ≠ some .closeParen)
    (htype : s.view.startsType 0 = false)
    (hlength : (assignment.after s).ahead.length ≠ s.ahead.length)
    (hcomma : (assignment.after s).next = some .comma) :
    args.after s = args.after ((assignment.after s).act .bump) := by
  simp only [after] at hlength hcomma
  exact after_eq_of_wp trivial (by
    simp [rule, Rule.args, Rule.argument, after, hne, hclose, htype, hlength, hcomma])

theorem after_args_of_ne (hne : s.next ≠ none) (hclose : s.next ≠ some .closeParen)
    (htype : s.view.startsType 0 = false)
    (hlength : (assignment.after s).ahead.length ≠ s.ahead.length)
    (hcomma : (assignment.after s).next ≠ some .comma) :
    args.after s = assignment.after s := by
  simp only [after] at hlength hcomma
  exact after_eq_of_wp trivial (by
    simp [rule, Rule.args, Rule.argument, after, hne, hclose, htype, hlength, hcomma])

/-! ### Primary expressions -/

theorem after_primary_name (h : s.next = some .identifier) :
    primary.after s = ((s.opened.act .bump).act (.gather .nameRef)).joined s :=
  after_eq_of_wp trivial (by simp [rule, Rule.primary, h])

theorem after_primary_number (h : s.next = some .number) :
    primary.after s = ((s.opened.act .bump).act (.gather .literal)).joined s :=
  after_eq_of_wp trivial (by simp [rule, Rule.primary, h])

theorem after_primary_paren (h : s.next = some .openParen)
    (hbrace : s.view.kindAt 1 ≠ some .openBrace)
    (hclose : (expression.after (s.opened.act .bump)).next = some .closeParen) :
    primary.after s =
      (((expression.after (s.opened.act .bump)).act .bump).act (.gather .parenExpr)).joined s := by
  rw [after] at hclose
  exact after_eq_of_wp trivial
    (by simp [rule, Rule.primary, after, h, hbrace, hclose])

/-! ### Types -/

theorem after_typeName (h : (specifiers.after s.opened).next = some .closeParen) :
    typeName.after s = ((specifiers.after s.opened).act (.gather .typeName)).joined s := by
  rw [after] at h
  exact after_eq_of_wp trivial (by simp [rule, Rule.typeName, after, h])

theorem read_specifiers (s : State) : specifiers.read s =
    (((specifierList false false).read s.opened).1,
      (((specifierList false false).after s.opened).act (.gather .specifiers)).joined s) :=
  read_eq_of_wp trivial
    (by simp [rule, Rule.specifiers, after])

theorem read_specifierList_word {isTypedef hasType : Bool} (h : s.next = some .specifier) :
    (specifierList isTypedef hasType).read s =
      (specifierList isTypedef (hasType || s.view.senseAt 0 = .typeWord)).read (s.act .bump) :=
  read_eq_of_wp trivial (by simp [rule, Rule.specifierList, h])

/-- After the word of a builtin type no name counts as a type. -/
theorem read_specifierList_typeWord {isTypedef hasType : Bool} (h : s.next = some .specifier)
    (hsense : s.view.senseAt 0 = .typeWord) :
    (specifierList isTypedef hasType).read s =
      (specifierList isTypedef true).read (s.act .bump) := by
  rw [read_specifierList_word h, hsense, decide_eq_true rfl, Bool.or_true]

theorem read_attributes_of_ne (labels : Bool) (h : s.next ≠ some .kwAttribute)
    (h' : s.next ≠ some .kwAsm) : (attributes labels).read s = ((), s) :=
  read_eq_of_wp trivial
    (by simp [rule, Rule.attributes, h, h'])

/-- The kinds of the words that tags stand behind. -/
def tagOpeners : List TokenKind := [.kwStruct, .kwUnion, .kwEnum]

theorem starts_tagSpecifier {k : TokenKind} (h : s.next = some k) (hk : k ∈ tagOpeners) :
    tagSpecifier.Starts s.next := by
  simpa [tagOpeners, h] using hk

theorem read_specifierList_tag {isTypedef hasType : Bool} {k : TokenKind} (h : s.next = some k)
    (hk : k ∈ tagOpeners) : (specifierList isTypedef hasType).read s =
      (specifierList isTypedef true).read (tagSpecifier.after s) := by
  refine read_eq_of_wp trivial ?_
  simp only [tagOpeners, List.mem_cons, List.not_mem_nil, or_false] at hk
  rcases hk with rfl | rfl | rfl <;> simp [rule, Rule.specifierList, after, h]

/-- A tag without a body. -/
theorem after_tagSpecifier {s₁ s₂ : State} {k : TokenKind} (h₁ : s₁ = s.opened.act .bump)
    (h₂ : s₂ = s₁.act .bump) (h : s.next = some k) (hk : k ∈ tagOpeners)
    (htag : s₁.next = some .identifier) (hbrace : s₂.next ≠ some .openBrace)
    (hattribute : s₂.next ≠ some .kwAttribute) (hasm : s₂.next ≠ some .kwAsm) :
    tagSpecifier.after s = (s₂.act (.gather .tagSpecifier)).joined s := by
  have hbefore : (attributes false).read s₁ = ((), s₁) :=
    read_attributes_of_ne false (by simp [htag]) (by simp [htag])
  have hbehind := read_attributes_of_ne false hattribute hasm
  subst h₂ h₁
  rw [State.next_bump] at hbrace
  exact after_eq_of_wp (starts_tagSpecifier h hk)
    (by simp [rule, Rule.tagSpecifier, hbefore, htag, hbrace, hbehind])

/-- The kinds of the symbols that end specifiers once a type was given. -/
def specifierEnds : List TokenKind :=
  [.closeParen, .comma, .identifier, .star, .openParen, .openBracket]

theorem read_specifierList_end {isTypedef : Bool} {k : TokenKind} (h : s.next = some k)
    (hk : k ∈ specifierEnds) : (specifierList isTypedef true).read s = (isTypedef, s) := by
  refine read_eq_of_wp trivial ?_
  simp only [specifierEnds, List.mem_cons, List.not_mem_nil, or_false] at hk
  rcases hk with rfl | rfl | rfl | rfl | rfl | rfl <;> simp [rule, Rule.specifierList, h]

/-! ### Declarators -/

theorem read_pointers_of_ne (h : s.next ≠ some .star) : pointers.read s = ((), s) :=
  read_eq_of_wp trivial
    (by simp [rule, Rule.pointers, h])

theorem after_series {which : Series} (h : isInSeries which s.view = true) :
    (series which).after s = (series which).after (s.act .bump) :=
  after_eq_of_wp trivial (by simp [rule, Rule.series, after, h])

theorem after_series_of_not {which : Series} (h : isInSeries which s.view = false) :
    (series which).after s = s :=
  after_eq_of_wp trivial (by simp [rule, Rule.series, h])

theorem after_pointers (h : s.next = some .star) : pointers.after s =
    pointers.after ((attributes false).after ((series .pointerQualifiers).after (s.act .bump))) :=
  after_eq_of_wp trivial (by simp [rule, Rule.pointers, after, h])

/-- A declarator by what comes of its core. -/
theorem after_declarator {core : Declared} {s₁ : State}
    (h : Rule.declaratorCore.wp reading (pointers.after s.opened) fun d s' => d = core ∧ s' = s₁) :
    declarator.after s = (((attributes true).after ((suffixes true core.params).after s₁)).act
      (.gather .declarator)).joined s := by
  refine after_eq_of_wp trivial ?_
  simp only [rule, Rule.declarator, wp_node, wp_bind, wp_read, pre_reading, post_reading, Starts,
    true_and]
  rintro _ _ ⟨-, rfl⟩
  refine wp_mono h ?_
  rintro _ _ ⟨rfl, rfl⟩
  simp [after]

theorem wp_declaratorCore_name (h : s.next = some .identifier) :
    Rule.declaratorCore.wp reading s fun d s' => d = ⟨some (s.view.nameAt 0), none⟩ ∧
      s' = ((s.opened.act .bump).act (.gather .name)).joined s := by
  simp [Rule.declaratorCore, h]

theorem wp_declaratorCore_nested {s₁ : State}
    (h₁ : s₁ = (attributes false).after (s.opened.act .bump)) (h : s.next = some .openParen)
    (hopens : s.view.opensDeclarator = true)
    (hclose : (declarator.after s₁).next = some .closeParen) :
    Rule.declaratorCore.wp reading s fun d s' => d = (declarator.read s₁).1 ∧
      s' = (((declarator.after s₁).act .bump).act (.gather .nestedDeclarator)).joined s := by
  subst h₁
  rw [after] at hclose
  simp only [after] at hclose
  simp [Rule.declaratorCore, h, hopens, after, hclose]

theorem wp_declaratorCore_nothing (h : s.next ≠ some .identifier)
    (hopens : s.next = some .openParen → s.view.opensDeclarator = false) :
    Rule.declaratorCore.wp reading s fun d s' => d = ⟨none, none⟩ ∧ s' = s := by
  rw [Rule.declaratorCore, wp_bind, wp_view]
  split
  · exact absurd ‹_› h
  · next hopen => simp [hopens hopen]
  · simp

/-- A name with suffixes, up to the body of a definition. -/
theorem read_declarator {s₁ : State}
    (h₁ : s₁ = ((s.opened.opened.act .bump).act (.gather .name)).joined s.opened)
    (hname : s.next = some .identifier)
    (hend : ((suffixes true none).after s₁).next = some .openBrace) :
    declarator.read s = (⟨some (s.view.nameAt 0), ((suffixes true none).read s₁).1⟩,
      (((suffixes true none).after s₁).act (.gather .declarator)).joined s) := by
  subst h₁
  rw [after] at hend
  have hpointers : pointers.read s.opened = ((), s.opened) := read_pointers_of_ne (by simp [hname])
  have hattributes := read_attributes_of_ne true (s := ((suffixes true none).read
    (((s.opened.opened.act .bump).act (.gather .name)).joined s.opened)).2)
    (by simp [hend]) (by simp [hend])
  have hnumber : s.opened.view.nameAt 0 = s.view.nameAt 0 := rfl
  exact read_eq_of_wp trivial
    (by simp [rule, Rule.declarator, Rule.declaratorCore, hpointers, hattributes, hname,
      hnumber, after])

theorem after_suffixes_array {isFirst : Bool} {known : Option Names}
    (h : s.next = some .openBracket) :
    (suffixes isFirst known).after s = (suffixes false known).after (arraySuffix.after s) :=
  after_eq_of_wp trivial (by simp [rule, Rule.suffixes, after, h])

theorem read_suffixes_params {isFirst : Bool} {known : Option Names}
    (h : s.next = some .openParen) : (suffixes isFirst known).read s =
      (suffixes false (if isFirst && known.isNone then some (paramList.read s).1 else known)).read
        (paramList.after s) :=
  read_eq_of_wp trivial (by simp [rule, Rule.suffixes, after, h])

theorem read_suffixes_end {isFirst : Bool} {known : Option Names} (h : s.next ≠ some .openBracket)
    (h' : s.next ≠ some .openParen) : (suffixes isFirst known).read s = (known, s) := by
  refine read_eq_of_wp trivial ?_
  rw [rule, Rule.suffixes, wp_bind, wp_next]
  split
  · exact absurd ‹_› h
  · exact absurd ‹_› h'
  · exact ⟨rfl, rfl⟩

/-- The qualifiers in the brackets of an array end where the size starts. -/
theorem read_arrayQualifiers_of_ne (h : s.next ≠ some .kwStatic) (h' : s.next ≠ some .specifier) :
    (series .arrayQualifiers).read s = ((), s) :=
  read_eq_of_wp trivial (by simp [rule, Rule.series, isInSeries, h, h'])

/-- The brackets of an array of a given size. -/
theorem after_arraySuffix {s₁ : State} (h₁ : s₁ = s.opened.act .bump)
    (hopen : s.next = some .openBracket) (hstatic : s₁.next ≠ some .kwStatic)
    (hspecifier : s₁.next ≠ some .specifier) (hsize : s₁.next ≠ some .closeBracket)
    (hstar : s₁.next = some .star → s₁.view.kindAt 1 ≠ some .closeBracket)
    (hclose : (assignment.after s₁).next = some .closeBracket) :
    arraySuffix.after s =
      (((assignment.after s₁).act .bump).act (.gather .arraySuffix)).joined s := by
  have hqualifiers := read_arrayQualifiers_of_ne hstatic hspecifier
  rw [after] at hclose
  refine after_eq_of_wp hopen ?_
  simp only [rule, Rule.arraySuffix, wp_node, wp_bind, wp_bump, wp_read, pre_reading, post_reading,
    Starts, true_and, ← h₁, hqualifiers]
  rintro _ _ ⟨-, rfl⟩
  simp +contextual [Rule.arraySize, hstar, hsize, after, hclose]

theorem after_arraySuffix_of_close {s₁ : State} (h₁ : s₁ = s.opened.act .bump)
    (hopen : s.next = some .openBracket) (hclose : s₁.next = some .closeBracket) :
    arraySuffix.after s = ((s₁.act .bump).act (.gather .arraySuffix)).joined s := by
  have hqualifiers := read_arrayQualifiers_of_ne (s := s₁) (by simp [hclose]) (by simp [hclose])
  refine after_eq_of_wp hopen ?_
  simp only [rule, Rule.arraySuffix, wp_node, wp_bind, wp_bump, wp_read, pre_reading, post_reading,
    Starts, true_and, ← h₁, hqualifiers]
  rintro _ _ ⟨-, rfl⟩
  simp [Rule.arraySize, hclose]

theorem read_paramList {s₁ : State} (h₁ : s₁ = params.after ((s.opened.act .bump).entered []))
    (hopen : s.next = some .openParen) (hclose : s₁.next = some .closeParen) :
    paramList.read s = (s₁.scopes.head?.getD [],
      ((s₁.closed.act .bump).act (.gather .paramList)).joined s) := by
  subst h₁
  rw [after] at hclose
  exact read_eq_of_wp hopen
    (by simp [rule, Rule.paramList, after, hclose])

theorem after_params {k : TokenKind} (h : s.next = some k) (hclose : k ≠ .closeParen)
    (hellipsis : k ≠ .ellipsis)
    (hlength : (param.after s).ahead.length ≠ s.ahead.length)
    (hcomma : (param.after s).next ≠ some .comma) : params.after s = param.after s := by
  simp only [after] at hlength hcomma
  exact after_eq_of_wp trivial
    (by simp [rule, Rule.params, after, h, hclose, hellipsis, hlength, hcomma])

theorem after_params_of_comma {k : TokenKind} (h : s.next = some k) (hclose : k ≠ .closeParen)
    (hellipsis : k ≠ .ellipsis)
    (hlength : (param.after s).ahead.length ≠ s.ahead.length)
    (hcomma : (param.after s).next = some .comma) :
    params.after s = params.after ((param.after s).act .bump) := by
  simp only [after] at hlength hcomma
  exact after_eq_of_wp trivial
    (by simp [rule, Rule.params, after, h, hclose, hellipsis, hlength, hcomma])

theorem after_params_of_close (h : s.next = some .closeParen) : params.after s = s :=
  after_eq_of_wp trivial (by simp [rule, Rule.params, h])

/-- An ellipsis that ends a list of parameters. -/
theorem after_params_ellipsis (h : s.next = some .ellipsis)
    (hcomma : s.view.kindAt 1 ≠ some .comma) : params.after s = s.act .bump := by
  obtain ⟨x, rest, hs, -⟩ := State.next_eq_some h
  exact after_eq_of_wp trivial (by simp [rule, Rule.params, h, hs, hcomma])

theorem after_param {k : TokenKind} (h : (specifiers.after s.opened).next = some k)
    (hk : k = .comma ∨ k = .closeParen) :
    param.after s = ((specifiers.after s.opened).act (.gather .param)).joined s := by
  rw [after] at h
  refine after_eq_of_wp trivial ?_
  obtain rfl | rfl := hk <;> simp [rule, Rule.param, after, h]

theorem after_param_declarator {s₁ : State} {k : TokenKind} (h₁ : s₁ = specifiers.after s.opened)
    (h : s₁.next = some k) (hcomma : k ≠ .comma) (hclose : k ≠ .closeParen) :
    param.after s = (((declarator.after s₁).declaring (declarator.read s₁).1.name false).act
      (.gather .param)).joined s := by
  subst h₁
  rw [after] at h
  refine after_eq_of_wp trivial ?_
  simp only [rule, Rule.param, wp_node, wp_bind, wp_read, pre_reading, post_reading, Starts,
    true_and]
  rintro _ _ ⟨-, rfl⟩
  rw [wp_next, h]
  split
  case h_4 => simp [after]
  all_goals simp_all

/-! ### Definitions -/

theorem after_declarations (hne : s.ahead ≠ [])
    (hlength : (externalDeclaration.after s).ahead.length ≠ s.ahead.length) :
    declarations.after s = declarations.after (externalDeclaration.after s) := by
  rw [after] at hlength
  exact after_eq_of_wp trivial
    (by simp [rule, Rule.declarations, after, hne, hlength])

theorem after_declarations_of_nil (h : s.ahead = []) : declarations.after s = s :=
  after_eq_of_wp trivial (by simp [rule, Rule.declarations, h])

theorem after_externalDeclaration (h : s.next = some .specifier)
    (hsense : s.view.senseAt 0 = .typeWord) :
    externalDeclaration.after s = (declaration .file).after s := by
  have hstarts : s.view.startsDeclaration = true := by
    simp [View.startsDeclaration, h, hsense]
  exact after_eq_of_wp trivial
    (by simp [rule, Rule.externalDeclaration, after, h, hstarts])

/-- The definition of a function. -/
theorem after_declaration {s₁ s₂ : State} {d : Declared}
    (hsome : s.next = some .specifier)
    (hspecifiers : specifiers.read s.opened = (false, s₁)) (hname : s₁.next = some .identifier)
    (hd : declarator.read s₁.opened = (d, s₂)) (hbody : s₂.next = some .openBrace) :
    (declaration .file).after s = (((functionBody (d.params.getD [])).after
      ((s₂.joined s₁).declaring d.name false)).act (.gather .functionDef)).joined s := by
  have hstarts : (declaration .file).Starts s.next := by simp [hsome]
  obtain rfl : (declarator.read s₁.opened).1 = d := by rw [hd]
  obtain rfl : (declarator.read s₁.opened).2 = s₂ := by rw [hd]
  exact after_eq_of_wp hstarts (by
    simp [rule, Rule.declaration, Rule.firstDeclarator, after, hspecifiers, hname, hbody])

/-- A declaration with one declarator and no initializer. -/
theorem after_declaration_group {s₁ s₂ : State} {d : Declared} {k : TokenKind}
    (hsome : s.next = some .specifier) (hspecifiers : specifiers.read s.opened = (false, s₁))
    (hstart : s₁.next = some k) (hk : k ≠ .semicolon) (hd : declarator.read s₁.opened = (d, s₂))
    (hend : s₂.next = some .semicolon) :
    (declaration .file).after s =
      (((((s₂.declaring d.name false).act (.gather .initDeclarator)).joined s₁).act .bump).act
        (.gather .declGroup)).joined s := by
  have hstarts : (declaration .file).Starts s.next := by simp [hsome]
  obtain rfl : (declarator.read s₁.opened).1 = d := by rw [hd]
  obtain rfl : (declarator.read s₁.opened).2 = s₂ := by rw [hd]
  -- no body follows, nor the parameters of an old-style definition, nor another declarator
  have hbody : (declarator.read s₁.opened).2.view.startsDeclaration = false := by
    simp [View.startsDeclaration, hend]
  have hmore (s' : State) (hs' : s'.next = some .semicolon) :
      (moreDeclarators false).read s' = ((), s') :=
    read_eq_of_wp trivial (by simp [rule, Rule.moreDeclarators, hs'])
  exact after_eq_of_wp hstarts (by
    simp [rule, Rule.declaration, Rule.firstDeclarator, Rule.initPart, Rule.unlessInHead,
      hspecifiers, hstart, hk, hend, hbody, hmore])

theorem after_functionBody {ns : Names} (h : s.next = some .openBrace) :
    (functionBody ns).after s = (compound.after (s.entered ns)).closed := by
  have hparameters : parameterDeclarations.read (s.entered ns) = ((), s.entered ns) := by
    have hstarts : (s.entered ns).view.startsDeclaration = false := by
      simp [View.startsDeclaration, h]
    exact read_eq_of_wp trivial
      (by simp [rule, Rule.parameterDeclarations, hstarts])
  exact after_eq_of_wp trivial
    (by simp [rule, Rule.functionBody, after, hparameters, h])

/-! ### Statements -/

theorem after_compound {s₁ : State} (h₁ : s₁ = blockItems.after ((s.opened.act .bump).entered []))
    (hopen : s.next = some .openBrace) (hclose : s₁.next = some .closeBrace) :
    compound.after s = ((s₁.closed.act .bump).act (.gather .compoundStmt)).joined s := by
  subst h₁
  rw [after] at hclose
  exact after_eq_of_wp hopen
    (by simp [rule, Rule.compound, after, hclose])

theorem after_blockItems_of_close (h : s.next = some .closeBrace) : blockItems.after s = s :=
  after_eq_of_wp trivial (by simp [rule, Rule.blockItems, h])

theorem after_blockItems_return (h : s.next = some .kwReturn)
    (hlength : (statement.after s).ahead.length ≠ s.ahead.length) :
    blockItems.after s = blockItems.after (statement.after s) := by
  have hstarts : s.view.startsDeclaration = false := by simp [View.startsDeclaration, h]
  have hitem : blockItem.read s = statement.read s :=
    read_eq_of_wp trivial
      (by simp [rule, Rule.blockItem, hstarts])
  rw [after] at hlength
  exact after_eq_of_wp trivial
    (by simp [rule, Rule.blockItems, after, h, hitem, hlength])

theorem after_statement_return (h : s.next = some .kwReturn)
    (hne : (s.opened.act .bump).next ≠ some .semicolon)
    (hend : (expression.after (s.opened.act .bump)).next = some .semicolon) :
    statement.after s =
      (((expression.after (s.opened.act .bump)).act .bump).act (.gather .returnStmt)).joined s := by
  simp only [after, State.next_bump, State.kindAt_opened] at hne hend
  exact after_eq_of_wp trivial
    (by simp [rule, Rule.statement, Rule.returnStatement, after, h, hne, hend])

end Construct

end Grammar

end Whittle
