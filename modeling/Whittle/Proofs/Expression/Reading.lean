import Whittle.Proofs.Expression.Grammar

/-!
# Expressions are read as they stand

Whatever may stand at a place of the grammar is read there as one tree, if what follows does not go
on with it. Operators that associate to the left are read in a loop that gathers what was read so
far, so for them it is said which state the loop comes to, rather than where it ends.

* `grip`: how tightly the next symbol holds on to the operand before it.
* `ReadsAs`: a construct is read as a tree.
* `Arrives`: the reading of operands in a loop comes to the state in which a tree is built.
* `Readable`: a tree is read as it stands, at each place up to one.
* `readable_of_standsAt`: **an expression that may stand at a place is read as it stands.**
-/

namespace Whittle

namespace Grammar

open Construct

/-! ### What may follow -/

/-- How tightly a symbol holds on to the operand before it: as the operator that it is, numbered as
the places of the grammar are. -/
def Symbol.grip (x : Symbol) : Nat :=
  match x.kind with
  | .comma => 1
  | .assign | .assignOp => 2
  | .question => 3
  | .openParen | .openBracket | .dot | .arrow | .increment | .decrement => 16
  -- binary operators by their levels, and nothing else holds on
  | _ => if x.level = 0 then 0 else x.level + 3

/-- How tightly the next symbol holds on to the operand before it. -/
def grip (xs : List Symbol) : Nat := (xs.head?.map Symbol.grip).getD 0

@[simp] theorem grip_cons (x : Symbol) (xs : List Symbol) : grip (x :: xs) = x.grip := rfl

theorem grip_of_level {x : Symbol} (h : x.level ≠ 0) : x.grip = x.level + 3 := by
  unfold Symbol.grip
  split <;> simp_all [Symbol.level]

namespace State

variable {s : State} {n : Nat}

theorem ne_of_grip_lt {k : TokenKind} (h : grip s.ahead < n)
    (hk : ∀ x : Symbol, x.kind = k → n ≤ x.grip) : s.next ≠ some k := by
  intro hnext
  obtain ⟨x, rest, hs, hx⟩ := next_eq_some hnext
  have hgrip := hk x hx
  rw [hs, grip_cons] at h
  omega

theorem next_ne_comma (h : grip s.ahead ≤ 0) : s.next ≠ some .comma :=
  ne_of_grip_lt (Nat.lt_succ_of_le h) fun x hx => by simp [Symbol.grip, hx]

theorem next_ne_question (h : grip s.ahead ≤ 2) : s.next ≠ some .question :=
  ne_of_grip_lt (Nat.lt_succ_of_le h) fun x hx => by simp [Symbol.grip, hx]

theorem next_ne_assign (h : grip s.ahead ≤ 1) :
    s.next ≠ some .assign ∧ s.next ≠ some .assignOp :=
  ⟨ne_of_grip_lt (Nat.lt_succ_of_le h) fun x hx => by simp [Symbol.grip, hx],
    ne_of_grip_lt (Nat.lt_succ_of_le h) fun x hx => by simp [Symbol.grip, hx]⟩

theorem next_ne_postfix (h : grip s.ahead ≤ 13) : ∀ k ∈ postfixKinds, s.next ≠ some k := by
  intro k hk
  refine ne_of_grip_lt (Nat.lt_succ_of_le h) fun x hx => ?_
  simp only [postfixKinds, List.mem_cons, List.not_mem_nil, or_false] at hk
  rcases hk with rfl | rfl | rfl | rfl | rfl | rfl <;> simp [Symbol.grip, hx]

theorem level_lt (h : grip s.ahead ≤ n + 2) : s.view.level = 0 ∨ s.view.level < n := by
  unfold View.level
  rw [ahead_view]
  cases hs : s.ahead with
  | nil => exact .inl rfl
  | cons x rest =>
    rw [hs, grip_cons] at h
    rw [List.head?_cons, Option.map_some, Option.getD_some]
    by_cases hx : x.level = 0
    · exact .inl hx
    · rw [grip_of_level hx] at h
      exact .inr (by omega)

/-! ### Where no name means a type -/

/-- Whether no name means a type. -/
def Plain (s : State) : Prop := ∀ n, s.view.isTypedef n = false

theorem Plain.took {names : List Text} {ts : List Tree} {s' : State} (hs : s.Plain)
    (h : Took names ts s s') : s'.Plain := by
  intro n
  have hn := hs n
  unfold View.isTypedef view at hn ⊢
  rwa [h.scopes]

theorem Plain.opened (hs : s.Plain) : s.opened.Plain := hs

/-- An expression does not start as a type does. -/
theorem Plain.startsType (hs : s.Plain) {k : TokenKind} (h : s.view.kindAt n = some k)
    (hk : k ∈ Tree.openers) : s.view.startsType n = false := by
  unfold View.startsType
  simp only [Tree.openers, prefixKinds, List.cons_append, List.nil_append, List.mem_cons,
    List.not_mem_nil, or_false] at hk
  rw [h]
  rcases hk with rfl | rfl | rfl | rfl | rfl | rfl | rfl | rfl | rfl | rfl | rfl <;> simp [hs _]

end State

/-! ### Readings -/

section

variable (names : List Text)

/-- A construct is read as a tree wherever the tokens of the tree come next and `ok` holds of what
follows them. -/
def ReadsAs (c : Construct) (ok : List Symbol → Prop) (x : Tree) : Prop :=
  ∀ s rest, s.Plain → s.ahead = x.symbols names ++ rest → ok rest → Took names [x] s (c.after s)

/-- Reading an operand and then going on with it comes to going on with a tree, wherever the tokens
of the tree come next and `ok` holds of what follows them. -/
def Arrives (first tail : Construct) (ok : List Symbol → Prop) (x : Tree) : Prop :=
  ∀ s rest, s.Plain → s.shapes = [] → s.ahead = x.symbols names ++ rest → ok rest →
    ∃ s', Took names [x] s s' ∧ tail.after (first.after s) = tail.after s'

end

/-- What follows holds on no tighter than a place. -/
def Loose (n : Nat) (rest : List Symbol) : Prop := grip rest ≤ n

variable {names : List Text} {x : Tree}

theorem ReadsAs.arrives {first : Construct} (tail : Construct) {ok : List Symbol → Prop}
    (h : ReadsAs names first ok x) : Arrives names first tail ok x :=
  fun s rest hplain _ hs hrest => ⟨first.after s, h s rest hplain hs hrest, rfl⟩

theorem Arrives.mono {first tail : Construct} {m n : Nat} (hle : m ≤ n)
    (h : Arrives names first tail (Loose n) x) : Arrives names first tail (Loose m) x :=
  fun s rest hplain hshapes hs hrest => h s rest hplain hshapes hs (Nat.le_trans hrest hle)

/-- A construct that reads an operand and goes on with it is read as a tree, if it stops there. -/
theorem Arrives.readsAs {c first tail : Construct} {ok ok' : List Symbol → Prop}
    (h : Arrives names first tail ok x) (hok : ∀ rest, ok' rest → ok rest)
    (hstop : ∀ s : State, ok' s.ahead → tail.after s = s)
    (hc : ∀ s rest, s.Plain → s.ahead = x.symbols names ++ rest →
      c.after s = (tail.after (first.after s.opened)).joined s) :
    ReadsAs names c ok' x := by
  intro s rest hplain hs hrest
  obtain ⟨s₁, htook, hafter⟩ := h s.opened rest hplain rfl hs (hok rest hrest)
  have hs₁ : s₁.ahead = rest := htook.ahead_eq hs
  rw [hc s rest hplain hs, hafter, hstop s₁ (by rwa [hs₁])]
  exact htook.joined

theorem Arrives.expression (h : Arrives names assignment commaTail (Loose 1) x) :
    ReadsAs names expression (Loose 0) x :=
  h.readsAs (fun _ hrest => Nat.le_succ_of_le hrest)
    (fun _ hs => after_commaTail_of_ne (State.next_ne_comma hs)) fun s _ _ _ => after_expression s

theorem Arrives.binary {n m : Nat} (hle : n + 2 ≤ m)
    (h : Arrives names unary (binaryTail n) (Loose m) x) :
    ReadsAs names (binary n) (Loose (n + 2)) x :=
  h.readsAs (fun _ hrest => Nat.le_trans hrest hle)
    (fun _ hs => after_binaryTail_of_lt (State.level_lt hs)) fun s _ _ _ => after_binary n s

/-! ### From one place to a looser one -/

theorem ReadsAs.assignment_of_conditional (h : ReadsAs names conditional (Loose 2) x) :
    ReadsAs names assignment (Loose 1) x := by
  intro s rest hplain hs hrest
  have htook := h s.opened rest hplain hs (Nat.le_succ_of_le hrest)
  have hgrip : grip (conditional.after s.opened).ahead ≤ 1 := by rwa [htook.ahead_eq hs]
  obtain ⟨hassign, hassignOp⟩ := State.next_ne_assign hgrip
  rw [after_assignment_of_ne hassign hassignOp]
  exact htook.joined

theorem ReadsAs.conditional_of_binary (h : ReadsAs names (binary 1) (Loose 3) x) :
    ReadsAs names conditional (Loose 2) x := by
  intro s rest hplain hs hrest
  have htook := h s.opened rest hplain hs (Nat.le_succ_of_le hrest)
  have hgrip : grip ((binary 1).after s.opened).ahead ≤ 2 := by rwa [htook.ahead_eq hs]
  rw [after_conditional_of_ne (State.next_ne_question hgrip)]
  exact htook.joined

/-- What stands at the place of a postfix expression is read as a unary expression. -/
theorem Arrives.unary {m : Nat} (hx : x.StandsAt m) (hm : 16 ≤ m)
    (h : Arrives names primary postfixTail (fun _ => True) x) :
    ReadsAs names unary (Loose 13) x := by
  refine h.readsAs (fun _ _ => trivial)
    (fun _ hs => after_postfixTail_of_not_mem (State.next_ne_postfix hs)) fun s rest hplain hs => ?_
  obtain ⟨t, ts, hleaves, ht⟩ := hx.exists_head_postfix hm
  rw [Tree.symbols, hleaves, List.map_cons, List.cons_append] at hs
  have hnext : s.next = some t.kind := State.next_of_ahead hs
  -- a parenthesis in front encloses an expression, so this is no cast
  refine after_unary_postfixed ?_
  rw [hnext]
  obtain ht | ht | ⟨ht, t', ts', rfl, ht'⟩ := ht
  · exact .inl (congrArg some ht)
  · exact .inr (.inl (congrArg some ht))
  · exact .inr (.inr ⟨congrArg some ht, hplain.startsType (State.kindAt_one_of_ahead hs) ht'⟩)

/-! ### Trees that are read as they stand -/

/-- A tree is read as it stands at each place up to `m`. -/
structure Readable (names : List Text) (m : Nat) (x : Tree) : Prop where
  comma : Arrives names assignment commaTail (Loose 1) x
  assignment : 2 ≤ m → ReadsAs names assignment (Loose 1) x
  conditional : 3 ≤ m → ReadsAs names conditional (Loose 2) x
  -- the loop of a level reads the operators of all tighter levels too
  binary : ∀ n, 1 ≤ n → n + 3 ≤ m → Arrives names unary (binaryTail n) (Loose (min m 13)) x
  unary : 14 ≤ m → ReadsAs names unary (Loose 13) x
  -- a postfix expression may go on with anything that follows
  postfixed : 16 ≤ m → Arrives names primary postfixTail (fun _ => True) x

namespace Readable

variable {m n : Nat}

theorem mono (h : Readable names m x) (hle : n ≤ m) : Readable names n x where
  comma := h.comma
  assignment hn := h.assignment (by omega)
  conditional hn := h.conditional (by omega)
  binary p hp hn := (h.binary p hp (by omega)).mono (by omega)
  unary hn := h.unary (by omega)
  postfixed hn := h.postfixed (by omega)

theorem ofComma (h : Arrives names Construct.assignment commaTail (Loose 1) x) :
    Readable names 1 x where
  comma := h
  assignment hn := by omega
  conditional hn := by omega
  binary p hp hn := by omega
  unary hn := by omega
  postfixed hn := by omega

theorem ofAssignment (h : ReadsAs names Construct.assignment (Loose 1) x) : Readable names 2 x where
  comma := h.arrives commaTail
  assignment _ := h
  conditional hn := by omega
  binary p hp hn := by omega
  unary hn := by omega
  postfixed hn := by omega

theorem ofConditional (h : ReadsAs names Construct.conditional (Loose 2) x) :
    Readable names 3 x where
  comma := h.assignment_of_conditional.arrives commaTail
  assignment _ := h.assignment_of_conditional
  conditional _ := h
  binary p hp hn := by omega
  unary hn := by omega
  postfixed hn := by omega

theorem ofBinary {p : Nat} (hpos : 0 < p) (hp : p ≤ 10)
    (h : ∀ n, 1 ≤ n → n ≤ p → Arrives names Construct.unary (binaryTail n) (Loose (p + 3)) x) :
    Readable names (p + 3) x := by
  have hconditional := ((h 1 (Nat.le_refl 1) hpos).binary (by omega)).conditional_of_binary
  exact
    { comma := hconditional.assignment_of_conditional.arrives commaTail
      assignment := fun _ => hconditional.assignment_of_conditional
      conditional := fun _ => hconditional
      binary := fun n hn hle => (h n hn (by omega)).mono (by omega)
      unary := fun hn => by omega
      postfixed := fun hn => by omega }

theorem ofUnary (hm : 14 ≤ m) (h : ReadsAs names Construct.unary (Loose 13) x)
    (hpostfixed : 16 ≤ m → Arrives names primary postfixTail (fun _ => True) x) :
    Readable names m x := by
  have hbinary := ofBinary (p := 10) (by omega) (by omega) fun n _ _ => h.arrives (binaryTail n)
  exact
    { comma := hbinary.comma
      assignment := fun _ => hbinary.assignment (by omega)
      conditional := fun _ => hbinary.conditional (by omega)
      binary := fun n _ _ => (h.arrives (binaryTail n)).mono (by omega)
      unary := fun _ => h
      postfixed := hpostfixed }

theorem ofPostfixed (hx : x.StandsAt m) (hm : 16 ≤ m)
    (h : Arrives names primary postfixTail (fun _ => True) x) : Readable names m x :=
  ofUnary (by omega) (h.unary hx hm) fun _ => h

theorem expression (h : Readable names m x) : ReadsAs names Construct.expression (Loose 0) x :=
  h.comma.expression

end Readable

/-! ### Primary expressions -/

theorem isTrivia_of_kind {t : Token} {k : TokenKind} (h : t.kind = k) (hk : k.isTrivia = false) :
    t.isTrivia = false := by
  rw [Token.isTrivia, h, hk]

theorem next_of_kind {s : State} {t : Token} {k : TokenKind} {rest : List Symbol}
    (hs : s.ahead = .ofToken names t :: rest) (hk : t.kind = k) : s.next = some k := by
  rw [State.next_of_ahead hs]
  exact congrArg some hk

theorem took_leafNode {s : State} {t : Token} {rest : List Symbol} (kind : NodeKind)
    (hs : s.ahead = .ofToken names t :: rest) (ht : t.isTrivia = false) :
    Took names [.node kind [.token t]] s (((s.opened.act .bump).act (.gather kind)).joined s) :=
  ((Took.bump (s := s.opened) hs ht).gather rfl kind).joined

theorem readsAs_name {t : Token} (ht : t.kind = .identifier) :
    ReadsAs names primary (fun _ => True) (.node .nameRef [.token t]) := by
  intro s rest _ hs _
  have hs : s.ahead = .ofToken names t :: rest := by simpa using hs
  rw [after_primary_name (next_of_kind hs ht)]
  exact took_leafNode .nameRef hs (isTrivia_of_kind ht rfl)

theorem readsAs_number {t : Token} (ht : t.kind = .number) :
    ReadsAs names primary (fun _ => True) (.node .literal [.token t]) := by
  intro s rest _ hs _
  have hs : s.ahead = .ofToken names t :: rest := by simpa using hs
  rw [after_primary_number (next_of_kind hs ht)]
  exact took_leafNode .literal hs (isTrivia_of_kind ht rfl)

/-- The first symbol of an expression. -/
theorem exists_symbols {m : Nat} (hx : x.StandsAt m) (names : List Text) :
    ∃ y ys, x.symbols names = y :: ys ∧ y.kind ∈ Tree.openers := by
  obtain ⟨t, ts, hleaves, ht⟩ := hx.exists_head
  refine ⟨.ofToken names t, ts.map (.ofToken names), ?_, ht⟩
  rw [Tree.symbols, hleaves, List.map_cons]

/-- Where an expression comes next, no symbol does that none starts with. -/
theorem next_ne_of_standsAt {m : Nat} (hx : x.StandsAt m) {s : State} {rest : List Symbol}
    (hs : s.ahead = x.symbols names ++ rest) {k : TokenKind} (hk : k ∉ Tree.openers) :
    s.next ≠ some k := by
  obtain ⟨y, ys, hsymbols, hy⟩ := exists_symbols hx names
  rw [hsymbols, List.cons_append] at hs
  rw [State.next_of_ahead hs]
  exact fun h => hk (Option.some.inj h ▸ hy)

/-- The kinds of the tokens that end the expression before them. -/
def closers : List TokenKind := [.closeParen, .closeBracket, .colon, .semicolon]

theorem loose_of_closer {t : Token} {k : TokenKind} (ht : t.kind = k) (hk : k ∈ closers) (n : Nat)
    (rest : List Symbol) : Loose n (.ofToken names t :: rest) := by
  have hgrip : (Symbol.ofToken names t).grip = 0 := by
    simp only [closers, List.mem_cons, List.not_mem_nil, or_false] at hk
    rcases hk with rfl | rfl | rfl | rfl <;> simp [Symbol.grip, Symbol.level, Symbol.ofToken, ht]
  rw [Loose, grip_cons, hgrip]
  exact Nat.zero_le n

theorem readsAs_paren {o c : Token} (ho : o.kind = .openParen) (hc : c.kind = .closeParen)
    (hx : x.StandsAt 1) (h : Readable names 1 x) :
    ReadsAs names primary (fun _ => True) (.node .parenExpr [.token o, x, .token c]) := by
  intro s rest hplain hs _
  have hs : s.ahead = .ofToken names o :: (x.symbols names ++ .ofToken names c :: rest) := by
    simpa using hs
  have hopen : Took names [.token o] s.opened (s.opened.act .bump) :=
    .bump hs (isTrivia_of_kind ho rfl)
  have hs₁ : (s.opened.act .bump).ahead = x.symbols names ++ .ofToken names c :: rest :=
    State.ahead_bump_of_ahead hs
  have hinner := h.expression _ _ (hplain.opened.took hopen) hs₁
    (loose_of_closer hc (by decide) 0 rest)
  have hs₂ := hinner.ahead_eq hs₁
  -- no statement starts after the parenthesis
  have hbrace := next_ne_of_standsAt hx hs₁ (k := .openBrace) (by decide)
  rw [State.next_bump, State.kindAt_opened] at hbrace
  rw [after_primary_paren (next_of_kind hs ho) hbrace (next_of_kind hs₂ hc)]
  exact (((hopen.trans hinner).snoc hs₂ (isTrivia_of_kind hc rfl)).gather rfl .parenExpr).joined

/-! ### Postfix expressions -/

theorem arrives_step {op : Token} (hop : op.kind = .increment ∨ op.kind = .decrement)
    (h : Arrives names primary postfixTail (fun _ => True) x) :
    Arrives names primary postfixTail (fun _ => True) (.node .postfixExpr [x, .token op]) := by
  intro s rest hplain hshapes hs _
  have hs : s.ahead = x.symbols names ++ .ofToken names op :: rest := by simpa using hs
  obtain ⟨s₁, htook, hafter⟩ := h s _ hplain hshapes hs trivial
  have hs₁ := htook.ahead_eq hs
  have hsig : op.isTrivia = false := by
    obtain hop | hop := hop <;> exact isTrivia_of_kind hop rfl
  refine ⟨_, (htook.snoc hs₁ hsig).gather hshapes .postfixExpr, ?_⟩
  rw [hafter, after_postfixTail_step (hop.imp (next_of_kind hs₁) (next_of_kind hs₁))]

theorem arrives_member {op field : Token} (hop : op.kind = .dot ∨ op.kind = .arrow)
    (hfield : field.kind = .identifier) (h : Arrives names primary postfixTail (fun _ => True) x) :
    Arrives names primary postfixTail (fun _ => True)
      (.node .fieldExpr [x, .token op, .token field]) := by
  intro s rest hplain hshapes hs _
  have hs : s.ahead = x.symbols names ++ .ofToken names op :: .ofToken names field :: rest := by
    simpa using hs
  obtain ⟨s₁, htook, hafter⟩ := h s _ hplain hshapes hs trivial
  have hs₁ := htook.ahead_eq hs
  have hs₂ := State.ahead_bump_of_ahead hs₁
  have hsig : op.isTrivia = false := by
    obtain hop | hop := hop <;> exact isTrivia_of_kind hop rfl
  have hnamed := (htook.snoc hs₁ hsig).snoc hs₂ (isTrivia_of_kind hfield rfl)
  refine ⟨_, hnamed.gather hshapes .fieldExpr, ?_⟩
  rw [hafter, after_postfixTail_member (hop.imp (next_of_kind hs₁) (next_of_kind hs₁))
    (next_of_kind hs₂ hfield)]

theorem arrives_index {o c : Token} {i : Tree} (ho : o.kind = .openBracket)
    (hc : c.kind = .closeBracket) (h : Arrives names primary postfixTail (fun _ => True) x)
    (hi : Readable names 1 i) :
    Arrives names primary postfixTail (fun _ => True)
      (.node .indexExpr [x, .token o, i, .token c]) := by
  intro s rest hplain hshapes hs _
  have hs : s.ahead =
      x.symbols names ++ .ofToken names o :: (i.symbols names ++ .ofToken names c :: rest) := by
    simpa using hs
  obtain ⟨s₁, htook, hafter⟩ := h s _ hplain hshapes hs trivial
  have hs₁ := htook.ahead_eq hs
  have hopen := htook.snoc hs₁ (isTrivia_of_kind ho rfl)
  have hs₂ := State.ahead_bump_of_ahead hs₁
  have hinner := hi.expression _ _ (hplain.took hopen) hs₂ (loose_of_closer hc (by decide) 0 rest)
  have hs₃ := hinner.ahead_eq hs₂
  have hclosed := (hopen.trans hinner).snoc hs₃ (isTrivia_of_kind hc rfl)
  refine ⟨_, hclosed.gather hshapes .indexExpr, ?_⟩
  rw [hafter, after_postfixTail_index (next_of_kind hs₁ ho) (next_of_kind hs₃ hc)]

/-- Arguments are read up to the closing parenthesis. -/
theorem took_args {sep c : Token} (hsep : sep.kind = .comma) (hc : c.kind = .closeParen)
    {xs : List Tree} (hstands : ∀ x ∈ xs, x.StandsAt 2) (h : ∀ x ∈ xs, Readable names 2 x)
    {s : State} {rest : List Symbol} (hplain : s.Plain)
    (hs : s.ahead = Tree.symbolsAll names (xs.intersperse (.token sep)) ++
      .ofToken names c :: rest) :
    Took names (xs.intersperse (.token sep)) s (args.after s) := by
  -- one argument is read in each round, and a comma after it calls for another round
  induction xs generalizing s with
  | nil =>
    rw [after_args_of_close (next_of_kind hs hc)]
    exact .refl s
  | cons x xs ih =>
    have hfirst := (h x List.mem_cons_self).assignment (Nat.le_refl 2)
    -- an argument starts as an expression does
    obtain ⟨y, ys, hsymbols, hy⟩ := exists_symbols (hstands x List.mem_cons_self) names
    have hstart {r : List Symbol} (hs : s.ahead = x.symbols names ++ r) :
        s.next = some y.kind := by
      rw [hsymbols, List.cons_append] at hs
      exact State.next_of_ahead hs
    have htaken : Tree.symbolsAll names [x] ≠ [] := by simp [hsymbols]
    have hne {r : List Symbol} (hs : s.ahead = x.symbols names ++ r) : s.next ≠ none := by
      rw [hstart hs]
      exact Option.some_ne_none _
    have hclose {r : List Symbol} (hs : s.ahead = x.symbols names ++ r) :
        s.next ≠ some .closeParen :=
      next_ne_of_standsAt (hstands x List.mem_cons_self) hs (by decide)
    cases xs with
    | nil =>
      have hs : s.ahead = x.symbols names ++ .ofToken names c :: rest := by simpa using hs
      have htook := hfirst s _ hplain hs (loose_of_closer hc (by decide) 1 rest)
      have hnext := next_of_kind (htook.ahead_eq hs) hc
      rw [after_args_of_ne (hne hs) (hclose hs) (hplain.startsType (hstart hs) hy)
        (htook.length_ne htaken) (by simp [hnext])]
      exact htook
    | cons x' xs =>
      have hs : s.ahead = x.symbols names ++ .ofToken names sep ::
          (Tree.symbolsAll names ((x' :: xs).intersperse (.token sep)) ++
            .ofToken names c :: rest) := by
        simpa using hs
      have hloose {r : List Symbol} : Loose 1 (.ofToken names sep :: r) := by
        simp [Loose, Symbol.grip, Symbol.ofToken, hsep]
      have htook := hfirst s _ hplain hs hloose
      have hs₁ := htook.ahead_eq hs
      have hcomma := htook.snoc hs₁ (isTrivia_of_kind hsep rfl)
      have hrest := ih (fun y hy => hstands y (List.mem_cons_of_mem x hy))
        (fun y hy => h y (List.mem_cons_of_mem x hy)) (hplain.took hcomma)
        (State.ahead_bump_of_ahead hs₁)
      rw [after_args_of_comma (hne hs) (hclose hs) (hplain.startsType (hstart hs) hy)
        (htook.length_ne htaken) (next_of_kind hs₁ hsep)]
      exact hcomma.trans hrest

theorem arrives_call {o c sep : Token} {f : Tree} {xs : List Tree} (ho : o.kind = .openParen)
    (hc : c.kind = .closeParen) (hsep : sep.kind = .comma)
    (hf : Arrives names primary postfixTail (fun _ => True) f)
    (hstands : ∀ x ∈ xs, x.StandsAt 2) (h : ∀ x ∈ xs, Readable names 2 x) :
    Arrives names primary postfixTail (fun _ => True) (.node .callExpr
      [f, .node .argList (.token o :: xs.intersperse (.token sep) ++ [.token c])]) := by
  intro s rest hplain hshapes hs _
  have hs : s.ahead = f.symbols names ++ .ofToken names o ::
      (Tree.symbolsAll names (xs.intersperse (.token sep)) ++ .ofToken names c :: rest) := by
    simpa using hs
  obtain ⟨s₁, htook, hafter⟩ := hf s _ hplain hshapes hs trivial
  have hs₁ := htook.ahead_eq hs
  have hopen : Took names [.token o] s₁.opened (s₁.opened.act .bump) :=
    .bump hs₁ (isTrivia_of_kind ho rfl)
  have hplain₂ := (hplain.took htook).opened.took hopen
  have hs₂ := State.ahead_bump_of_ahead (s := s₁.opened) hs₁
  have hinner := took_args hsep hc hstands h hplain₂ hs₂
  have hs₃ : (args.after (s₁.opened.act .bump)).ahead = .ofToken names c :: rest := by
    have hahead := hinner.ahead
    rw [hs₂] at hahead
    exact (List.append_cancel_left hahead).symm
  have hclosed := (hopen.trans hinner).snoc hs₃ (isTrivia_of_kind hc rfl)
  have hlist := (hclosed.gather rfl .argList).joined
  refine ⟨_, (htook.trans hlist).gather hshapes .callExpr, ?_⟩
  rw [hafter, after_postfixTail_call (next_of_kind hs₁ ho),
    after_argList (next_of_kind hs₁ ho) (next_of_kind hs₃ hc)]

/-! ### Unary expressions -/

theorem readsAs_prefixed {op : Token} (hop : op.kind ∈ prefixKinds)
    (h : ReadsAs names unary (Loose 13) x) :
    ReadsAs names unary (Loose 13) (.node .prefixExpr [.token op, x]) := by
  intro s rest hplain hs hrest
  have hs : s.ahead = .ofToken names op :: (x.symbols names ++ rest) := by simpa using hs
  have hsig : op.isTrivia = false := by
    have hall : ∀ k ∈ prefixKinds, k.isTrivia = false := by decide
    exact hall _ hop
  have htook : Took names [.token op] s.opened (s.opened.act .bump) := .bump hs hsig
  have hinner := h _ _ (hplain.opened.took htook) (State.ahead_bump_of_ahead hs) hrest
  rw [after_unary_prefixed hop (State.next_of_ahead hs)]
  exact ((htook.trans hinner).gather rfl .prefixExpr).joined

/-- The words of a builtin type are read as its specifiers. -/
theorem read_specifierList_types (isTypedef hasType : Bool) {ws : List Token} (hne : ws ≠ [])
    (hws : ∀ w ∈ ws, w.NamesType) {s : State} {rest : List Symbol}
    (hs : s.ahead = ws.map (.ofToken names) ++ rest)
    (hrest : ∀ s' : State, s'.ahead = rest → ∃ k ∈ specifierEnds, s'.next = some k) :
    ((specifierList isTypedef hasType).read s).1 = isTypedef ∧
      Took names (ws.map .token) s ((specifierList isTypedef hasType).after s) := by
  -- each word is taken by itself; after the first one a name ends the list
  induction ws generalizing s hasType with
  | nil => exact absurd rfl hne
  | cons w ws ih =>
    obtain ⟨hkind, hsense⟩ := hws w List.mem_cons_self
    have hs : s.ahead = .ofToken names w :: (ws.map (.ofToken names) ++ rest) := hs
    have hfirst := Took.bump hs (isTrivia_of_kind hkind rfl)
    have hs₁ := State.ahead_bump_of_ahead hs
    have hsense : s.view.senseAt 0 = .typeWord := by simp [View.senseAt, hs, Symbol.ofToken, hsense]
    rw [after, read_specifierList_typeWord (next_of_kind hs hkind) hsense]
    cases ws with
    | nil =>
      obtain ⟨k, hk, hnext⟩ := hrest _ hs₁
      rw [read_specifierList_end hnext hk]
      exact ⟨rfl, hfirst⟩
    | cons w' ws =>
      obtain ⟨hresult, htook⟩ :=
        ih true (by simp) (fun w hw => hws w (List.mem_cons_of_mem _ hw)) hs₁
      exact ⟨hresult, hfirst.trans htook⟩

theorem read_specifiers_types {ws : List Token} (hne : ws ≠ [])
    (hws : ∀ w ∈ ws, w.NamesType) {s : State} {rest : List Symbol}
    (hs : s.ahead = ws.map (.ofToken names) ++ rest)
    (hrest : ∀ s' : State, s'.ahead = rest → ∃ k ∈ specifierEnds, s'.next = some k) :
    (specifiers.read s).1 = false ∧
      Took names [.node .specifiers (ws.map .token)] s (specifiers.after s) := by
  obtain ⟨hresult, htook⟩ := read_specifierList_types (s := s.opened) false false hne hws hs hrest
  rw [after, read_specifiers]
  exact ⟨hresult, (htook.gather rfl .specifiers).joined⟩

theorem readsAs_cast {o c : Token} {ws : List Token} (ho : o.kind = .openParen)
    (hc : c.kind = .closeParen) (hne : ws ≠ [])
    (hws : ∀ w ∈ ws, w.NamesType) (hx : x.StandsAt 14)
    (h : ReadsAs names unary (Loose 13) x) :
    ReadsAs names unary (Loose 13) (.node .castExpr
      [.token o, .node .typeName [.node .specifiers (ws.map .token)], .token c, x]) := by
  intro s rest hplain hs hrest
  have hwords : Tree.symbolsAll names (ws.map .token) = ws.map (.ofToken names) := by
    rw [Tree.symbolsAll, Tree.leavesAll_map_token]
  have hs : s.ahead = .ofToken names o :: (ws.map (.ofToken names) ++
      .ofToken names c :: (x.symbols names ++ rest)) := by
    simpa [hwords] using hs
  have hopen : Took names [.token o] s.opened (s.opened.act .bump) :=
    .bump hs (isTrivia_of_kind ho rfl)
  have hs₁ := State.ahead_bump_of_ahead (s := s.opened) hs
  -- the type in parentheses
  have hspecifiers := (read_specifiers_types (s := (s.opened.act .bump).opened) hne hws hs₁
    fun s' hs' => ⟨_, by decide, next_of_kind hs' hc⟩).2
  have hs₂ : (specifiers.after (s.opened.act .bump).opened).ahead =
      .ofToken names c :: (x.symbols names ++ rest) :=
    hspecifiers.ahead_eq (by simpa [hwords] using hs₁)
  have htype := (hspecifiers.gather rfl .typeName).joined
  rw [← after_typeName (next_of_kind hs₂ hc)] at htype
  have hs₃ : (typeName.after (s.opened.act .bump)).ahead =
      .ofToken names c :: (x.symbols names ++ rest) :=
    htype.ahead_eq (by simpa [hwords] using hs₁)
  have hclose := (hopen.trans htype).snoc hs₃ (isTrivia_of_kind hc rfl)
  have hs₄ := State.ahead_bump_of_ahead hs₃
  -- and its operand
  have hinner := h _ _ (hplain.opened.took hclose) hs₄ hrest
  have hstarts : s.view.startsType 1 = true := by
    cases ws with
    | nil => exact absurd rfl hne
    | cons w ws =>
      obtain ⟨hkind, hsense⟩ := hws w List.mem_cons_self
      simp [View.startsType, View.kindAt, View.senseAt, hs, Symbol.ofToken, hkind, hsense]
  rw [after_unary_cast rfl (next_of_kind hs ho) hstarts (next_of_kind hs₃ hc)
    (next_ne_of_standsAt hx hs₄ (by decide))]
  exact ((hclose.trans hinner).gather rfl .castExpr).joined

/-! ### Operators between operands -/

theorem isTrivia_of_level {t : Token} (h : t.level ≠ 0) : t.isTrivia = false := by
  cases hk : t.kind <;>
    simp_all [Token.level, Symbol.level, Symbol.ofToken, Token.isTrivia, TokenKind.isTrivia]

theorem arrives_binary {op : Token} {p n : Nat} {l r : Tree} (hlevel : op.level = p) (hpos : 0 < p)
    (hn : 1 ≤ n) (hle : n ≤ p) (hp : p ≤ 10) (hl : Readable names (p + 3) l)
    (hr : Readable names (p + 4) r) :
    Arrives names unary (binaryTail n) (Loose (p + 3)) (.node .binaryExpr [l, .token op, r]) := by
  intro s rest hplain hshapes hs hrest
  have hs : s.ahead = l.symbols names ++ .ofToken names op :: (r.symbols names ++ rest) := by
    simpa using hs
  have hsig : op.isTrivia = false := isTrivia_of_level (by omega)
  have hlevel : (Symbol.ofToken names op).level = p := hlevel
  have hgrip : Loose (min (p + 3) 13) (.ofToken names op :: (r.symbols names ++ rest)) := by
    rw [Loose, grip_cons, grip_of_level (by omega), hlevel]
    omega
  -- the loop comes to the left operand and goes on with the operator
  obtain ⟨s₁, htook, hafter⟩ := hl.binary n hn (by omega) s _ hplain hshapes hs hgrip
  have hs₁ := htook.ahead_eq hs
  have hop := htook.snoc hs₁ hsig
  -- what follows the right operand holds on no tighter than the operator
  have hright := (hr.binary (p + 1) (by omega) (by omega)).binary (by omega) _ _ (hplain.took hop)
    (State.ahead_bump_of_ahead hs₁) hrest
  refine ⟨_, (hop.trans hright).gather hshapes .binaryExpr, ?_⟩
  have hview : s₁.view.level = p := by simp [View.level, hs₁, hlevel]
  rw [hafter, after_binaryTail hview hpos hle]

theorem readsAs_conditional {q d : Token} {c t e : Tree} (hq : q.kind = .question)
    (hd : d.kind = .colon) (ht : t.StandsAt 1) (hc : Readable names 4 c)
    (hmiddle : Readable names 1 t) (he : Readable names 3 e) :
    ReadsAs names conditional (Loose 2)
      (.node .conditionalExpr [c, .token q, t, .token d, e]) := by
  intro s rest hplain hs hrest
  have hs : s.ahead = c.symbols names ++ .ofToken names q ::
      (t.symbols names ++ .ofToken names d :: (e.symbols names ++ rest)) := by
    simpa using hs
  have hgrip {r : List Symbol} : Loose 3 (.ofToken names q :: r) := by
    simp [Loose, Symbol.grip, Symbol.ofToken, hq]
  have hfirst := ((hc.binary 1 (by omega) (by omega)).binary (by omega)) s.opened _ hplain.opened hs
    hgrip
  have hs₁ := hfirst.ahead_eq hs
  have hquestion := hfirst.snoc hs₁ (isTrivia_of_kind hq rfl)
  have hs₂ := State.ahead_bump_of_ahead hs₁
  have hsecond := hmiddle.expression _ _ (hplain.opened.took hquestion) hs₂
    (loose_of_closer hd (by decide) 0 _)
  have hs₃ := hsecond.ahead_eq hs₂
  have htaken := (hquestion.trans hsecond).snoc hs₃ (isTrivia_of_kind hd rfl)
  have hthird := he.conditional (by omega) _ _ (hplain.opened.took htaken)
    (State.ahead_bump_of_ahead hs₃) hrest
  rw [after_conditional rfl (next_of_kind hs₁ hq) (next_ne_of_standsAt ht hs₂ (by decide))
    (next_of_kind hs₃ hd)]
  exact ((htaken.trans hthird).gather rfl .conditionalExpr).joined

theorem readsAs_assign {op : Token} {l r : Tree} (hop : op.kind = .assign ∨ op.kind = .assignOp)
    (hl : Readable names 3 l) (hr : Readable names 2 r) :
    ReadsAs names assignment (Loose 1) (.node .binaryExpr [l, .token op, r]) := by
  intro s rest hplain hs hrest
  have hs : s.ahead = l.symbols names ++ .ofToken names op :: (r.symbols names ++ rest) := by
    simpa using hs
  have hgrip : Loose 2 (.ofToken names op :: (r.symbols names ++ rest)) := by
    obtain hop | hop := hop <;> simp [Loose, Symbol.grip, Symbol.ofToken, hop]
  have hleft := hl.conditional (by omega) s.opened _ hplain.opened hs hgrip
  have hs₁ := hleft.ahead_eq hs
  have hsig : op.isTrivia = false := by
    obtain hop | hop := hop <;> exact isTrivia_of_kind hop rfl
  have htaken := hleft.snoc hs₁ hsig
  have hright := hr.assignment (by omega) _ _ (hplain.opened.took htaken)
    (State.ahead_bump_of_ahead hs₁) hrest
  rw [after_assignment (hop.imp (next_of_kind hs₁) (next_of_kind hs₁))]
  exact ((htaken.trans hright).gather rfl .binaryExpr).joined

theorem arrives_comma {op : Token} {l r : Tree} (hop : op.kind = .comma) (hl : Readable names 1 l)
    (hr : Readable names 2 r) :
    Arrives names assignment commaTail (Loose 1) (.node .binaryExpr [l, .token op, r]) := by
  intro s rest hplain hshapes hs hrest
  have hs : s.ahead = l.symbols names ++ .ofToken names op :: (r.symbols names ++ rest) := by
    simpa using hs
  have hgrip : Loose 1 (.ofToken names op :: (r.symbols names ++ rest)) := by
    simp [Loose, Symbol.grip, Symbol.ofToken, hop]
  obtain ⟨s₁, htook, hafter⟩ := hl.comma s _ hplain hshapes hs hgrip
  have hs₁ := htook.ahead_eq hs
  have htaken := htook.snoc hs₁ (isTrivia_of_kind hop rfl)
  have hright := hr.assignment (by omega) _ _ (hplain.took htaken) (State.ahead_bump_of_ahead hs₁)
    hrest
  refine ⟨_, (htaken.trans hright).gather hshapes .binaryExpr, ?_⟩
  rw [hafter, after_commaTail (next_of_kind hs₁ hop)]

/-- **An expression that may stand at a place is read as it stands**, there and at all looser
places. -/
theorem readable_of_standsAt {m : Nat} (h : x.StandsAt m) (names : List Text) :
    Readable names m x := by
  -- by induction on the grammar: each production is read if its operands are
  induction h with
  | name ht => exact .ofPostfixed (.name ht) (by omega) ((readsAs_name ht).arrives postfixTail)
  | number ht =>
    exact .ofPostfixed (.number ht) (by omega) ((readsAs_number ht).arrives postfixTail)
  | paren ho hc hx ih =>
    exact .ofPostfixed (.paren ho hc hx) (by omega)
      ((readsAs_paren ho hc hx ih).arrives postfixTail)
  | step hop hx ih =>
    exact .ofPostfixed (.step hop hx) (by omega) (arrives_step hop (ih.postfixed (by omega)))
  | index ho hc hx hi ihx ihi =>
    exact .ofPostfixed (.index ho hc hx hi) (by omega)
      (arrives_index ho hc (ihx.postfixed (by omega)) ihi)
  | call ho hc hsep hf hargs ihf ihargs =>
    exact .ofPostfixed (.call ho hc hsep hf hargs) (by omega)
      (arrives_call ho hc hsep (ihf.postfixed (by omega)) hargs ihargs)
  | member hop hfield hx ih =>
    exact .ofPostfixed (.member hop hfield hx) (by omega)
      (arrives_member hop hfield (ih.postfixed (by omega)))
  | prefixed hop hx ih =>
    exact .ofUnary (by omega) (readsAs_prefixed hop (ih.unary (by omega))) fun h => by omega
  | cast ho hc hne hws hx ih =>
    exact .ofUnary (by omega) (readsAs_cast ho hc hne hws hx (ih.unary (by omega)))
      fun h => by omega
  | binary hlevel hpos hp _ _ ihl ihr =>
    exact .ofBinary hpos hp fun n hn hle => arrives_binary hlevel hpos hn hle hp ihl ihr
  | conditional hq hd _ ht _ ihc iht ihe =>
    exact .ofConditional (readsAs_conditional hq hd ht ihc iht ihe)
  | assign hop _ _ ihl ihr => exact .ofAssignment (readsAs_assign hop ihl ihr)
  | comma hop _ _ ihl ihr => exact .ofComma (arrives_comma hop ihl ihr)
  | loosen _ hle ih => exact ih.mono hle

end Grammar

end Whittle
