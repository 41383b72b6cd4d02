import Whittle.Fault
import Whittle.Grammar.Construct
import Whittle.Tree.Skeleton

/-!
# Rules

A rule describes how one construct of the language is read: it looks ahead, consumes symbols, notes
faults, declares names and reads other constructs. Rules are data. `Rule.run` carries one out on a
`State`, given the way in which constructs are read.

* `View`: what a rule can see, the symbols ahead and the names in scope.
* `State`: what reading has come to: the view, the trees built so far and the faults noticed.
* `Rule.segment`: builds trees apart from those before them; `Rule.gather` makes one node of the
  trees of the innermost segment.
* `Rule.scope`: reads with a scope of its own, which ends with it.
-/

namespace Whittle.Grammar

/-- What a rule can see. -/
structure View where
  /-- The symbols that are not consumed yet. -/
  ahead : List Symbol
  /-- The names of the scopes around, the innermost first. -/
  scopes : List Names

namespace View

/-- The kind of the symbol `n` places ahead. -/
def kindAt (v : View) (n : Nat) : Option TokenKind := v.ahead[n]?.map (·.kind)

/-- What the spelling of the symbol `n` places ahead adds to its kind. -/
def senseAt (v : View) (n : Nat) : Sense := (v.ahead[n]?.map (·.sense)).getD .plain

/-- The number of the name `n` places ahead. -/
def nameAt (v : View) (n : Nat) : Nat := (v.ahead[n]?.map (·.name)).getD 0

/-- The level of the binary operator that comes next, zero if none does. -/
def level (v : View) : Nat := (v.ahead.head?.map (·.level)).getD 0

/-- Whether a name means a type here: its latest declaration in the innermost scope that has one
is a typedef. -/
def isTypedef (v : View) (name : Nat) : Bool :=
  (v.scopes.findSome? (·.find? name)).getD false

/-- Whether the symbol `n` places ahead is the name of a type. -/
def isTypeName (v : View) (n : Nat) : Bool :=
  v.kindAt n = some .identifier && v.isTypedef (v.nameAt n)

/-- Whether a type starts `n` places ahead. -/
def startsType (v : View) (n : Nat) : Bool :=
  match v.kindAt n with
  | some .specifier => v.senseAt n ≠ .extension
  | some .kwStruct | some .kwUnion | some .kwEnum | some .kwTypeof => true
  | some .identifier => v.isTypedef (v.nameAt n)
  | _ => false

/-- Whether a declaration starts here. A name of a type before a colon is a label, and an extension
mark before a parenthesis belongs to an expression. -/
def startsDeclaration (v : View) : Bool :=
  match v.kindAt 0 with
  | some .kwTypedef | some .kwExtern | some .kwStatic | some .kwStruct | some .kwUnion
  | some .kwEnum | some .kwTypeof | some .kwAttribute => true
  | some .specifier => v.senseAt 0 ≠ .extension || v.kindAt 1 ≠ some .openParen
  | some .identifier => v.isTypedef (v.nameAt 0) && v.kindAt 1 ≠ some .colon
  | _ => false

/-- Whether the parenthesis that comes next encloses a declarator and not parameters. -/
def opensDeclarator (v : View) : Bool :=
  match v.kindAt 1 with
  | some .star | some .openParen | some .openBracket | some .kwAttribute => true
  | some .identifier => !v.isTypedef (v.nameAt 1)
  | _ => false

end View

/-- What reading has come to. -/
structure State where
  /-- The symbols that are not consumed yet. -/
  ahead : List Symbol
  /-- The names of the open scopes, the innermost first. -/
  scopes : List Names
  /-- The trees of the innermost segment, the latest first. -/
  built : List Skeleton
  /-- The faults noticed, the latest first, each with the number of symbols that lay ahead. -/
  faults : List (Fault × Nat)
  /-- Set when a construct was to be read again with nothing consumed in between. -/
  stalled : Bool

namespace State

/-- What a rule sees of a state. -/
def view (s : State) : View := ⟨s.ahead, s.scopes⟩

end State

/-- A single effect of a rule. -/
inductive Action where
  /-- Consume the next symbol. -/
  | bump
  /-- Let the trivia ahead settle here. -/
  | settle
  /-- Make one node of all trees of the innermost segment. -/
  | gather (kind : NodeKind)
  /-- Note a fault at the next symbol. -/
  | fault (fault : Fault)
  /-- Declare a name in the innermost scope, as the name of a type or of something else. -/
  | declare (name : Nat) (isTypedef : Bool)

/-- The effect of an action. -/
def State.act (s : State) : Action → State
  | .bump =>
    match s.ahead with
    | [] => { s with built := .slot :: s.built }
    | x :: rest => { s with ahead := rest, built := .leaf x :: s.built }
  | .settle => { s with built := .slot :: s.built }
  | .gather kind => { s with built := [.node kind s.built.reverse] }
  | .fault fault => { s with faults := (fault, s.ahead.length) :: s.faults }
  | .declare name isTypedef =>
    match s.scopes with
    | [] => s
    | top :: below => { s with scopes := top.declare name isTypedef :: below }

/-- How a construct is read, with a result of type `α`. -/
inductive Rule : Type → Type 1 where
  | done {α : Type} (a : α) : Rule α
  /-- Look at what lies ahead. -/
  | look {α : Type} (next : View → Rule α) : Rule α
  | act {α : Type} (action : Action) (next : Rule α) : Rule α
  /-- Build the trees of `inner` apart; they join those before them when it ends. -/
  | segment {α β : Type} (inner : Rule β) (next : β → Rule α) : Rule α
  /-- Read `inner` in a new scope that starts with some names. When it ends the scope is closed,
  and its names go along with the result. -/
  | scope {α β : Type} (names : Names) (inner : Rule β) (next : β → Names → Rule α) : Rule α
  /-- Read a construct. -/
  | call {α : Type} (construct : Construct) (next : construct.Result → Rule α) : Rule α

namespace Rule

/-- One rule after another. -/
def bind {α β : Type} : Rule α → (α → Rule β) → Rule β
  | .done a, f => f a
  | .look next, f => .look fun v => (next v).bind f
  | .act action next, f => .act action (next.bind f)
  | .segment inner next, f => .segment inner fun b => (next b).bind f
  | .scope names inner next, f => .scope names inner fun b ns => (next b ns).bind f
  | .call c next, f => .call c fun r => (next r).bind f

instance : Monad Rule where
  pure := .done
  bind := .bind

/-- How constructs are read. -/
abbrev Reader := (c : Construct) → State → c.Result × State

/-- Carry out a rule, reading constructs with `read`. -/
def run (read : Reader) {α : Type} : Rule α → State → α × State
  | .done a, s => (a, s)
  | .look next, s => (next s.view).run read s
  | .act action next, s => next.run read (s.act action)
  | .segment inner next, s =>
    let r := inner.run read { s with built := [] }
    (next r.1).run read { r.2 with built := r.2.built ++ s.built }
  | .scope names inner next, s =>
    let r := inner.run read { s with scopes := names :: s.scopes }
    (next r.1 (r.2.scopes.head?.getD [])).run read { r.2 with scopes := r.2.scopes.tail }
  | .call c next, s =>
    let r := read c s
    (next r.1).run read r.2

@[simp] theorem run_pure (read : Reader) {α : Type} (a : α) (s : State) :
    (pure a : Rule α).run read s = (a, s) := rfl

/-- One rule after another is carried out by carrying out one after the other. -/
@[simp] theorem run_bind (read : Reader) {α β : Type} (r : Rule α) (f : α → Rule β) (s : State) :
    (r >>= f).run read s = (f (r.run read s).1).run read (r.run read s).2 := by
  change (r.bind f).run read s = _
  induction r generalizing s with
  | done a => rfl
  | look next ih => exact ih s.view f s
  | act action next ih => exact ih f (s.act action)
  | segment inner next _ ih => exact ih _ f _
  | scope names inner next _ ih => exact ih _ _ f _
  | call c next ih => exact ih _ f _

/-! ### Steps from which rules are made -/

/-- What lies ahead. -/
def view : Rule View := .look .done

/-- The kind of the next symbol. -/
def next : Rule (Option TokenKind) := .look fun v => .done (v.kindAt 0)

/-- Whether the next symbol is of a kind. -/
def sees (kind : TokenKind) : Rule Bool := .look fun v => .done (v.kindAt 0 == some kind)

/-- The number of symbols ahead. -/
def remaining : Rule Nat := .look fun v => .done v.ahead.length

/-- Whether no symbol is left, or the next one is of a kind. -/
def endsAt (kind : TokenKind) : Rule Bool :=
  .look fun v => .done (v.ahead.isEmpty || v.kindAt 0 == some kind)

/-- Consume the next symbol. -/
def bump : Rule Unit := .act .bump (.done ())

/-- Let the trivia ahead settle here. -/
def settle : Rule Unit := .act .settle (.done ())

/-- Make one node of all trees of the innermost segment. -/
def gather (kind : NodeKind) : Rule Unit := .act (.gather kind) (.done ())

/-- Note a fault at the next symbol. -/
def fault (f : Fault) : Rule Unit := .act (.fault f) (.done ())

/-- Declare a name in the innermost scope, if there is a name. -/
def declare (name : Option Nat) (isTypedef : Bool) : Rule Unit :=
  match name with
  | some n => .act (.declare n isTypedef) (.done ())
  | none => .done ()

/-- Read a construct. -/
def read (c : Construct) : Rule c.Result := .call c .done

/-- Settle trivia, then build the trees of a rule apart from those before them. -/
def apart {α : Type} (inner : Rule α) : Rule α := do
  settle
  .segment inner .done

/-- A node with the trees of a rule as its children. -/
def node {α : Type} (kind : NodeKind) (inner : Rule α) : Rule α :=
  apart do
    let a ← inner
    gather kind
    return a

/-- A node that holds the next symbol. -/
def leafNode (kind : NodeKind) : Rule Unit := node kind bump

/-- Read in a new scope; gives the names that the scope ends with. -/
def inScope (names : Names) (inner : Rule Unit) : Rule Names :=
  .scope names inner fun _ ns => .done ns

/-- Consume the next symbol if it is of a kind, and say whether it was. -/
def accept (kind : TokenKind) : Rule Bool := do
  if ← sees kind then
    bump
    return true
  else
    return false

/-- Carry out a rule if the next symbol is of a kind. -/
def ifSees (kind : TokenKind) (inner : Rule Unit) : Rule Unit := do
  if ← sees kind then inner

/-- Carry out a rule unless the next symbol is of a kind. -/
def unlessSees (kind : TokenKind) (inner : Rule Unit) : Rule Unit := do
  unless ← sees kind do inner

/-- Consume the next symbol if it is of a kind, and then carry out a rule. -/
def ifAccepts (kind : TokenKind) (inner : Rule Unit) : Rule Unit := do
  if ← accept kind then inner

/-- Consume the next symbol if it is of a kind. -/
def optional (kind : TokenKind) : Rule Unit := do
  if ← sees kind then bump

/-- Consume the next symbol if it is of a kind, else note a fault. -/
def require (kind : TokenKind) (f : Fault) : Rule Unit := do
  if ← sees kind then bump else fault f

/-- Consume the next symbol if it is of a kind and then carry out a rule, else note a fault. -/
def requireThen (kind : TokenKind) (f : Fault) (inner : Rule Unit) : Rule Unit := do
  if ← accept kind then inner else fault f

/-- Note a fault and put the next symbol into a node of its own. -/
def reject (f : Fault) : Rule Unit := do
  fault f
  leafNode .error

/-- Carry out a rule; if it consumed nothing, reject the next symbol. -/
def orReject (inner : Rule Unit) (f : Fault) : Rule Unit := do
  let before ← remaining
  inner
  if (← remaining) = before then reject f

end Rule

end Whittle.Grammar
