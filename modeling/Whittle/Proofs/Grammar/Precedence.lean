import Whittle.Proofs.Grammar.Confined
import Whittle.Proofs.Tree.Sketch

/-!
# Operators and their operands

A node of a binary operator has the operator and at most one operand on each side of it, also where
operands are missing. No operand binds looser than its side of the operator allows. This rests on
where the reading of operators of a level stops: the next operator binds looser than all of them.

* `Sketch.Binds`: whether an operand binds at least as tightly as a place asks.
* `Sketch.Operation`: an operator with operands that bind tightly enough.
* `Sketch.Ranked`: whether all operator nodes of a sketch are operations.
* `Construct.read_ranking`: **expressions are read as operands that bind as tightly as their
  construct says**, and all operator nodes are operations.
* `ranked_skeletons`: what follows for a file, sound or not.
-/

namespace Whittle

open Grammar

/-- How tightly a symbol binds as an operator between two operands, if it is one. The places are
numbered from loose to tight: commas are 1, assignments 2, conditionals 3, and the other operators
follow by their level. -/
def Grammar.Symbol.rank? (x : Symbol) : Option Nat :=
  match x.kind with
  | .comma => some 1
  | .assign | .assignOp => some 2
  | _ => if x.level = 0 then none else some (x.level + 3)

/-! ### Operations in sketches -/

namespace Sketch

variable {m n : Nat} {k : NodeKind} {x : Sketch} {xs ys : List Sketch} {B B' : Sketch → Prop}

/-- The rank of an operator. -/
def rank? : Sketch → Option Nat
  | .leaf x => x.rank?
  | .node _ _ => none

/-- Whether a sketch is an operand that binds at least as tightly as a place asks. -/
def Binds (place : Nat) : Sketch → Prop
  | .leaf _ => False
  | .node k parts =>
    (k = .binaryExpr → ∃ n, parts.findSome? rank? = some n ∧ place ≤ n) ∧
      (k = .conditionalExpr → place ≤ 3)

/-- Whether a sketch is an operand that fits every place. -/
def Tight (x : Sketch) : Prop := ∀ place, x.Binds place

theorem Binds.mono (h : x.Binds n) (hmn : m ≤ n) : x.Binds m := by
  cases x with
  | leaf y => exact h
  | node k parts =>
    refine ⟨fun hk => ?_, fun hk => Nat.le_trans hmn (h.2 hk)⟩
    obtain ⟨r, hr, hle⟩ := h.1 hk
    exact ⟨r, hr, Nat.le_trans hmn hle⟩

theorem tight_node (hbinary : k ≠ .binaryExpr) (hconditional : k ≠ .conditionalExpr) :
    (node k xs).Tight :=
  fun _ => ⟨fun hk => absurd hk hbinary, fun hk => absurd hk hconditional⟩

/-- The looser one of the places beside an operator. Assignments associate to the right. -/
def leftPlace (rank : Nat) : Nat := if rank = 2 then 3 else rank

/-- The place right of an operator. -/
def rightPlace (rank : Nat) : Nat := if rank = 2 then 2 else rank + 1

/-- At most one operand, which satisfies a condition. -/
structure Operands (B : Sketch → Prop) (xs : List Sketch) : Prop where
  length : xs.length ≤ 1
  forall_mem : ∀ x ∈ xs, B x

theorem Operands.mono (h : Operands B xs) (hB : ∀ x, B x → B' x) : Operands B' xs :=
  ⟨h.length, fun x hx => hB x (h.forall_mem x hx)⟩

theorem operands_nil : Operands B [] := ⟨Nat.zero_le _, nofun⟩

theorem operands_singleton (hx : B x) : Operands B [x] := ⟨Nat.le_refl _, by simpa using hx⟩

/-- **An operator with at most one operand on each side**, which binds as tightly as it must
there. -/
inductive Operation : List Sketch → Prop
  | intro {l r : List Sketch} {x : Symbol} {n : Nat} (hx : x.rank? = some n)
      (hl : Operands (Binds (leftPlace n)) l) (hr : Operands (Binds (rightPlace n)) r) :
      Operation (l ++ .leaf x :: r)

theorem findSome?_of_binds (h : ∀ x ∈ xs, x.Binds n) : xs.findSome? rank? = none := by
  refine List.findSome?_eq_none_iff.2 fun x hx => ?_
  cases x with
  | leaf y => exact (h _ hx).elim
  | node k parts => rfl

/-- An operation binds as tightly as its operator. -/
theorem binds_operation {x : Symbol} (hx : x.rank? = some n) (hxs : ∀ x ∈ xs, x.Binds m) :
    (node .binaryExpr (xs ++ .leaf x :: ys)).Binds n := by
  refine ⟨fun _ => ⟨n, ?_, Nat.le_refl n⟩, nofun⟩
  rw [List.findSome?_append, findSome?_of_binds hxs, Option.none_or, List.findSome?_cons]
  simp only [rank?, hx]

mutual

/-- Whether all operator nodes of a sketch are operations. -/
def Ranked : Sketch → Prop
  | .leaf _ => True
  | .node k parts => (k = .binaryExpr → Operation parts) ∧ RankedAll parts

/-- Whether all operator nodes of some sketches are operations. -/
def RankedAll : List Sketch → Prop
  | [] => True
  | x :: xs => x.Ranked ∧ RankedAll xs

end

@[simp] theorem ranked_leaf {y : Symbol} : (leaf y).Ranked := by simp [Ranked]

@[simp] theorem ranked_node :
    (node k xs).Ranked ↔ (k = .binaryExpr → Operation xs) ∧ RankedAll xs := by
  rw [Ranked]

@[simp] theorem rankedAll_nil : RankedAll [] := by simp [RankedAll]

@[simp] theorem rankedAll_cons : RankedAll (x :: xs) ↔ x.Ranked ∧ RankedAll xs := by
  rw [RankedAll]

@[simp] theorem rankedAll_append : RankedAll (xs ++ ys) ↔ RankedAll xs ∧ RankedAll ys := by
  induction xs with
  | nil => simp
  | cons x xs ih => simp [ih, and_assoc]

end Sketch

namespace Grammar

open Sketch

/-! ### Operands of states -/

namespace State

variable {s t u : State} {B B' : Sketch → Prop} {k : NodeKind}

/-- Whether operator nodes stay operations from one state to another. -/
def KeepsRanked (s t : State) : Prop := RankedAll s.sketches → RankedAll t.sketches

/-- Whether the innermost segment is an operand, or empty. -/
structure IsOperand (B : Sketch → Prop) (s : State) : Prop where
  operands : Operands B s.sketches
  ranked : RankedAll s.sketches

/-- Whether a state comes of another by an operand, or by nothing. -/
def AddsOperand (B : Sketch → Prop) (s t : State) : Prop :=
  ∃ xs, t.sketches = s.sketches ++ xs ∧ Operands B xs ∧ RankedAll xs

/-- Whether the next operator, if one comes next, is below a level. -/
def EndsLevel (level : Nat) (s : State) : Prop := s.view.level = 0 ∨ s.view.level < level

theorem IsOperand.mono (h : s.IsOperand B) (hB : ∀ x, B x → B' x) : s.IsOperand B' :=
  ⟨h.operands.mono hB, h.ranked⟩

theorem AddsOperand.mono (h : s.AddsOperand B t) (hB : ∀ x, B x → B' x) : s.AddsOperand B' t := by
  obtain ⟨xs, ht, hxs, hranked⟩ := h
  exact ⟨xs, ht, hxs.mono hB, hranked⟩

theorem AddsOperand.keepsRanked (h : s.AddsOperand B t) : s.KeepsRanked t := by
  obtain ⟨xs, ht, -, hranked⟩ := h
  intro hs
  rw [ht, rankedAll_append]
  exact ⟨hs, hranked⟩

/-- What an empty segment gets is an operand. -/
theorem AddsOperand.isOperand (h : s.AddsOperand B t) (hs : s.sketches = []) : t.IsOperand B := by
  obtain ⟨xs, ht, hxs, hranked⟩ := h
  rw [hs, List.nil_append] at ht
  exact ⟨ht ▸ hxs, ht ▸ hranked⟩

theorem IsOperand.addsOperand_joined (h : t.IsOperand B) : s.AddsOperand B (t.joined s) :=
  ⟨t.sketches, sketches_joined t s, h.operands, h.ranked⟩

theorem addsOperand_of_sketches_eq (h : t.sketches = s.sketches) : s.AddsOperand B t :=
  ⟨[], by rw [h, List.append_nil], operands_nil, rankedAll_nil⟩

/-- A segment becomes an operand that fits every place. -/
theorem isOperand_gather (hs : RankedAll s.sketches) (hbinary : k ≠ .binaryExpr)
    (hconditional : k ≠ .conditionalExpr) : (s.act (.gather k)).IsOperand Tight := by
  constructor
  · rw [sketches_gather]
    exact operands_singleton (tight_node hbinary hconditional)
  · rw [sketches_gather, rankedAll_cons, ranked_node]
    exact ⟨⟨fun hk => absurd hk hbinary, hs⟩, rankedAll_nil⟩

/-- The operand before an operator, the operator and the operand after it become an operation. -/
theorem isOperand_operation {m n : Nat} {x : Symbol} (hs : s.IsOperand (Binds (leftPlace n)))
    (hx : x.rank? = some n) (hahead : s.ahead.head? = some x)
    (ht : (s.act .bump).AddsOperand (Binds (rightPlace n)) t) (hm : m ≤ n) :
    (t.act (.gather .binaryExpr)).IsOperand (Binds m) := by
  obtain ⟨r, hparts, hr, hranked⟩ := ht
  have htaken : s.taken = [.leaf x] := by simp [taken, hahead]
  rw [sketches_bump, htaken, List.append_assoc, List.singleton_append] at hparts
  constructor
  · rw [sketches_gather, hparts]
    exact operands_singleton ((binds_operation hx hs.operands.forall_mem).mono hm)
  · rw [sketches_gather, hparts, rankedAll_cons, ranked_node]
    refine ⟨⟨fun _ => .intro hx hs.operands hr, ?_⟩, rankedAll_nil⟩
    simp [hs.ranked, hranked]

theorem keepsRanked_bump (s : State) : s.KeepsRanked (s.act .bump) := by
  intro hs
  rw [sketches_bump, rankedAll_append]
  refine ⟨hs, ?_⟩
  unfold taken
  cases s.ahead <;> simp

theorem lasting_keepsRanked {makes : NodeKind → Bool} (hmakes : makes .binaryExpr = false) :
    Lasting makes KeepsRanked where
  refl _ h := h
  trans h h' hs := h' (h hs)
  bump := keepsRanked_bump
  settle s hs := by rwa [sketches_settle]
  fault _ _ hs := hs
  declare s n b hs := (s.sketches_declaring (some n) b).symm ▸ hs
  gather s k hk hs := by
    rw [sketches_gather, rankedAll_cons, ranked_node]
    refine ⟨⟨?_, hs⟩, rankedAll_nil⟩
    rintro rfl
    rw [hmakes] at hk
    cases hk
  segment {s t} h hs := by
    have hsketches : ({ t with built := t.built ++ s.built } : State).sketches =
        s.sketches ++ t.sketches := by
      simp [sketches, trees]
    rw [hsketches, rankedAll_append]
    exact ⟨hs, h (by simp [sketches, trees])⟩
  scope _ h hs := h hs

end State

/-- **What expressions are read as**: operands that bind as tightly as their construct says. A tail
finds an operand and leaves one. -/
def ranking : Contract where
  pre
    | .commaTail, s => s.IsOperand (Binds 1)
    | .binaryTail level, s =>
      s.IsOperand (Binds (level + 3)) ∧ s.IsOperand (Binds (s.view.level + 3))
    | .postfixTail, s => s.IsOperand Tight
    | _, _ => True
  post
    | .expression, s, _, t => s.AddsOperand (Binds 1) t
    | .commaTail, _, _, t => t.IsOperand (Binds 1)
    | .assignment, s, _, t => s.AddsOperand (Binds 2) t
    | .conditional, s, _, t => s.AddsOperand (Binds 3) t
    | .binary level, s, _, t => s.AddsOperand (Binds (level + 3)) t ∧ t.EndsLevel level
    | .binaryTail level, _, _, t => t.IsOperand (Binds (level + 3)) ∧ t.EndsLevel level
    | .unary, s, _, t | .primary, s, _, t => s.AddsOperand Tight t
    | .postfixTail, _, _, t => t.IsOperand Tight
    | _, s, _, t => s.KeepsRanked t
  strict := false

namespace Rule

open State

variable {α : Type} {r : Rule α} {k : NodeKind}

/-- Constructs other than tails may be read everywhere and keep operations. -/
theorem ranking_read {c : Construct} (hc : c.isTail = false) (s : State) :
    ranking.pre c s ∧ ∀ r t, ranking.post c s r t → s.KeepsRanked t := by
  cases c with
  | commaTail | binaryTail | postfixTail => cases hc
  | expression | assignment | conditional | unary | primary =>
    exact ⟨trivial, fun _ _ h => h.keepsRanked⟩
  | binary level => exact ⟨trivial, fun _ _ h => h.1.keepsRanked⟩
  | _ => exact ⟨trivial, fun _ _ h => h⟩

/-- A rule that makes no operations itself keeps those there are. -/
theorem keepsRanked_of_confined
    (h : r.Confined (fun k => decide (k ≠ .binaryExpr)) (fun c => !c.isTail) fun _ => True)
    (s : State) : r.wp ranking s fun _ t => s.KeepsRanked t := by
  refine wp_mono (h.lasts (lasting_keepsRanked (by decide)) (fun c s hc => ?_) s) fun _ _ h => h.2
  exact ranking_read (by simpa using hc) s

/-- A node that is no operation and no conditional is an operand that fits every place. -/
theorem addsOperand_node (hbinary : k ≠ .binaryExpr) (hconditional : k ≠ .conditionalExpr)
    (h : r.Confined (fun k => decide (k ≠ .binaryExpr)) (fun c => !c.isTail) fun _ => True)
    (s : State) : (node k r).wp ranking s fun _ t => s.AddsOperand Tight t := by
  rw [wp_node]
  refine wp_mono (keepsRanked_of_confined h s.opened) fun _ t ht => ?_
  have hranked : RankedAll t.sketches := ht (by simp)
  exact (isOperand_gather hranked hbinary hconditional).addsOperand_joined

theorem addsOperand_apart {B : Sketch → Prop} {s : State}
    (h : r.wp ranking s.opened fun _ t => t.IsOperand B) :
    (apart r).wp ranking s fun _ t => s.AddsOperand B t :=
  wp_apart.2 (wp_mono h fun _ _ ht => ht.addsOperand_joined)

/-! ### Tails -/

theorem ranking_commaTail (s : State) (hs : s.IsOperand (Binds 1)) :
    commaTail.wp ranking s fun _ t => t.IsOperand (Binds 1) := by
  rw [commaTail, wp_ifAccepts]
  refine ⟨fun hnext => ?_, fun _ => hs⟩
  obtain ⟨x, rest, hahead, hx⟩ := next_eq_some hnext
  have hrank : x.rank? = some 1 := by simp [Symbol.rank?, hx]
  simp only [wp_bind, wp_read, wp_gather]
  refine ⟨trivial, fun _ t ht => ?_⟩
  have hoperation : (t.act (.gather .binaryExpr)).IsOperand (Binds 1) :=
    isOperand_operation (n := 1) hs hrank (by rw [hahead]; rfl) ht (Nat.le_refl 1)
  exact ⟨hoperation, fun _ _ h => h⟩

/-- The operator that comes next and its rank. -/
theorem rank?_of_level {s : State} (h : s.view.level ≠ 0) :
    ∃ x, s.ahead.head? = some x ∧ x.rank? = some (s.view.level + 3) := by
  unfold View.level at h ⊢
  rw [ahead_view] at h ⊢
  cases hahead : s.ahead with
  | nil => simp [hahead] at h
  | cons x rest =>
    rw [hahead] at h
    have hlevel : x.level ≠ 0 := h
    refine ⟨x, rfl, ?_⟩
    have hkind : x.kind ≠ .comma ∧ x.kind ≠ .assign ∧ x.kind ≠ .assignOp := by
      refine ⟨fun hk => hlevel ?_, fun hk => hlevel ?_, fun hk => hlevel ?_⟩ <;>
        simp [Symbol.level, hk]
    unfold Symbol.rank?
    split
    · next hk => exact absurd hk hkind.1
    · next hk => exact absurd hk hkind.2.1
    · next hk => exact absurd hk hkind.2.2
    · rw [if_neg hlevel]
      rfl

/-- The operand after an operator ends where the next operator binds no tighter, so that what is
made of them fits left of it. -/
theorem ranking_binaryTail (level : Nat) (s : State) (hs : s.IsOperand (Binds (level + 3)))
    (hnext : s.IsOperand (Binds (s.view.level + 3))) :
    (binaryTail level).wp ranking s fun _ t =>
      t.IsOperand (Binds (level + 3)) ∧ t.EndsLevel level := by
  simp only [binaryTail, wp_bind, wp_view, wp_ite, wp_pure, Bool.or_eq_true, decide_eq_true_eq,
    wp_bump, wp_read, wp_gather]
  refine ⟨fun hend => ⟨hs, hend⟩, fun hgoes => ?_⟩
  rw [not_or, Nat.not_lt] at hgoes
  obtain ⟨hlevel, hle⟩ := hgoes
  obtain ⟨x, hx, hrank⟩ := rank?_of_level hlevel
  have hleft : leftPlace (s.view.level + 3) = s.view.level + 3 := if_neg (by omega)
  have hright : rightPlace (s.view.level + 3) = s.view.level + 1 + 3 := by
    rw [rightPlace, if_neg (by omega)]
  refine ⟨trivial, fun _ t ht => ?_⟩
  obtain ⟨hoperand, hend⟩ := ht
  have hoperation {m : Nat} (hm : m ≤ s.view.level + 3) :
      (t.act (.gather .binaryExpr)).IsOperand (Binds m) :=
    isOperand_operation (by rwa [hleft]) hrank hx (by rwa [hright]) hm
  have hnext' : t.view.level ≤ s.view.level := by
    rcases hend with hzero | hlt <;> omega
  exact ⟨⟨hoperation (by omega), hoperation (by change t.view.level + 3 ≤ _; omega)⟩,
    fun _ _ h => h⟩

theorem ranking_postfixTail (s : State) (hs : s.IsOperand Tight) :
    postfixTail.wp ranking s fun _ t => t.IsOperand Tight := by
  -- whatever stands after the operand, it becomes a node with it
  have step {k : NodeKind} (hbinary : k ≠ .binaryExpr) (hconditional : k ≠ .conditionalExpr)
      {r : Rule Unit}
      (h : r.Confined (fun k => decide (k ≠ .binaryExpr)) (fun c => !c.isTail) fun _ => True) :
      (do r; gather k; read .postfixTail).wp ranking s fun _ t => t.IsOperand Tight := by
    simp only [wp_bind, wp_gather, wp_read]
    refine wp_mono (keepsRanked_of_confined h s) fun _ t ht => ?_
    exact ⟨isOperand_gather (ht hs.ranked) hbinary hconditional, fun _ _ h => h⟩
  rw [postfixTail, wp_bind, wp_next]
  split
  · exact step (r := read .argList) (by decide) (by decide) (by simp [Construct.isTail])
  · have hindex := step (k := .indexExpr)
      (r := do bump; read .expression; require .closeBracket .indexClose) (by decide) (by decide)
      (by simp [Construct.isTail, require])
    simpa only [wp_bind] using hindex
  · have hfield := step (k := .fieldExpr) (r := do bump; require .identifier .fieldName) (by decide)
      (by decide) (by simp [require])
    simpa only [wp_bind] using hfield
  · have hfield := step (k := .fieldExpr) (r := do bump; require .identifier .fieldName) (by decide)
      (by decide) (by simp [require])
    simpa only [wp_bind] using hfield
  · exact step (r := bump) (by decide) (by decide) (by simp)
  · exact step (r := bump) (by decide) (by decide) (by simp)
  · exact hs

/-! ### Expressions -/

theorem ranking_expression (s : State) :
    expression.wp ranking s fun _ t => s.AddsOperand (Binds 1) t := by
  refine addsOperand_apart ?_
  simp only [wp_bind, wp_read]
  refine ⟨trivial, fun _ t ht => ⟨?_, fun _ _ h => h⟩⟩
  exact (ht.isOperand (by simp)).mono fun x hx => hx.mono (by omega)

/-- An assignment takes what is no assignment on its left. -/
theorem ranking_assignment (s : State) :
    assignment.wp ranking s fun _ t => s.AddsOperand (Binds 2) t := by
  refine addsOperand_apart ?_
  rw [wp_bind, wp_read]
  refine ⟨trivial, fun _ t ht => ?_⟩
  have hleft : t.IsOperand (Binds 3) := ht.isOperand (by simp)
  have hassign {k : TokenKind} (hk : k = .assign ∨ k = .assignOp) (hnext : t.next = some k) :
      (do bump; read .assignment; gather .binaryExpr).wp ranking t fun _ u =>
        u.IsOperand (Binds 2) := by
    obtain ⟨x, rest, hahead, hx⟩ := next_eq_some hnext
    have hrank : x.rank? = some 2 := by
      rcases hk with rfl | rfl <;> simp [Symbol.rank?, hx]
    simp only [wp_bind, wp_bump, wp_read, wp_gather]
    refine ⟨trivial, fun _ u hu => ?_⟩
    exact isOperand_operation (n := 2) hleft hrank (by rw [hahead]; rfl) hu (Nat.le_refl 2)
  rw [wp_bind, wp_next]
  split
  · next hnext => exact hassign (.inl rfl) hnext
  · next hnext => exact hassign (.inr rfl) hnext
  · exact hleft.mono fun x hx => hx.mono (by omega)

theorem ranking_conditional (s : State) :
    conditional.wp ranking s fun _ t => s.AddsOperand (Binds 3) t := by
  refine addsOperand_apart ?_
  simp only [wp_bind, wp_read, wp_ifAccepts]
  refine ⟨trivial, fun _ t ht => ?_⟩
  have hfirst : t.IsOperand (Binds (1 + 3)) := ht.1.isOperand (by simp)
  refine ⟨fun _ => ?_, fun _ => hfirst.mono fun x hx => hx.mono (by omega)⟩
  have hrest : (do
      unlessSees .colon (read .expression)
      require .colon .conditionalColon
      read .conditional : Rule Unit).Confined (fun k => decide (k ≠ .binaryExpr))
        (fun c => !c.isTail) fun _ => True := by
    simp [unlessSees, require, Construct.isTail]
  have hkeeps := keepsRanked_of_confined hrest (t.act .bump)
  simp only [wp_bind, wp_read] at hkeeps
  refine wp_mono hkeeps fun _ u hu => wp_mono hu fun _ v hv => ?_
  refine ⟨hv.1, fun r w hw => ?_⟩
  have hranked : RankedAll w.sketches := hv.2 r w hw (keepsRanked_bump t hfirst.ranked)
  rw [wp_gather]
  constructor
  · rw [sketches_gather]
    exact operands_singleton ⟨by simp, fun _ => Nat.le_refl 3⟩
  · simpa using hranked

theorem ranking_binary (level : Nat) (s : State) : (binary level).wp ranking s fun _ t =>
    s.AddsOperand (Binds (level + 3)) t ∧ t.EndsLevel level := by
  rw [binary, wp_apart]
  simp only [wp_bind, wp_read]
  refine ⟨trivial, fun _ t ht => ?_⟩
  have hunary : t.IsOperand Tight := ht.isOperand (by simp)
  refine ⟨⟨hunary.mono fun x hx => hx _, hunary.mono fun x hx => hx _⟩, fun _ u hu => ?_⟩
  exact ⟨hu.1.addsOperand_joined, hu.2⟩

theorem ranking_typed (s : State) : typed.wp ranking s fun _ t => s.AddsOperand Tight t := by
  refine addsOperand_apart ?_
  have htype : (do bump; read .typeName; require .closeParen .typeClose : Rule Unit).Confined
      (fun k => decide (k ≠ .binaryExpr)) (fun c => !c.isTail) fun _ => True := by
    simp [require, Construct.isTail]
  have hkeeps := keepsRanked_of_confined htype s.opened
  simp only [wp_bind, wp_bump, wp_read] at hkeeps ⊢
  refine ⟨hkeeps.1, fun r t ht => wp_mono (hkeeps.2 r t ht) fun _ u hu => ?_⟩
  have hranked : RankedAll u.sketches := hu (by simp)
  rw [wp_sees, wp_ite]
  simp only [wp_bind, wp_read, wp_gather]
  refine ⟨fun _ => ⟨trivial, fun _ v hv => ?_⟩, fun _ => ⟨trivial, fun _ v hv => ?_⟩⟩
  · exact ⟨isOperand_gather (hv hranked) (by decide) (by decide), fun _ _ h => h⟩
  · exact isOperand_gather (hv.keepsRanked hranked) (by decide) (by decide)

theorem ranking_postfixed (s : State) :
    postfixed.wp ranking s fun _ t => s.AddsOperand Tight t := by
  refine addsOperand_apart ?_
  simp only [wp_bind, wp_read]
  exact ⟨trivial, fun _ t ht => ⟨ht.isOperand (by simp), fun _ _ h => h⟩⟩

theorem ranking_unary (s : State) : unary.wp ranking s fun _ t => s.AddsOperand Tight t := by
  have hprefixed : prefixed.wp ranking s fun _ t => s.AddsOperand Tight t :=
    addsOperand_node (by decide) (by decide) (by simp [Construct.isTail]) s
  have haddress : labelAddress.wp ranking s fun _ t => s.AddsOperand Tight t :=
    addsOperand_node (by decide) (by decide) (by simp [require]) s
  have hsizeof : sizeofExpression.wp ranking s fun _ t => s.AddsOperand Tight t :=
    addsOperand_node (by decide) (by decide) (by simp [require, ifSees, Construct.isTail]) s
  rw [unary, wp_bind, wp_view]
  split
  case h_9 =>
    split
    · exact haddress
    · exact ranking_postfixed s
  case h_10 =>
    split
    · exact hprefixed
    · exact ranking_postfixed s
  case h_11 => exact hsizeof
  case h_12 =>
    split
    · exact ranking_typed s
    · exact ranking_postfixed s
  case h_13 => exact ranking_postfixed s
  all_goals exact hprefixed

theorem ranking_primary (s : State) : primary.wp ranking s fun _ t => s.AddsOperand Tight t := by
  have hfault : (fault .noExpression).wp ranking s fun _ t => s.AddsOperand Tight t :=
    wp_fault.2 (.inr (addsOperand_of_sketches_eq rfl))
  have hreject : (reject .noExpression).wp ranking s fun _ t => s.AddsOperand Tight t := by
    rw [reject, wp_bind, wp_fault]
    exact .inr (addsOperand_node (by decide) (by decide) (by simp) (s.act (.fault .noExpression)))
  rw [primary, wp_bind, wp_view]
  split
  · exact addsOperand_node (by decide) (by decide) (by simp) s
  · exact addsOperand_node (by decide) (by decide) (by simp) s
  · exact addsOperand_node (by decide) (by decide) (by simp) s
  · exact addsOperand_node (by decide) (by decide) (by simp [Construct.isTail]) s
  · split
    · exact addsOperand_node (by decide) (by decide) (by simp [require, Construct.isTail]) s
    · exact addsOperand_node (by decide) (by decide) (by simp [require, Construct.isTail]) s
  case h_12 => exact hreject
  all_goals exact hfault

/-- **Each rule reads operands as its construct says.** -/
theorem rule_ranking (c : Construct) (s : State) (hpre : ranking.pre c s) :
    c.rule.wp ranking s (ranking.post c s) := by
  by_cases hbinary : .binaryExpr ∈ c.makes
  · cases c with
    | commaTail => exact ranking_commaTail s hpre
    | assignment => exact ranking_assignment s
    | binaryTail level => exact ranking_binaryTail level s hpre.1 hpre.2
    | _ => simp [Construct.makes] at hbinary
  · have hkeeps (hc : ∀ c', c.mayRead c' = true → c'.isTail = false) :
        c.rule.wp ranking s fun _ t => s.KeepsRanked t := by
      refine wp_mono ((confined_rule c).lasts (lasting_keepsRanked (decide_eq_false hbinary)) ?_ s)
        fun _ _ h => h.2
      exact fun c' t hread => ranking_read (hc c' hread) t
    cases c with
    | expression => exact ranking_expression s
    | conditional => exact ranking_conditional s
    | binary level => exact ranking_binary level s
    | unary => exact ranking_unary s
    | primary => exact ranking_primary s
    | postfixTail => exact ranking_postfixTail s hpre
    | commaTail | assignment | binaryTail => simp [Construct.makes] at hbinary
    | _ =>
      refine hkeeps fun c' hread => ?_
      cases c' with
      | commaTail | binaryTail | postfixTail => cases hread
      | _ => rfl

end Rule

/-- **Expressions are read as operands** that bind as tightly as their construct says. -/
theorem Construct.read_ranking (c : Construct) (s : State) (hstarts : c.Starts s.next)
    (hpre : ranking.pre c s) : ranking.post c s (c.read s).1 (c.read s).2 :=
  Construct.read_post (fun c s _ hpre => Rule.rule_ranking c s hpre) c s hstarts hpre
    fun h => by cases h

/-- All operator nodes of a file are operations. -/
theorem ranked_skeletons (symbols : List Symbol) :
    RankedAll (Skeleton.sketchAll (skeletons symbols)) := by
  have hread : (State.initial symbols).KeepsRanked (State.final symbols) :=
    Construct.read_ranking .declarations (.initial symbols) trivial trivial
  have hfinal : RankedAll (State.final symbols).sketches :=
    hread (by simp [State.initial, State.sketches, State.trees])
  rw [skeletons, List.reverse_cons, Skeleton.sketchAll_append, rankedAll_append]
  exact ⟨hfinal, by simp⟩

end Grammar

end Whittle
