import Whittle.Proofs.Grammar.Abstraction

/-!
# What nodes end with

Where a construct turns out to be empty, the trivia ahead have settled before it. A node that has
such a construct last would end with trivia. In a file without faults something follows in the same
node, except in the head of a `for` statement, where a comma may be followed by nothing.

* `Skeleton.Neat`: the nodes of a skeleton are empty or end with a symbol.
* `trailing`: what a segment ends with, as an abstraction of its trees.
* `Rule.rule_trailing`: **each rule ends as its construct should.**
* `neat_skeletons`: the nodes of a file without faults are neat.
-/

namespace Whittle

open Grammar

/-! ### Neat skeletons -/

namespace Skeleton

/-- Whether an empty member of a declaration comes last, after a comma. -/
def Dangling (ss : List Skeleton) : Prop :=
  ∃ rs x ms, ss = rs ++ [.leaf x, .slot, .node .initDeclarator ms] ∧ x.kind = .comma ∧
    symbolsAll ms = []

mutual

/-- Whether each node of a skeleton is empty or ends with a symbol. In the head of a `for` statement
an empty member of a declaration may come last. -/
def Neat (inFor : Bool) : Skeleton → Prop
  | .leaf _ => True
  | .slot => True
  | .node kind children =>
    (symbolsAll children = [] ∨ clearAfterAll true children = false ∨
      inFor = true ∧ kind = .declGroup ∧ Dangling children) ∧
    NeatAll (kind = .forStmt) children

/-- Whether each node of some skeletons is empty or ends with a symbol. -/
def NeatAll (inFor : Bool) : List Skeleton → Prop
  | [] => True
  | s :: ss => s.Neat inFor ∧ NeatAll inFor ss

end

variable {b b' : Bool} {s : Skeleton} {ss rs : List Skeleton}

@[simp] theorem neat_leaf {x : Symbol} : (leaf x).Neat b := by simp [Neat]

@[simp] theorem neat_slot : slot.Neat b := by simp [Neat]

@[simp] theorem neat_node {k : NodeKind} : (node k ss).Neat b ↔
    (symbolsAll ss = [] ∨ clearAfterAll true ss = false ∨
      b = true ∧ k = .declGroup ∧ Dangling ss) ∧ NeatAll (k = .forStmt) ss := by
  rw [Neat]

@[simp] theorem neatAll_nil : NeatAll b [] := by simp [NeatAll]

@[simp] theorem neatAll_cons : NeatAll b (s :: ss) ↔ s.Neat b ∧ NeatAll b ss := by rw [NeatAll]

@[simp] theorem neatAll_append : NeatAll b (ss ++ rs) ↔ NeatAll b ss ∧ NeatAll b rs := by
  induction ss with
  | nil => simp
  | cons s ss ih => simp [ih, and_assoc]

/-- In the head of a `for` statement more is neat. -/
theorem NeatAll.mono (hb : b = true → b' = true) (h : NeatAll b ss) : NeatAll b' ss := by
  induction ss with
  | nil => simp
  | cons s ss ih =>
    rw [neatAll_cons] at h ⊢
    refine ⟨?_, ih h.2⟩
    cases s with
    | leaf x => simp
    | slot => simp
    | node k cs =>
      obtain ⟨⟨hend, hbelow⟩, -⟩ := h
      refine ⟨?_, hbelow⟩
      rcases hend with hend | hend | ⟨hfor, hgroup⟩
      · exact .inl hend
      · exact .inr (.inl hend)
      · exact .inr (.inr ⟨hb hfor, hgroup⟩)

theorem clearAfterAll_append (ss rs : List Skeleton) (clear : Bool) :
    clearAfterAll clear (ss ++ rs) = clearAfterAll (clearAfterAll clear ss) rs := by
  induction ss generalizing clear with
  | nil => rfl
  | cons s ss ih => exact ih _

end Skeleton

namespace Grammar

open Skeleton

/-! ### What a segment ends with -/

/-- What is known of the end of a segment. -/
inductive Tail where
  /-- There are no symbols in it. -/
  | blank
  /-- It is just an empty member of a declaration. -/
  | member
  /-- A symbol. -/
  | closed
  | comma
  /-- A comma, and what trivia follow. -/
  | commaSlot
  /-- A comma, what trivia follow and an empty member of a declaration. -/
  | dangling
  /-- Nothing. -/
  | opened
deriving DecidableEq

namespace Tail

/-- Trivia settle. -/
def settle : Tail → Tail
  | .blank | .member => .blank
  | .comma => .commaSlot
  | _ => .opened

/-- What an empty node leaves. -/
def reopen : Tail → Tail
  | .blank | .member => .blank
  | _ => .opened

/-- Whether a segment that ends so may become a node of a kind. -/
def fits (k : NodeKind) : Tail → Bool
  | .blank | .member | .closed | .comma => true
  | .dangling => k = .declGroup
  | _ => false

def gather (k : NodeKind) : Tail → Tail
  | .blank | .member => if k = .initDeclarator then .member else .blank
  | .closed | .comma => .closed
  | _ => .opened

/-- One segment joins another. -/
def join (t : Tail) : Tail → Tail
  | .blank => t.reopen
  | .member => if t = .commaSlot then .dangling else t.reopen
  | u => u

@[simp] theorem settle_blank : blank.settle = blank := rfl

@[simp] theorem settle_closed : closed.settle = opened := rfl

@[simp] theorem settle_comma : comma.settle = commaSlot := rfl

@[simp] theorem reopen_settle (t : Tail) : t.settle.reopen = t.reopen := by cases t <;> rfl

@[simp] theorem reopen_blank : blank.reopen = blank := rfl

@[simp] theorem reopen_closed : closed.reopen = opened := rfl

@[simp] theorem reopen_opened : opened.reopen = opened := rfl

@[simp] theorem fits_blank (k : NodeKind) : blank.fits k = true := rfl

@[simp] theorem fits_member (k : NodeKind) : member.fits k = true := rfl

@[simp] theorem fits_closed (k : NodeKind) : closed.fits k = true := rfl

@[simp] theorem fits_dangling (k : NodeKind) : dangling.fits k = (k = .declGroup : Bool) := rfl

@[simp] theorem gather_blank (k : NodeKind) :
    blank.gather k = if k = .initDeclarator then member else blank := rfl

@[simp] theorem gather_closed (k : NodeKind) : closed.gather k = closed := rfl

@[simp] theorem join_blank (t : Tail) : t.join blank = t.reopen := rfl

@[simp] theorem join_member (t : Tail) :
    t.join member = if t = commaSlot then dangling else t.reopen := rfl

@[simp] theorem join_closed (t : Tail) : t.join closed = closed := rfl

/-- What is known, as a condition on trees. -/
def Holds (ss : List Skeleton) : Tail → Prop
  | .blank => symbolsAll ss = []
  | .member => ∃ ms, ss = [.node .initDeclarator ms] ∧ symbolsAll ms = []
  | .closed => clearAfterAll true ss = false
  | .comma => ∃ rs x, ss = rs ++ [.leaf x] ∧ x.kind = .comma
  | .commaSlot => ∃ rs x, ss = rs ++ [.leaf x, .slot] ∧ x.kind = .comma
  | .dangling => Dangling ss
  | .opened => True

end Tail

/-- What is known of a segment. -/
structure Trailing where
  /-- Whether all its nodes are neat. -/
  sound : Bool
  /-- Whether they are only as the head of a `for` statement. -/
  lenient : Bool
  /-- What it ends with. -/
  tail : Tail

namespace Trailing

def bump (k : TokenKind) (d : Trailing) : Trailing :=
  { d with tail := if k = .comma then .comma else .closed }

def settle (d : Trailing) : Trailing := { d with tail := d.tail.settle }

def gather (k : NodeKind) (d : Trailing) : Trailing :=
  { sound := d.sound && (!d.lenient || k = .forStmt) && d.tail.fits k
    lenient := k = .declGroup && d.tail = .dangling
    tail := d.tail.gather k }

def join (d e : Trailing) : Trailing :=
  { sound := d.sound && e.sound
    lenient := d.lenient || e.lenient
    tail := d.tail.join e.tail }

/-- What is known, as a condition on trees. -/
structure Holds (d : Trailing) (ss : List Skeleton) : Prop where
  sound : d.sound = true → NeatAll d.lenient ss
  tail : d.tail.Holds ss

/-- What most constructs leave as it is. -/
def Same (d d' : Trailing) : Prop := d'.sound = d.sound ∧ d'.lenient = d.lenient

/-- Something that ends with a symbol comes last. -/
def Closes (d d' : Trailing) : Prop := d.Same d' ∧ d'.tail = .closed

/-- Something that ends with a symbol comes last, or nothing is added. -/
def Extends (ahead : List Symbol) (d : Trailing) (ahead' : List Symbol) (d' : Trailing) : Prop :=
  d.Same d' ∧ (d'.tail = .closed ∨ d.tail ≠ .closed ∧ d'.tail = d.tail ∧ ahead' = ahead)

end Trailing

/-- How the trees of a construct end. -/
inductive Ending where
  /-- With a symbol. -/
  | closed
  /-- With a symbol, if it has any. -/
  | optional
  /-- With a symbol, if it has any, and trivia have settled before it. -/
  | apart
  /-- As the members of a declaration do. -/
  | members
  /-- In some way, before something that closes it. -/
  | list
  /-- In some way, if the next symbol is one of some kinds. -/
  | before (ks : List TokenKind)
  /-- Perhaps with an empty member, if a semicolon follows. -/
  | head

namespace Construct

/-- How the trees of a construct end. -/
def ending : Construct → Ending
  | .attributes _ | .pointers | .suffixes _ _ | .series _ | .specifierList _ _ | .designatorParts
  | .labelBody => .optional
  | .specifiers | .declarator => .apart
  | .moreDeclarators _ => .members
  | .declarations | .blockItems | .fields | .fieldDeclarators | .enumerators | .initializers
  | .asmOperands | .parameterDeclarations => .list
  | .params | .args => .before [.closeParen]
  | .param | .typeName => .before [.comma, .closeParen]
  | .declaration .forHead => .head
  | _ => .closed

/-- The kinds of symbols that a construct which may be empty takes for sure. -/
def firsts : Construct → List TokenKind
  | .series .strings => [.string]
  | .designatorParts => [.dot, .openBracket]
  | _ => []

end Construct

/-- **What a segment ends with.** -/
def trailing : Abstraction Trailing where
  start := ⟨true, false, .blank⟩
  bump := Trailing.bump
  settle := Trailing.settle
  gather := Trailing.gather
  join := Trailing.join
  pre c _ d := c.isTail = true → d.lenient = false ∧ d.tail = .closed
  post c ahead d ahead' d' :=
    match c.ending with
    | .closed => d.Closes d'
    | .optional => d.Same d' ∧ (d'.tail = .closed ∨
        d.tail ≠ .closed ∧ d'.tail = d.tail ∧ ahead' = ahead ∧
          ∀ k ∈ c.firsts, peek ahead 0 ≠ some k)
    | .apart => d.Same d' ∧ (d'.tail = .closed ∨ d'.tail = d.tail.reopen ∧ ahead' = ahead)
    | .members => d.Same d' ∧ (d'.tail = .closed ∨ d'.tail = .dangling ∨
        d.tail ≠ .closed ∧ d'.tail = d.tail ∧ ahead' = ahead ∧ peek ahead 0 ≠ some .comma)
    | .list => d.Same d'
    | .before ks => (∃ k ∈ ks, peek ahead' 0 = some k) → d.Same d'
    | .head => peek ahead' 0 = some .semicolon → d'.sound = d.sound

namespace Tail

variable {t : Tail} {ss rs : List Skeleton}

theorem Holds.settle (h : t.Holds ss) : t.settle.Holds (ss ++ [.slot]) := by
  cases t with
  | blank => simpa [Tail.settle, Holds, symbolsAll, symbols] using h
  | member =>
    obtain ⟨ms, rfl, hms⟩ := h
    simpa [Tail.settle, Holds, symbolsAll, symbols] using hms
  | comma =>
    obtain ⟨rs, x, rfl, hx⟩ := h
    exact ⟨rs, x, by simp, hx⟩
  | _ => trivial

/-- What is known to be empty has no symbols. -/
theorem Holds.symbols (h : t.Holds ss) (ht : t = .blank ∨ t = .member) : symbolsAll ss = [] := by
  rcases ht with rfl | rfl
  · exact h
  · obtain ⟨ms, rfl, hms⟩ := h
    simpa [symbolsAll, Skeleton.symbols] using hms

theorem Holds.closed (h : t.Holds ss) (ht : t = .closed ∨ t = .comma) :
    clearAfterAll true ss = false := by
  rcases ht with rfl | rfl
  · exact h
  · obtain ⟨rs, x, rfl, -⟩ := h
    rw [clearAfterAll_append]
    simp [clearAfterAll, clearAfter]

theorem Holds.gather (k : NodeKind) (h : t.Holds ss) : (t.gather k).Holds [.node k ss] := by
  have hblank (ht : t = .blank ∨ t = .member) :
      (if k = .initDeclarator then Tail.member else .blank).Holds [.node k ss] := by
    have hss := h.symbols ht
    split
    · next hk => exact ⟨ss, by rw [hk], hss⟩
    · simpa [Holds, symbolsAll, Skeleton.symbols] using hss
  have hclosed (ht : t = .closed ∨ t = .comma) : Tail.closed.Holds [.node k ss] := by
    have hss := h.closed ht
    simpa [Holds, clearAfterAll, clearAfter] using hss
  cases t with
  | blank => exact hblank (.inl rfl)
  | member => exact hblank (.inr rfl)
  | closed => exact hclosed (.inl rfl)
  | comma => exact hclosed (.inr rfl)
  | _ => trivial

theorem Holds.reopen (h : t.Holds ss) (hrs : symbolsAll rs = []) : t.reopen.Holds (ss ++ rs) := by
  have hblank (ht : t = .blank ∨ t = .member) : Tail.blank.Holds (ss ++ rs) := by
    simp [Holds, h.symbols ht, hrs]
  cases t with
  | blank => exact hblank (.inl rfl)
  | member => exact hblank (.inr rfl)
  | _ => trivial

theorem Holds.join {u : Tail} (h : t.Holds ss) (h' : u.Holds rs) :
    (t.join u).Holds (ss ++ rs) := by
  cases u with
  | blank => exact h.reopen h'
  | member =>
    by_cases ht : t = .commaSlot
    · subst ht
      obtain ⟨rs', x, rfl, hx⟩ := h
      obtain ⟨ms, rfl, hms⟩ := h'
      exact ⟨rs', x, ms, by simp, hx, hms⟩
    · rw [Tail.join, if_neg ht]
      exact h.reopen (h'.symbols (.inr rfl))
  | closed =>
    have hclosed : clearAfterAll true rs = false := h'
    have hclosed' : clearAfterAll false rs = false := by
      cases hclear : clearAfterAll false rs with
      | false => rfl
      | true => rw [clearAfterAll_of_clear rs hclear] at hclosed; cases hclosed
    change clearAfterAll true (ss ++ rs) = false
    rw [clearAfterAll_append]
    cases clearAfterAll true ss with
    | true => exact hclosed
    | false => exact hclosed'
  | comma =>
    obtain ⟨rs', x, rfl, hx⟩ := h'
    exact ⟨ss ++ rs', x, by simp, hx⟩
  | commaSlot =>
    obtain ⟨rs', x, rfl, hx⟩ := h'
    exact ⟨ss ++ rs', x, by simp, hx⟩
  | dangling =>
    obtain ⟨rs', x, ms, rfl, hx, hms⟩ := h'
    exact ⟨ss ++ rs', x, ms, by simp, hx, hms⟩
  | opened => trivial

end Tail

theorem trailing_sound : trailing.Sound Trailing.Holds where
  start := ⟨fun _ => neatAll_nil, rfl⟩
  bump {d ss} x h := by
    refine ⟨fun hd => neatAll_append.2 ⟨h.sound hd, by simp⟩, ?_⟩
    change (if x.kind = .comma then Tail.comma else .closed).Holds (ss ++ [.leaf x])
    split
    · next hx => exact ⟨ss, x, rfl, hx⟩
    · change clearAfterAll true (ss ++ [.leaf x]) = false
      rw [clearAfterAll_append]
      simp [clearAfterAll, clearAfter]
  settle {d ss} h := ⟨fun hd => neatAll_append.2 ⟨h.sound hd, by simp⟩, h.tail.settle⟩
  gather {d ss} k h := by
    refine ⟨fun hd => ?_, h.tail.gather k⟩
    obtain ⟨⟨hsound, hlenient⟩, hfits⟩ : (d.sound = true ∧ (d.lenient = false ∨ k = .forStmt)) ∧
        d.tail.fits k = true := by
      simpa [trailing, Trailing.gather] using hd
    rw [neatAll_cons, neat_node]
    refine ⟨⟨?_, (h.sound hsound).mono fun hfor => ?_⟩, neatAll_nil⟩
    · have htail := h.tail
      cases ht : d.tail with
      | blank => exact .inl (htail.symbols (.inl ht))
      | member => exact .inl (htail.symbols (.inr ht))
      | closed => exact .inr (.inl (htail.closed (.inl ht)))
      | comma => exact .inr (.inl (htail.closed (.inr ht)))
      | commaSlot => simp [ht, Tail.fits] at hfits
      | opened => simp [ht, Tail.fits] at hfits
      | dangling =>
        have hk : k = .declGroup := by simpa [ht, Tail.fits] using hfits
        rw [ht] at htail
        exact .inr (.inr ⟨by simp [trailing, Trailing.gather, hk, ht], hk, htail⟩)
    · rcases hlenient with hlenient | hk
      · rw [hlenient] at hfor
        cases hfor
      · simp [hk]
  join {d e ss rs} hd he := by
    refine ⟨fun h => ?_, hd.tail.join he.tail⟩
    obtain ⟨hsound, hsound'⟩ : d.sound = true ∧ e.sound = true := by
      simpa [trailing, Trailing.join] using h
    rw [neatAll_append]
    refine ⟨(hd.sound hsound).mono fun hfor => ?_, (he.sound hsound').mono fun hfor => ?_⟩
    · simp [trailing, Trailing.join, hfor]
    · simp [trailing, Trailing.join, hfor]

namespace Trailing

variable {d e : Trailing} {k : TokenKind}

@[simp] theorem start_sound : trailing.start.sound = true := by simp [trailing]

@[simp] theorem start_lenient : trailing.start.lenient = false := by simp [trailing]

@[simp] theorem start_tail : trailing.start.tail = .blank := by simp [trailing]

@[simp] theorem bump_sound : (trailing.bump k d).sound = d.sound := by simp [trailing, bump]

@[simp] theorem bump_lenient : (trailing.bump k d).lenient = d.lenient := by simp [trailing, bump]

@[simp] theorem bump_tail :
    (trailing.bump k d).tail = if k = .comma then .comma else .closed := by
  simp [trailing, bump]

@[simp] theorem settle_sound : (trailing.settle d).sound = d.sound := by simp [trailing, settle]

@[simp] theorem settle_lenient : (trailing.settle d).lenient = d.lenient := by
  simp [trailing, settle]

@[simp] theorem settle_tail : (trailing.settle d).tail = d.tail.settle := by
  simp [trailing, settle]

@[simp] theorem gather_sound {kind : NodeKind} : (trailing.gather kind d).sound =
    (d.sound && (!d.lenient || kind = .forStmt) && d.tail.fits kind) := by
  simp [trailing, gather]

@[simp] theorem gather_lenient {kind : NodeKind} : (trailing.gather kind d).lenient =
    (kind = .declGroup && d.tail = .dangling : Bool) := by
  simp [trailing, gather]

@[simp] theorem gather_tail {kind : NodeKind} :
    (trailing.gather kind d).tail = d.tail.gather kind := by
  simp [trailing, gather]

@[simp] theorem join_sound : (trailing.join d e).sound = (d.sound && e.sound) := by
  simp [trailing, join]

@[simp] theorem join_lenient : (trailing.join d e).lenient = (d.lenient || e.lenient) := by
  simp [trailing, join]

@[simp] theorem join_tail : (trailing.join d e).tail = d.tail.join e.tail := by
  simp [trailing, join]

@[simp] theorem trailing_pre {c : Construct} {ahead : List Symbol} :
    trailing.pre c ahead d = (c.isTail = true → d.lenient = false ∧ d.tail = .closed) := rfl

@[simp] theorem trailing_post {c : Construct} {ahead ahead' : List Symbol} :
    trailing.post c ahead d ahead' e =
    match c.ending with
    | .closed => d.Closes e
    | .optional => d.Same e ∧ (e.tail = .closed ∨
        d.tail ≠ .closed ∧ e.tail = d.tail ∧ ahead' = ahead ∧ ∀ k ∈ c.firsts, peek ahead 0 ≠ some k)
    | .apart => d.Same e ∧ (e.tail = .closed ∨ e.tail = d.tail.reopen ∧ ahead' = ahead)
    | .members => d.Same e ∧ (e.tail = .closed ∨ e.tail = .dangling ∨
        d.tail ≠ .closed ∧ e.tail = d.tail ∧ ahead' = ahead ∧ peek ahead 0 ≠ some .comma)
    | .list => d.Same e
    | .before ks => (∃ k ∈ ks, peek ahead' 0 = some k) → d.Same e
    | .head => peek ahead' 0 = some .semicolon → e.sound = d.sound := rfl

theorem Extends.trans {ahead ahead' ahead'' : List Symbol} {d' d'' : Trailing}
    (h : Extends ahead d ahead' d') (h' : Extends ahead' d' ahead'' d'') :
    Extends ahead d ahead'' d'' := by
  obtain ⟨⟨hsound, hlenient⟩, htail⟩ := h
  obtain ⟨⟨hsound', hlenient'⟩, htail'⟩ := h'
  refine ⟨⟨hsound'.trans hsound, hlenient'.trans hlenient⟩, ?_⟩
  rcases htail' with htail' | ⟨hopen, htail', rfl⟩
  · exact .inl htail'
  · rcases htail with htail | ⟨hopen', htail, rfl⟩
    · exact absurd htail hopen
    · exact .inr ⟨hopen', htail'.trans htail, rfl⟩

theorem extends_of_optional {c : Construct} (hc : c.ending = .optional) {ahead ahead' : List Symbol}
    {d' : Trailing} (h : trailing.post c ahead d ahead' d') : Extends ahead d ahead' d' := by
  rw [trailing_post, hc] at h
  obtain ⟨hsame, htail | ⟨hopen, htail, hahead, -⟩⟩ := h
  · exact ⟨hsame, .inl htail⟩
  · exact ⟨hsame, .inr ⟨hopen, htail, hahead⟩⟩

end Trailing

namespace Rule

open Trailing

attribute [local simp] Construct.isTail Construct.ending Construct.firsts Abstraction.take Same
  Closes

variable {ahead : List Symbol} {d : Trailing}

theorem trailing_externalDeclaration :
    externalDeclaration.Follows trailing ahead d fun _ _ => d.Closes := by
  rw [externalDeclaration, follows_bind, follows_view]
  intro scopes
  simp only [kindAt_eq_peek]
  split <;> simp_all

theorem trailing_moreDeclarators (isTypedef : Bool) :
    (moreDeclarators isTypedef).Follows trailing ahead d fun _ =>
      trailing.post (.moreDeclarators isTypedef) ahead d := by
  rw [moreDeclarators, follows_ifAccepts]
  refine ⟨fun hnext => ?_, fun hnext => ?_⟩
  · rw [follows_bind, follows_apart, follows_bind, follows_read]
    refine ⟨by simp, fun r ahead' d' h => ?_⟩
    obtain ⟨⟨hsound, hlenient⟩, htail | ⟨htail, rfl⟩⟩ := h
    · simp_all +contextual [initPart]
    · simp_all +contextual [initPart, or_imp]
  · by_cases hd : d.tail = .closed <;> simp [hnext, hd]

theorem trailing_specifiers :
    specifiers.Follows trailing ahead d fun _ => trailing.post .specifiers ahead d := by
  rw [specifiers, follows_node, follows_read]
  refine ⟨by simp, fun _ ahead' d' h => ?_⟩
  obtain ⟨⟨hsound, hlenient⟩, htail | ⟨-, htail, rfl, -⟩⟩ := h
  · simp_all
  · simp_all

theorem trailing_oneAttribute {k : TokenKind} (hnext : peek ahead 0 = some k) (hk : k ≠ .comma) :
    oneAttribute.Follows trailing ahead d fun _ _ => d.Closes := by
  simp +contextual [oneAttribute, hnext, hk]

theorem trailing_specifierList (isTypedef hasType : Bool) :
    (specifierList isTypedef hasType).Follows trailing ahead d fun _ =>
      trailing.post (.specifierList isTypedef hasType) ahead d := by
  rw [specifierList, follows_bind, follows_view]
  intro scopes
  simp only [kindAt_eq_peek]
  split
  case h_9 hnext =>
    rw [follows_bind]
    refine (trailing_oneAttribute hnext (by decide)).mono fun _ _ d' h => ?_
    simp_all +contextual
  all_goals
    rename_i hnext
    simp +contextual [hnext, Classical.em]

theorem trailing_attributes (labels : Bool) :
    (attributes labels).Follows trailing ahead d fun _ =>
      trailing.post (.attributes labels) ahead d := by
  rw [attributes, follows_bind, follows_next, follows_ite]
  refine ⟨fun hattr => ?_, fun _ => by simp [Classical.em]⟩
  obtain ⟨k, hmem, hnext⟩ := peek_of_attribute hattr
  have hk : k ≠ .comma := (by decide : ∀ k ∈ _, k ≠ TokenKind.comma) k hmem
  rw [follows_bind]
  refine (trailing_oneAttribute hnext hk).mono fun _ _ d' h => ?_
  simp_all +contextual

theorem trailing_balanced (depth : Nat)
    (hstarts : (Construct.balanced depth).Starts (peek ahead 0)) :
    (balanced depth).Follows trailing ahead d fun _ _ => d.Closes := by
  rw [balanced, follows_bind, follows_next]
  split
  · exact trivial
  · next k hnext =>
    rw [hnext] at hstarts
    cases k
    case openParen => simp +contextual [hnext]
    case closeParen => simp +contextual [hnext]
    all_goals
      cases depth with
      | zero => cases hstarts
      | succ n => simp +contextual [hnext]

theorem trailing_suffixes (isFirst : Bool) (known : Option Names) :
    (suffixes isFirst known).Follows trailing ahead d fun _ =>
      trailing.post (.suffixes isFirst known) ahead d := by
  rw [suffixes, follows_bind, follows_next]
  split <;> simp +contextual [Classical.em]

theorem trailing_declaratorCore :
    declaratorCore.Follows trailing ahead d fun _ => Extends ahead d := by
  rw [declaratorCore, follows_bind, follows_view]
  intro scopes
  simp only [kindAt_eq_peek]
  split
  all_goals
    rename_i hnext
    simp +contextual [hnext, Extends, Classical.em]

theorem trailing_declarator :
    declarator.Follows trailing ahead d fun _ => trailing.post .declarator ahead d := by
  rw [declarator, follows_node, follows_bind, follows_read]
  refine ⟨by simp, fun _ ahead₁ d₁ h₁ => ?_⟩
  rw [follows_bind]
  refine trailing_declaratorCore.mono fun core ahead₂ d₂ h₂ => ?_
  rw [follows_bind, follows_read]
  refine ⟨by simp, fun _ ahead₃ d₃ h₃ => ?_⟩
  rw [follows_bind, follows_read]
  refine ⟨by simp, fun _ ahead₄ d₄ h₄ => ?_⟩
  have h : Extends ahead trailing.start ahead₄ d₄ :=
    (((extends_of_optional rfl h₁).trans h₂).trans (extends_of_optional rfl h₃)).trans
      (extends_of_optional rfl h₄)
  obtain ⟨⟨hsound, hlenient⟩, htail | ⟨-, htail, rfl⟩⟩ := h
  · simp [hsound, hlenient, htail]
  · simp [hsound, hlenient, htail]

/-- Specifiers and a declarator make a neat node before what cannot begin a declarator. -/
theorem same_specified {kind : NodeKind} {ahead₁ ahead₂ : List Symbol} {d₁ d₂ : Trailing}
    (h₁ : trailing.post .specifiers ahead trailing.start ahead₁ d₁)
    (h₂ : trailing.post .declarator ahead₁ d₁ ahead₂ d₂)
    (hcomma : peek ahead₁ 0 ≠ some .comma) (hclose : peek ahead₁ 0 ≠ some .closeParen)
    (hnext : ∃ k ∈ [TokenKind.comma, .closeParen], peek ahead₂ 0 = some k) :
    d.Same (trailing.join (trailing.settle d) (trailing.gather kind d₂)) := by
  obtain ⟨⟨hsound₁, hlenient₁⟩, -⟩ := h₁
  obtain ⟨⟨hsound₂, hlenient₂⟩, htail | ⟨-, rfl⟩⟩ := h₂
  · simp_all
  · -- no declarator, so what follows comes after the specifiers
    simp_all

theorem trailing_param : param.Follows trailing ahead d fun _ => trailing.post .param ahead d := by
  rw [param, follows_node, follows_bind, follows_read]
  refine ⟨by simp, fun _ ahead' d' h => ?_⟩
  rw [follows_bind, follows_next]
  split
  case h_4 hnone hcomma hclose =>
    rw [follows_bind, follows_read]
    refine ⟨by simp, fun r ahead'' d'' h' => ?_⟩
    rw [follows_declare]
    exact same_specified h h' hcomma hclose
  all_goals
    obtain ⟨⟨hsound, hlenient⟩, htail | ⟨htail, -⟩⟩ := h <;> simp_all

theorem trailing_typeName :
    typeName.Follows trailing ahead d fun _ => trailing.post .typeName ahead d := by
  rw [typeName, follows_node, follows_bind, follows_read]
  refine ⟨by simp, fun _ ahead' d' h => ?_⟩
  rw [follows_bind, follows_next]
  split
  case h_4 hnone hclose hcomma =>
    rw [follows_bind, follows_read]
    refine ⟨by simp, fun r ahead'' d'' h' => ?_⟩
    exact same_specified h h' hcomma hclose
  all_goals
    obtain ⟨⟨hsound, hlenient⟩, htail | ⟨htail, -⟩⟩ := h <;> simp_all

theorem trailing_statement : statement.Follows trailing ahead d fun _ _ => d.Closes := by
  rw [statement, follows_bind, follows_view]
  intro scopes
  simp only [kindAt_eq_peek]
  split
  all_goals
    rename_i hnext
    simp +contextual [hnext, conditionStatement, doStatement, caseStatement, defaultStatement,
      returnStatement, jumpStatement, gotoStatement, gotoTarget, labeledStatement,
      expressionStatement]

theorem trailing_asmOperands : asmOperands.Follows trailing ahead d fun _ _ => d.Same := by
  rw [asmOperands, follows_bind, follows_endsAt]
  simp only [asmOperand]
  rw [follows_ite]
  refine ⟨by simp, fun _ => ?_⟩
  rw [follows_bind, follows_bind, follows_next]
  split <;> simp_all +contextual

theorem trailing_assignment : assignment.Follows trailing ahead d fun _ _ => d.Closes := by
  rw [assignment, follows_apart, follows_bind, follows_read]
  refine ⟨by simp, fun _ ahead' d' h => ?_⟩
  rw [follows_bind, follows_next]
  split <;> simp_all +contextual

theorem trailing_unary : unary.Follows trailing ahead d fun _ _ => d.Closes := by
  rw [unary, follows_bind, follows_view]
  intro scopes
  simp only [kindAt_eq_peek]
  split
  all_goals
    rename_i hnext
    simp +contextual [hnext, prefixed, labelAddress, sizeofExpression, typed, postfixed]

theorem trailing_postfixTail (hlenient : d.lenient = false) (htail : d.tail = .closed) :
    postfixTail.Follows trailing ahead d fun _ _ => d.Closes := by
  rw [postfixTail, follows_bind, follows_next]
  split
  all_goals
    rename_i hnext
    simp +contextual [hnext, hlenient, htail]

theorem trailing_primary : primary.Follows trailing ahead d fun _ _ => d.Closes := by
  rw [primary, follows_bind, follows_view]
  intro scopes
  simp only [kindAt_eq_peek]
  split
  all_goals
    rename_i hnext
    simp +contextual [hnext]

theorem trailing_binaryTail (level : Nat) (hlenient : d.lenient = false)
    (htail : d.tail = .closed) :
    (binaryTail level).Follows trailing ahead d fun _ _ => d.Closes := by
  rw [binaryTail, follows_bind, follows_view]
  intro scopes
  rw [follows_ite]
  refine ⟨fun _ => by simp [htail], fun hlevel => ?_⟩
  have hpos : (View.mk ahead scopes).level ≠ 0 := by simp_all
  obtain ⟨k, -, hnext⟩ := peek_of_level hpos
  simp +contextual [hnext, hlenient]

theorem trailing_series (which : Series) :
    (series which).Follows trailing ahead d fun _ => trailing.post (.series which) ahead d := by
  rw [series, follows_bind, follows_view]
  intro scopes
  rw [follows_ite]
  refine ⟨fun hseries => ?_, fun hseries => ?_⟩
  · obtain ⟨k, hmem, hnext⟩ := peek_of_isInSeries hseries
    have hk : k ≠ .comma := (by decide : ∀ k ∈ _, k ≠ TokenKind.comma) k hmem
    simp +contextual [hnext, hk]
  · cases which <;> simp_all [isInSeries, Classical.em]

theorem trailing_tagSpecifier (hstarts : Construct.tagSpecifier.Starts (peek ahead 0)) :
    tagSpecifier.Follows trailing ahead d fun _ _ => d.Closes := by
  obtain ⟨k, hmem, hnext⟩ := peek_of_tagSpecifier hstarts
  have hk : k ≠ .comma := (by decide : ∀ k ∈ _, k ≠ TokenKind.comma) k hmem
  rw [tagSpecifier, follows_node, follows_bind, follows_sees, follows_bind, follows_bump,
    follows_bind, follows_read]
  refine ⟨by simp, fun _ ahead' d' h => ?_⟩
  simp_all +contextual

theorem trailing_designator (hstarts : Construct.designator.Starts (peek ahead 0)) :
    designator.Follows trailing ahead d fun _ _ => d.Closes := by
  rcases hstarts with hnext | hnext <;> simp +contextual [designator, hnext]

theorem trailing_forInit :
    forInit.Follows trailing ahead d fun _ ahead' d' =>
      peek ahead' 0 = some .semicolon → d'.sound = d.sound := by
  simp +contextual [forInit]

theorem trailing_forStatement (hnext : peek ahead 0 = some .kwFor) :
    forStatement.Follows trailing ahead d fun _ _ => d.Closes := by
  simp only [forStatement, follows_node, follows_bind, follows_bump, follows_inScope,
    follows_requireThen, forClauses]
  intro hopen
  refine trailing_forInit.mono fun _ ahead' d' h => ?_
  simp_all +contextual

theorem trailing_firstDeclarator (place : Place) (isTypedef : Bool) (hd : d.tail ≠ .comma) :
    (firstDeclarator place isTypedef).Follows trailing ahead d fun _ ahead' d' =>
      d.Same d' ∧ (d'.tail = .closed ∨ d'.tail = d.tail.reopen ∧ ahead' = ahead) := by
  have hslot : d.tail.settle ≠ .commaSlot := by
    cases ht : d.tail <;> first | exact absurd ht hd | decide
  rw [firstDeclarator, follows_apart, follows_bind, follows_read]
  refine ⟨by simp, fun r ahead' d' h => ?_⟩
  obtain ⟨⟨hsound, hlenient⟩, htail | ⟨htail, rfl⟩⟩ := h
  · simp_all +contextual [initPart]
  · simp_all +contextual [initPart]

theorem trailing_declaration (place : Place) :
    (declaration place).Follows trailing ahead d fun _ =>
      trailing.post (.declaration place) ahead d := by
  rw [declaration, follows_apart, follows_bind, follows_read]
  refine ⟨by simp, fun isTypedef ahead₁ d₁ h₁ => ?_⟩
  obtain ⟨⟨hsound, hlenient⟩, htail⟩ := h₁
  have hcomma : d₁.tail ≠ .comma := by
    rcases htail with htail | ⟨htail, -⟩ <;> simp [htail]
  rw [follows_bind, follows_sees, follows_ite]
  refine ⟨fun hnext => ?_, fun hnext => ?_⟩
  · rcases htail with htail | ⟨htail, -⟩ <;> cases place <;> simp_all [unlessInHead]
  · rw [follows_bind]
    refine (trailing_firstDeclarator place isTypedef hcomma).mono fun r ahead₂ d₂ h₂ => ?_
    obtain ⟨⟨hsound', hlenient'⟩, htail'⟩ := h₂
    cases r with
    | some declared => cases place <;> simp_all +contextual
    | none =>
      rw [follows_bind, follows_read]
      refine ⟨by simp, fun _ ahead₃ d₃ h₃ => ?_⟩
      obtain ⟨⟨hsound'', hlenient''⟩, htail''⟩ := h₃
      cases place with
      | file => simp_all [unlessInHead]
      | block => simp_all [unlessInHead]
      | forHead =>
        -- the group ends with what its members end with
        simp only [unlessInHead, if_true, follows_bind, follows_pure, follows_gather, trailing_post,
          Construct.ending]
        intro hsemi
        rcases htail'' with htail'' | htail'' | ⟨hopen, htail'', rfl, -⟩
        · simp_all
        · simp_all
        · -- nothing was read after the specifiers, so no semicolon comes next
          rcases htail' with htail' | ⟨-, rfl⟩
          · exact absurd htail' hopen
          · exact absurd hsemi (by simpa using hnext)

theorem trailing_fields : fields.Follows trailing ahead d fun _ _ => d.Same := by
  simp +contextual [fields]

theorem trailing_fieldDeclarators :
    fieldDeclarators.Follows trailing ahead d fun _ _ => d.Same := by
  simp +contextual [fieldDeclarators]

theorem trailing_enumerators : enumerators.Follows trailing ahead d fun _ _ => d.Same := by
  simp +contextual [enumerators]

theorem trailing_arraySuffix (hnext : peek ahead 0 = some .openBracket) :
    arraySuffix.Follows trailing ahead d fun _ _ => d.Closes := by
  simp +contextual [arraySuffix, arraySize, hnext]

theorem trailing_params :
    params.Follows trailing ahead d fun _ => trailing.post .params ahead d := by
  simp +contextual [params]

theorem trailing_initializers : initializers.Follows trailing ahead d fun _ _ => d.Same := by
  simp +contextual [initializers, listedInitializer, optionalDesignator]

theorem trailing_designatorParts :
    designatorParts.Follows trailing ahead d fun _ => trailing.post .designatorParts ahead d := by
  simp +contextual [designatorParts, Classical.em]

theorem trailing_args : args.Follows trailing ahead d fun _ => trailing.post .args ahead d := by
  simp +contextual [args, argument]

/-- **Each rule ends as its construct should.** -/
theorem rule_trailing (c : Construct) (ahead : List Symbol) (d : Trailing)
    (hstarts : c.Starts (peek ahead 0)) (hpre : trailing.pre c ahead d) :
    c.rule.Follows trailing ahead d fun _ => trailing.post c ahead d := by
  cases c with
  | externalDeclaration => exact trailing_externalDeclaration
  | declaration place => exact trailing_declaration place
  | moreDeclarators isTypedef => exact trailing_moreDeclarators isTypedef
  | specifiers => exact trailing_specifiers
  | specifierList isTypedef hasType => exact trailing_specifierList isTypedef hasType
  | tagSpecifier => exact trailing_tagSpecifier hstarts
  | attributes labels => exact trailing_attributes labels
  | balanced depth => exact trailing_balanced depth hstarts
  | declarator => exact trailing_declarator
  | suffixes isFirst known => exact trailing_suffixes isFirst known
  | param => exact trailing_param
  | typeName => exact trailing_typeName
  | designator => exact trailing_designator hstarts
  | statement => exact trailing_statement
  | forStatement => exact trailing_forStatement hstarts
  | asmOperands => exact trailing_asmOperands
  | assignment => exact trailing_assignment
  | binaryTail level => exact trailing_binaryTail level (hpre rfl).1 (hpre rfl).2
  | unary => exact trailing_unary
  | postfixTail => exact trailing_postfixTail (hpre rfl).1 (hpre rfl).2
  | primary => exact trailing_primary
  | series which => exact trailing_series which
  | declarations => simp +contextual [Construct.rule, declarations]
  | functionBody names => simp +contextual [Construct.rule, functionBody]
  | parameterDeclarations => simp +contextual [Construct.rule, parameterDeclarations]
  | structBody =>
    have hnext : peek ahead 0 = some .openBrace := hstarts
    simp +contextual [Construct.rule, structBody, hnext]
  | fields => exact trailing_fields
  | fieldGroup => simp +contextual [Construct.rule, fieldGroup]
  | fieldDeclarators => exact trailing_fieldDeclarators
  | enumBody =>
    have hnext : peek ahead 0 = some .openBrace := hstarts
    simp +contextual [Construct.rule, enumBody, hnext]
  | enumerators => exact trailing_enumerators
  | typeofSpecifier =>
    have hnext : peek ahead 0 = some .kwTypeof := hstarts
    simp +contextual [Construct.rule, typeofSpecifier, typeofOperand, hnext]
  | pointers => simp +contextual [Construct.rule, pointers, Classical.em]
  | arraySuffix => exact trailing_arraySuffix hstarts
  | paramList =>
    have hnext : peek ahead 0 = some .openParen := hstarts
    simp +contextual [Construct.rule, paramList, hnext]
  | params => exact trailing_params
  | initializer => simp +contextual [Construct.rule, initializer]
  | initList =>
    have hnext : peek ahead 0 = some .openBrace := hstarts
    simp +contextual [Construct.rule, initList, hnext]
  | initializers => exact trailing_initializers
  | designatorParts => exact trailing_designatorParts
  | compound =>
    have hnext : peek ahead 0 = some .openBrace := hstarts
    simp +contextual [Construct.rule, compound, hnext]
  | blockItems => simp +contextual [Construct.rule, blockItems]
  | blockItem => simp +contextual [Construct.rule, blockItem]
  | labelBody => simp +contextual [Construct.rule, labelBody, Classical.em]
  | condition => simp +contextual [Construct.rule, condition]
  | asmStatement =>
    have hnext : peek ahead 0 = some .kwAsm := hstarts
    simp +contextual [Construct.rule, asmStatement, hnext]
  | expression => simp +contextual [Construct.rule, expression]
  | commaTail =>
    obtain ⟨hlenient, htail⟩ := hpre rfl
    simp +contextual [Construct.rule, commaTail, hlenient, htail]
  | conditional => simp +contextual [Construct.rule, conditional]
  | binary level => simp +contextual [Construct.rule, binary]
  | argList =>
    have hnext : peek ahead 0 = some .openParen := hstarts
    simp +contextual [Construct.rule, argList, hnext]
  | args => exact trailing_args

end Rule

/-- **In a file without faults the nodes are neat.** -/
theorem neat_skeletons {symbols : List Symbol} (h : faults symbols = []) :
    NeatAll false (skeletons symbols) := by
  obtain ⟨e, ⟨hsound, hlenient⟩, he⟩ := trailing_sound.skeletons Rule.rule_trailing h nofun
  have hneat := he.sound hsound
  rwa [show (trailing.settle e).lenient = false from hlenient] at hneat

end Grammar

end Whittle
