import Whittle.Proofs.Grammar.Abstraction
import Whittle.Proofs.Token.Bracketed

/-!
# Open brackets

A construct read without faults leaves open the brackets that were open before. So each bracket has
its partner in the same node. Attributes are kept as they are, with their parentheses balanced.

* `Shape.Enclosed`: the brackets directly below a node are matched.
* `nesting`: which brackets of a segment are open, as an abstraction of its trees.
* `Rule.rule_nesting`: **each rule leaves open what was open.**
* `enclosed_skeletons`: the brackets of a file without faults are matched in every node.
-/

namespace Whittle

open Grammar Shape Bracketed

/-! ### Brackets in shapes -/

namespace Shape

/-- The kinds of the tokens among some shapes. -/
def kinds (xs : List Shape) : List TokenKind := xs.filterMap fun
  | .leaf k => some k
  | .node _ _ => none

@[simp] theorem kinds_nil : kinds [] = [] := rfl

@[simp] theorem kinds_leaf (k : TokenKind) (xs : List Shape) :
    kinds (leaf k :: xs) = k :: kinds xs := rfl

@[simp] theorem kinds_node (k : NodeKind) (cs xs : List Shape) :
    kinds (node k cs :: xs) = kinds xs := rfl

@[simp] theorem kinds_append (xs ys : List Shape) : kinds (xs ++ ys) = kinds xs ++ kinds ys :=
  List.filterMap_append

/-- Whether some brackets are still to be closed after the tokens among some shapes, with nothing
unknown among them. -/
def Nested (st : List TokenKind) (xs : List Shape) : Prop :=
  scan brackets [] (kinds xs) = some st ∧ .stray ∉ kinds xs

/-- Whether shapes are tokens after which some parentheses are still to be closed. -/
def Verbatim (st : List TokenKind) (xs : List Shape) : Prop :=
  xs = (kinds xs).map .leaf ∧ scan parentheses [] (kinds xs) = some st

/-- Whether the brackets directly below a node are matched. In attributes only the parentheses
are. -/
def Enclosed (k : NodeKind) (xs : List Shape) : Prop :=
  if k = .attr then Verbatim [] xs else Nested [] xs

end Shape

namespace Grammar

/-! ### Brackets of segments -/

/-- What is known of the brackets of a segment. -/
structure Nesting where
  /-- Whether the brackets of all its nodes are matched. -/
  sound : Bool
  /-- Its brackets that are still to be closed, if that is known. -/
  outer : Option (List TokenKind)
  /-- Its parentheses that are still to be closed, if it is of tokens only. -/
  parens : Option (List TokenKind)

namespace Nesting

def bump (k : TokenKind) (d : Nesting) : Nesting :=
  { d with
    outer := d.outer.bind fun st => if k = .stray then none else step brackets st k
    parens := d.parens.bind (step parentheses · k) }

def gather (k : NodeKind) (d : Nesting) : Nesting :=
  { sound := d.sound && (if k = .attr then d.parens else d.outer) = some []
    outer := some []
    parens := none }

def join (d e : Nesting) : Nesting :=
  { sound := d.sound && e.sound
    outer := if e.outer = some [] then d.outer else none
    parens := none }

/-- What constructs leave as it is. -/
def Level (d d' : Nesting) : Prop := d'.sound = d.sound ∧ d'.outer = d.outer

/-- What is known, as a condition on trees. -/
structure Holds (d : Nesting) (ss : List Skeleton) : Prop where
  sound : d.sound = true → AllOf Enclosed (Skeleton.shapesAll ss)
  outer : ∀ st, d.outer = some st → Nested st (Skeleton.shapesAll ss)
  parens : ∀ st, d.parens = some st → Verbatim st (Skeleton.shapesAll ss)

end Nesting

/-- **Which brackets of a segment are open.** Constructs leave them as they are. Within an attribute
only parentheses matter. -/
def nesting : Abstraction Nesting where
  start := ⟨true, some [], some []⟩
  bump := Nesting.bump
  settle := id
  gather := Nesting.gather
  join := Nesting.join
  pre c _ d :=
    match c with
    | .balanced depth => d.parens = some (.replicate depth .closeParen)
    | c => c.isTail = true → d.outer = some []
  post c _ d _ d' :=
    match c with
    | .balanced _ => d'.sound = d.sound ∧ d'.parens = some []
    | _ => d.Level d'

@[simp] theorem nesting_pre {c : Construct} {ahead : List Symbol} {d : Nesting} :
    nesting.pre c ahead d =
    match c with
    | .balanced depth => d.parens = some (.replicate depth .closeParen)
    | c => c.isTail = true → d.outer = some [] := rfl

@[simp] theorem nesting_post {c : Construct} {ahead ahead' : List Symbol} {d d' : Nesting} :
    nesting.post c ahead d ahead' d' =
    match c with
    | .balanced _ => d'.sound = d.sound ∧ d'.parens = some []
    | _ => d.Level d' := rfl

theorem nested_append {st : List TokenKind} {xs ys : List Shape} (hxs : Nested st xs)
    (hys : Nested [] ys) : Nested st (xs ++ ys) := by
  refine ⟨?_, by simp [hxs.2, hys.2]⟩
  rw [kinds_append, scan_append, hxs.1]
  exact scan_frame hys.1 st

theorem nesting_sound : nesting.Sound Nesting.Holds where
  start := by
    refine ⟨fun _ => by simp [Skeleton.shapesAll], ?_, ?_⟩
    · rintro st ⟨rfl⟩
      exact ⟨rfl, by simp [Skeleton.shapesAll]⟩
    · rintro st ⟨rfl⟩
      exact ⟨rfl, rfl⟩
  bump {d ss} x h := by
    have hshapes : Skeleton.shapesAll (ss ++ [.leaf x]) =
        Skeleton.shapesAll ss ++ [.leaf x.kind] := by
      simp [Skeleton.shapesAll, Skeleton.shapes]
    refine ⟨fun hd => ?_, fun st hst => ?_, fun st hst => ?_⟩
    · rw [hshapes, allOf_append]
      exact ⟨h.sound hd, by simp⟩
    · obtain ⟨st₀, hst₀, hstep⟩ := Option.bind_eq_some_iff.1 hst
      have hnested := h.outer st₀ hst₀
      split at hstep
      · cases hstep
      · next hstray =>
        rw [hshapes]
        exact ⟨by simp [scan_append, hnested.1, scan, hstep],
          by simp [hnested.2, Ne.symm hstray]⟩
    · obtain ⟨st₀, hst₀, hstep⟩ := Option.bind_eq_some_iff.1 hst
      have hverbatim := h.parens st₀ hst₀
      rw [hshapes]
      refine ⟨?_, by simp [scan_append, hverbatim.2, scan, hstep]⟩
      rw [kinds_append, List.map_append, ← hverbatim.1]
      rfl
  settle {d ss} h := by
    have hshapes : Skeleton.shapesAll (ss ++ [.slot]) = Skeleton.shapesAll ss := by
      simp [Skeleton.shapesAll, Skeleton.shapes]
    exact ⟨hshapes ▸ h.sound, hshapes ▸ h.outer, hshapes ▸ h.parens⟩
  gather {d ss} k h := by
    have hshapes : Skeleton.shapesAll [.node k ss] = [.node k (Skeleton.shapesAll ss)] := by
      simp [Skeleton.shapesAll, Skeleton.shapes]
    refine ⟨fun hd => ?_, ?_, by simp [nesting, Nesting.gather]⟩
    · obtain ⟨hd, hclosed⟩ := (Bool.and_eq_true ..).mp hd
      have hclosed := of_decide_eq_true hclosed
      rw [hshapes, allOf_cons, all_node]
      refine ⟨⟨?_, h.sound hd⟩, allOf_nil⟩
      by_cases hk : k = .attr
      · rw [Enclosed, if_pos hk]
        exact h.parens [] (by rwa [if_pos hk] at hclosed)
      · rw [Enclosed, if_neg hk]
        exact h.outer [] (by rwa [if_neg hk] at hclosed)
    · rintro st ⟨rfl⟩
      rw [hshapes]
      exact ⟨rfl, by simp⟩
  join {d e ss rs} hd he := by
    refine ⟨fun h => ?_, fun st hst => ?_, by simp [nesting, Nesting.join]⟩
    · obtain ⟨h, h'⟩ := (Bool.and_eq_true ..).mp h
      rw [Skeleton.shapesAll_append, allOf_append]
      exact ⟨hd.sound h, he.sound h'⟩
    · change (if e.outer = some [] then d.outer else none) = some st at hst
      split at hst
      · next he' =>
        rw [Skeleton.shapesAll_append]
        exact nested_append (hd.outer st hst) (he.outer [] he')
      · cases hst

/-! ### Steps on brackets -/

namespace Nesting

variable {d : Nesting} {k : TokenKind}

/-- The tokens that matter: brackets and what is unknown. -/
def marked : List TokenKind :=
  [.openParen, .closeParen, .openBracket, .closeBracket, .openBrace, .closeBrace, .stray]

@[simp] theorem sound_start : nesting.start.sound = true := by simp [nesting]

@[simp] theorem outer_start : nesting.start.outer = some [] := by simp [nesting]

@[simp] theorem parens_start : nesting.start.parens = some [] := by simp [nesting]

@[simp] theorem nesting_settle : nesting.settle d = d := by simp [nesting]

@[simp] theorem sound_bump : (nesting.bump k d).sound = d.sound := by simp [nesting, Nesting.bump]

@[simp] theorem outer_bump_plain (hk : k ∉ marked) :
    (nesting.bump k d).outer = d.outer := by
  have hstep : (fun st => if k = .stray then none else step brackets st k) = some := by
    cases k <;> first | rfl | exact absurd (by decide) hk
  change d.outer.bind _ = d.outer
  rw [hstep, Option.bind_fun_some]

@[simp] theorem parens_bump_plain (hk : k ∉ marked) :
    (nesting.bump k d).parens = d.parens := by
  have hstep : (step parentheses · k) = some := by
    cases k <;> first | rfl | exact absurd (by decide) hk
  change d.parens.bind _ = d.parens
  rw [hstep, Option.bind_fun_some]

/-- A bracket opens. -/
def opening (c : TokenKind) (o : Option (List TokenKind)) : Option (List TokenKind) :=
  o.map (c :: ·)

@[simp] theorem outer_bump_openParen :
    (nesting.bump .openParen d).outer = opening .closeParen d.outer := by
  rcases d with ⟨_, _ | st, _⟩ <;> rfl

@[simp] theorem outer_bump_openBracket :
    (nesting.bump .openBracket d).outer = opening .closeBracket d.outer := by
  rcases d with ⟨_, _ | st, _⟩ <;> rfl

@[simp] theorem outer_bump_openBrace :
    (nesting.bump .openBrace d).outer = opening .closeBrace d.outer := by
  rcases d with ⟨_, _ | st, _⟩ <;> rfl

/-- A bracket is closed. -/
def closing (c : TokenKind) (o : Option (List TokenKind)) : Option (List TokenKind) :=
  o.bind fun st => if st.head? = some c then some st.tail else none

@[simp] theorem closing_opening (c : TokenKind) (o : Option (List TokenKind)) :
    closing c (opening c o) = o := by
  cases o <;> simp [closing, opening]

@[simp] theorem outer_bump_closeParen :
    (nesting.bump .closeParen d).outer = closing .closeParen d.outer := by
  rcases d with ⟨_, _ | st, _⟩ <;> rfl

@[simp] theorem outer_bump_closeBracket :
    (nesting.bump .closeBracket d).outer = closing .closeBracket d.outer := by
  rcases d with ⟨_, _ | st, _⟩ <;> rfl

@[simp] theorem outer_bump_closeBrace :
    (nesting.bump .closeBrace d).outer = closing .closeBrace d.outer := by
  rcases d with ⟨_, _ | st, _⟩ <;> rfl

@[simp] theorem sound_gather {kind : NodeKind} :
    (nesting.gather kind d).sound =
      (d.sound && (if kind = .attr then d.parens else d.outer) = some []) := by
  simp [nesting, Nesting.gather]

@[simp] theorem outer_gather {kind : NodeKind} : (nesting.gather kind d).outer = some [] := by
  simp [nesting, Nesting.gather]

@[simp] theorem sound_join {e : Nesting} : (nesting.join d e).sound = (d.sound && e.sound) := by
  simp [nesting, Nesting.join]

@[simp] theorem outer_join {e : Nesting} (he : e.outer = some []) :
    (nesting.join d e).outer = d.outer := if_pos he

end Nesting

/-! ### Rules on brackets -/

namespace Rule

open Nesting

attribute [local simp] Construct.isTail Abstraction.take marked Level

variable {ahead : List Symbol} {d : Nesting}

theorem nesting_externalDeclaration :
    externalDeclaration.Follows nesting ahead d fun _ _ => d.Level := by
  rw [externalDeclaration, follows_bind, follows_view]
  intro scopes
  simp only [kindAt_eq_peek]
  split <;> simp_all

theorem nesting_oneAttribute {k : TokenKind} (hnext : peek ahead 0 = some k) (hk : k ∉ marked) :
    oneAttribute.Follows nesting ahead d fun _ _ => d.Level := by
  simp +contextual [oneAttribute, hnext, parens_bump_plain hk]

theorem nesting_specifierList (isTypedef hasType : Bool) :
    (specifierList isTypedef hasType).Follows nesting ahead d fun _ _ => d.Level := by
  rw [specifierList, follows_bind, follows_view]
  intro scopes
  simp only [kindAt_eq_peek]
  split
  case h_9 hnext =>
    rw [follows_bind]
    refine (nesting_oneAttribute hnext (by decide)).mono fun _ _ d' h => ?_
    simp +contextual [h.1, h.2]
  all_goals
    rename_i hnext
    simp +contextual [hnext]

theorem nesting_balanced (depth : Nat) (hstarts : (Construct.balanced depth).Starts (peek ahead 0))
    (hd : d.parens = some (.replicate depth .closeParen)) :
    (balanced depth).Follows nesting ahead d fun _ _ d' =>
      d'.sound = d.sound ∧ d'.parens = some [] := by
  rw [balanced, follows_bind, follows_next]
  split
  · exact trivial
  · next k hnext =>
    rw [hnext] at hstarts
    have hparens : (nesting.bump k d).parens =
        (some (.replicate depth .closeParen)).bind (step parentheses · k) := by
      rw [← hd]
      rfl
    by_cases hopen : k = .openParen
    · subst hopen
      have hopened : (nesting.bump .openParen d).parens =
        some (.replicate (depth + 1) .closeParen) := hparens
      simp +contextual [hnext, hopened]
    · obtain ⟨n, rfl⟩ : ∃ n, depth = n + 1 := by
        cases depth with
        | zero => exact absurd (Option.some.inj hstarts) hopen
        | succ n => exact ⟨n, rfl⟩
      by_cases hclose : k = .closeParen
      · subst hclose
        have hclosed : (nesting.bump .closeParen d).parens = some (.replicate n .closeParen) :=
          hparens
        simp +contextual [hnext, hclosed]
      · have hsame : (nesting.bump k d).parens = some (.replicate (n + 1) .closeParen) := by
          rw [hparens]
          cases k <;> first | rfl | contradiction
        simp +contextual [hnext, hsame]

theorem nesting_declarator : declarator.Follows nesting ahead d fun _ _ => d.Level := by
  rw [declarator, follows_node, follows_bind, follows_read]
  refine ⟨by simp, fun _ ahead' d' h => ?_⟩
  rw [follows_bind, declaratorCore, follows_bind, follows_view]
  intro scopes
  simp only [kindAt_eq_peek]
  split <;> simp_all

theorem nesting_suffixes (isFirst : Bool) (known : Option Names) :
    (suffixes isFirst known).Follows nesting ahead d fun _ _ => d.Level := by
  rw [suffixes, follows_bind, follows_next]
  split <;> simp +contextual

theorem nesting_param : param.Follows nesting ahead d fun _ _ => d.Level := by
  rw [param, follows_node, follows_bind, follows_read]
  refine ⟨by simp, fun _ ahead' d' h => ?_⟩
  rw [follows_bind, follows_next]
  split <;> simp_all

theorem nesting_typeName : typeName.Follows nesting ahead d fun _ _ => d.Level := by
  rw [typeName, follows_node, follows_bind, follows_read]
  refine ⟨by simp, fun _ ahead' d' h => ?_⟩
  rw [follows_bind, follows_next]
  split <;> simp_all

theorem nesting_statement : statement.Follows nesting ahead d fun _ _ => d.Level := by
  rw [statement, follows_bind, follows_view]
  intro scopes
  simp only [kindAt_eq_peek]
  split
  all_goals
    rename_i hnext
    simp +contextual [hnext, conditionStatement, doStatement, caseStatement, defaultStatement,
      returnStatement, jumpStatement, gotoStatement, gotoTarget, labeledStatement,
      expressionStatement]

theorem nesting_asmOperands : asmOperands.Follows nesting ahead d fun _ _ => d.Level := by
  rw [asmOperands, follows_bind, follows_endsAt]
  simp only [asmOperand]
  rw [follows_ite]
  refine ⟨by simp, fun _ => ?_⟩
  rw [follows_bind, follows_bind, follows_next]
  split <;> simp_all +contextual

theorem nesting_assignment : assignment.Follows nesting ahead d fun _ _ => d.Level := by
  rw [assignment, follows_apart, follows_bind, follows_read]
  refine ⟨by simp, fun _ ahead' d' h => ?_⟩
  rw [follows_bind, follows_next]
  split <;> simp_all +contextual

theorem nesting_unary : unary.Follows nesting ahead d fun _ _ => d.Level := by
  rw [unary, follows_bind, follows_view]
  intro scopes
  simp only [kindAt_eq_peek]
  split
  all_goals
    rename_i hnext
    simp +contextual [hnext, prefixed, labelAddress, sizeofExpression, typed, postfixed]

theorem nesting_postfixTail (hd : d.outer = some []) :
    postfixTail.Follows nesting ahead d fun _ _ => d.Level := by
  rw [postfixTail, follows_bind, follows_next]
  split
  all_goals
    rename_i hnext
    simp +contextual [hnext, hd]

theorem nesting_primary : primary.Follows nesting ahead d fun _ _ => d.Level := by
  rw [primary, follows_bind, follows_view]
  intro scopes
  simp only [kindAt_eq_peek]
  split
  all_goals
    rename_i hnext
    simp +contextual [hnext]

theorem nesting_binaryTail (level : Nat) (hd : d.outer = some []) :
    (binaryTail level).Follows nesting ahead d fun _ _ => d.Level := by
  rw [binaryTail, follows_bind, follows_view]
  intro scopes
  rw [follows_ite]
  refine ⟨fun _ => by simp, fun hlevel => ?_⟩
  have hpos : (View.mk ahead scopes).level ≠ 0 := by simp_all
  obtain ⟨k, hmem, hnext⟩ := peek_of_level hpos
  have hk : k ∉ marked := (by decide : ∀ k ∈ _, k ∉ marked) k hmem
  simp +contextual [hnext, outer_bump_plain hk, hd]

theorem nesting_series (which : Series) :
    (series which).Follows nesting ahead d fun _ _ => d.Level := by
  rw [series, follows_bind, follows_view]
  intro scopes
  rw [follows_ite]
  refine ⟨fun hseries => ?_, fun _ => by simp⟩
  obtain ⟨k, hmem, hnext⟩ := peek_of_isInSeries hseries
  have hk : k ∉ marked := (by decide : ∀ k ∈ _, k ∉ marked) k hmem
  simp +contextual [hnext, outer_bump_plain hk]

theorem nesting_attributes (labels : Bool) :
    (attributes labels).Follows nesting ahead d fun _ _ => d.Level := by
  rw [attributes, follows_bind, follows_next, follows_ite]
  refine ⟨fun hattr => ?_, fun _ => by simp⟩
  obtain ⟨k, hmem, hnext⟩ := peek_of_attribute hattr
  have hk : k ∉ marked := (by decide : ∀ k ∈ _, k ∉ marked) k hmem
  rw [follows_bind]
  refine (nesting_oneAttribute hnext hk).mono fun _ _ d' h => ?_
  simp +contextual [h.1, h.2]

theorem nesting_tagSpecifier (hstarts : Construct.tagSpecifier.Starts (peek ahead 0)) :
    tagSpecifier.Follows nesting ahead d fun _ _ => d.Level := by
  obtain ⟨k, hmem, hnext⟩ := peek_of_tagSpecifier hstarts
  have hk : k ∉ marked := (by decide : ∀ k ∈ _, k ∉ marked) k hmem
  rw [tagSpecifier, follows_node, follows_bind, follows_sees, follows_bind, follows_bump,
    follows_bind, follows_read]
  refine ⟨by simp, fun _ ahead' d' h => ?_⟩
  simp_all +contextual

theorem nesting_firstDeclarator (place : Place) (isTypedef : Bool) :
    (firstDeclarator place isTypedef).Follows nesting ahead d fun _ _ => d.Level := by
  simp +contextual [firstDeclarator, initPart]

theorem nesting_declaration (place : Place) :
    (declaration place).Follows nesting ahead d fun _ _ => d.Level := by
  rw [declaration, follows_apart, follows_bind, follows_read]
  refine ⟨by simp, fun isTypedef ahead' d' h => ?_⟩
  rw [follows_bind, follows_sees, follows_ite]
  refine ⟨fun hnext => ?_, fun _ => ?_⟩
  · simp_all [unlessInHead]
  · rw [follows_bind]
    refine (nesting_firstDeclarator place isTypedef).mono fun r ahead'' d'' h' => ?_
    cases r <;> simp_all +contextual [unlessInHead]

theorem nesting_forInit : forInit.Follows nesting ahead d fun _ _ => d.Level := by
  simp +contextual [forInit]

theorem nesting_forStatement (hnext : peek ahead 0 = some .kwFor) :
    forStatement.Follows nesting ahead d fun _ _ => d.Level := by
  simp only [forStatement, follows_node, follows_bind, follows_bump, follows_inScope,
    follows_requireThen, forClauses]
  intro hopen
  refine nesting_forInit.mono fun _ ahead' d' h => ?_
  simp_all +contextual

theorem nesting_fields : fields.Follows nesting ahead d fun _ _ => d.Level := by
  simp +contextual [fields]

theorem nesting_fieldDeclarators :
    fieldDeclarators.Follows nesting ahead d fun _ _ => d.Level := by
  simp +contextual [fieldDeclarators]

theorem nesting_enumerators : enumerators.Follows nesting ahead d fun _ _ => d.Level := by
  simp +contextual [enumerators]

theorem nesting_arraySuffix (hnext : peek ahead 0 = some .openBracket) :
    arraySuffix.Follows nesting ahead d fun _ _ => d.Level := by
  simp +contextual [arraySuffix, arraySize, hnext]

theorem nesting_params : params.Follows nesting ahead d fun _ _ => d.Level := by
  simp +contextual [params]

theorem nesting_initializers : initializers.Follows nesting ahead d fun _ _ => d.Level := by
  simp +contextual [initializers, listedInitializer, optionalDesignator]

theorem nesting_designatorParts :
    designatorParts.Follows nesting ahead d fun _ _ => d.Level := by
  simp +contextual [designatorParts]

theorem nesting_args : args.Follows nesting ahead d fun _ _ => d.Level := by
  simp +contextual [args, argument]

/-- **Each rule leaves open what was open.** -/
theorem rule_nesting (c : Construct) (ahead : List Symbol) (d : Nesting)
    (hstarts : c.Starts (peek ahead 0)) (hpre : nesting.pre c ahead d) :
    c.rule.Follows nesting ahead d fun _ => nesting.post c ahead d := by
  cases c with
  | externalDeclaration => exact nesting_externalDeclaration
  | specifierList isTypedef hasType => exact nesting_specifierList isTypedef hasType
  | attributes labels => exact nesting_attributes labels
  | balanced depth => exact nesting_balanced depth hstarts hpre
  | declarator => exact nesting_declarator
  | suffixes isFirst known => exact nesting_suffixes isFirst known
  | param => exact nesting_param
  | typeName => exact nesting_typeName
  | statement => exact nesting_statement
  | asmOperands => exact nesting_asmOperands
  | assignment => exact nesting_assignment
  | unary => exact nesting_unary
  | postfixTail => exact nesting_postfixTail (hpre rfl)
  | primary => exact nesting_primary
  | binaryTail level => exact nesting_binaryTail level (hpre rfl)
  | series which => exact nesting_series which
  | tagSpecifier => exact nesting_tagSpecifier hstarts
  | declarations => simp +contextual [Construct.rule, declarations]
  | declaration place => exact nesting_declaration place
  | moreDeclarators isTypedef => simp +contextual [Construct.rule, moreDeclarators, initPart]
  | functionBody names => simp +contextual [Construct.rule, functionBody]
  | parameterDeclarations => simp +contextual [Construct.rule, parameterDeclarations]
  | specifiers => simp +contextual [Construct.rule, specifiers]
  | structBody =>
    have hnext : peek ahead 0 = some .openBrace := hstarts
    simp +contextual [Construct.rule, structBody, hnext]
  | fields => exact nesting_fields
  | fieldGroup => simp +contextual [Construct.rule, fieldGroup]
  | fieldDeclarators => exact nesting_fieldDeclarators
  | enumBody =>
    have hnext : peek ahead 0 = some .openBrace := hstarts
    simp +contextual [Construct.rule, enumBody, hnext]
  | enumerators => exact nesting_enumerators
  | typeofSpecifier =>
    have hnext : peek ahead 0 = some .kwTypeof := hstarts
    simp +contextual [Construct.rule, typeofSpecifier, typeofOperand, hnext]
  | pointers => simp +contextual [Construct.rule, pointers]
  | arraySuffix => exact nesting_arraySuffix hstarts
  | paramList =>
    have hnext : peek ahead 0 = some .openParen := hstarts
    simp +contextual [Construct.rule, paramList, hnext]
  | params => exact nesting_params
  | initializer => simp +contextual [Construct.rule, initializer]
  | initList =>
    have hnext : peek ahead 0 = some .openBrace := hstarts
    simp +contextual [Construct.rule, initList, hnext]
  | initializers => exact nesting_initializers
  | designator => simp +contextual [Construct.rule, designator]
  | designatorParts => exact nesting_designatorParts
  | compound =>
    have hnext : peek ahead 0 = some .openBrace := hstarts
    simp +contextual [Construct.rule, compound, hnext]
  | blockItems => simp +contextual [Construct.rule, blockItems]
  | blockItem => simp +contextual [Construct.rule, blockItem]
  | labelBody => simp +contextual [Construct.rule, labelBody]
  | condition => simp +contextual [Construct.rule, condition]
  | forStatement => exact nesting_forStatement hstarts
  | asmStatement =>
    have hnext : peek ahead 0 = some .kwAsm := hstarts
    simp +contextual [Construct.rule, asmStatement, hnext]
  | expression => simp +contextual [Construct.rule, expression]
  | commaTail =>
    have hd : d.outer = some [] := hpre rfl
    simp +contextual [Construct.rule, commaTail, hd]
  | conditional => simp +contextual [Construct.rule, conditional]
  | binary level => simp +contextual [Construct.rule, binary]
  | argList =>
    have hnext : peek ahead 0 = some .openParen := hstarts
    simp +contextual [Construct.rule, argList, hnext]
  | args => exact nesting_args

end Rule

/-- **In a file without faults brackets are matched in every node.** -/
theorem enclosed_skeletons {symbols : List Symbol} (h : faults symbols = []) :
    Nested [] (Skeleton.shapesAll (skeletons symbols)) ∧
      AllOf Enclosed (Skeleton.shapesAll (skeletons symbols)) := by
  obtain ⟨e, ⟨hsound, houter⟩, he⟩ := nesting_sound.skeletons Rule.rule_nesting h (nofun : _ → _)
  exact ⟨he.outer [] houter, he.sound hsound⟩

end Grammar

end Whittle
