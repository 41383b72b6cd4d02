import Whittle.Proofs.Grammar.Form

/-!
# What a rule makes and reads by itself

A rule makes nodes of a few kinds only, and some constructs are read in a few places only. What all
other steps keep, such a rule keeps as well.

* `Rule.Confined`: a rule makes only nodes of some kinds and reads only some constructs.
* `Lasting`: a relation between states that every step keeps, as far as nodes of some kinds are
  made.
* `Rule.Confined.lasts`: **a confined rule keeps what its steps keep**, if the constructs it reads
  do.
* `Construct.makes`, `Construct.mayRead`: the nodes that the rule of a construct makes itself, and
  the constructs that it may read.
* `Rule.confined_rule`: **each rule keeps to these tables.**
-/

namespace Whittle.Grammar

/-- A relation between the state before and the state after that every single step keeps, as far as
nodes of some kinds are made. -/
structure Lasting (makes : NodeKind → Bool) (R : State → State → Prop) : Prop where
  refl : ∀ s, R s s
  trans : ∀ {s t u}, R s t → R t u → R s u
  bump : ∀ s, R s (s.act .bump)
  settle : ∀ s, R s (s.act .settle)
  fault : ∀ s f, R s (s.act (.fault f))
  declare : ∀ s n b, R s (s.act (.declare n b))
  gather : ∀ s k, makes k = true → R s (s.act (.gather k))
  segment : ∀ {s s'}, R { s with built := [] } s' → R s { s' with built := s'.built ++ s.built }
  scope : ∀ {s s'} (names : Names), R { s with scopes := names :: s.scopes } s' →
    R s { s' with scopes := s'.scopes.tail }

namespace Rule

variable {α β : Type} {makes : NodeKind → Bool} {reads : Construct → Bool} {Q : α → Prop}

/-- **Whether a rule makes only nodes of some kinds and reads only some constructs**, and may end
with results that satisfy `Q`. -/
def Confined (makes : NodeKind → Bool) (reads : Construct → Bool) {α : Type} :
    Rule α → (α → Prop) → Prop
  | .done a, Q => Q a
  | .look next, Q => ∀ v, (next v).Confined makes reads Q
  | .act (.gather k) next, Q => makes k = true ∧ next.Confined makes reads Q
  | .act .bump next, Q => next.Confined makes reads Q
  | .act .settle next, Q => next.Confined makes reads Q
  | .act (.fault _) next, Q => next.Confined makes reads Q
  | .act (.declare _ _) next, Q => next.Confined makes reads Q
  | .segment inner next, Q =>
    inner.Confined makes reads fun b => (next b).Confined makes reads Q
  | .scope _ inner next, Q =>
    inner.Confined makes reads fun b => ∀ ns, (next b ns).Confined makes reads Q
  | .call c next, Q => reads c = true ∧ ∀ r, (next r).Confined makes reads Q

@[simp] theorem confined_pure (a : α) : (pure a : Rule α).Confined makes reads Q ↔ Q a := Iff.rfl

@[simp] theorem confined_bind {r : Rule α} {f : α → Rule β} {Q : β → Prop} :
    (r >>= f).Confined makes reads Q ↔
      r.Confined makes reads fun a => (f a).Confined makes reads Q := by
  change (r.bind f).Confined makes reads Q ↔ _
  induction r with
  | done a => exact Iff.rfl
  | look next ih => exact forall_congr' fun v => ih v
  | act action next ih =>
    cases action with
    | gather k => exact and_congr_right fun _ => ih
    | _ => exact ih
  | segment inner next _ ih => simp only [Rule.bind, Confined, ih]
  | scope names inner next _ ih => simp only [Rule.bind, Confined, ih]
  | call c next ih => simp only [Rule.bind, Confined, ih]

@[simp] theorem confined_ite {p : Prop} [Decidable p] {r t : Rule α} :
    (if p then r else t).Confined makes reads Q ↔
      (p → r.Confined makes reads Q) ∧ (¬p → t.Confined makes reads Q) := by
  by_cases h : p <;> simp [h]

@[simp] theorem confined_view {Q : View → Prop} : view.Confined makes reads Q ↔ ∀ v, Q v := Iff.rfl

@[simp] theorem confined_next {Q : Option TokenKind → Prop} :
    next.Confined makes reads Q ↔ ∀ v : View, Q (v.kindAt 0) := Iff.rfl

@[simp] theorem confined_sees {k : TokenKind} {Q : Bool → Prop} :
    (sees k).Confined makes reads Q ↔ ∀ v : View, Q (v.kindAt 0 == some k) := Iff.rfl

@[simp] theorem confined_remaining {Q : Nat → Prop} :
    remaining.Confined makes reads Q ↔ ∀ v : View, Q v.ahead.length := Iff.rfl

@[simp] theorem confined_endsAt {k : TokenKind} {Q : Bool → Prop} :
    (endsAt k).Confined makes reads Q ↔
      ∀ v : View, Q (v.ahead.isEmpty || v.kindAt 0 == some k) :=
  Iff.rfl

@[simp] theorem confined_bump {Q : Unit → Prop} : bump.Confined makes reads Q ↔ Q () := Iff.rfl

@[simp] theorem confined_fault {f : Fault} {Q : Unit → Prop} :
    (fault f).Confined makes reads Q ↔ Q () := Iff.rfl

@[simp] theorem confined_declare {n : Option Nat} {b : Bool} {Q : Unit → Prop} :
    (declare n b).Confined makes reads Q ↔ Q () := by
  cases n <;> exact Iff.rfl

@[simp] theorem confined_gather {k : NodeKind} {Q : Unit → Prop} :
    (gather k).Confined makes reads Q ↔ makes k = true ∧ Q () := Iff.rfl

@[simp] theorem confined_read {c : Construct} {Q : c.Result → Prop} :
    @Confined makes reads (no_index c.Result) (read c) Q ↔ reads c = true ∧ ∀ r, Q r := Iff.rfl

@[simp] theorem confined_apart {r : Rule α} :
    (apart r).Confined makes reads Q ↔ r.Confined makes reads Q := Iff.rfl

@[simp] theorem confined_node {k : NodeKind} {r : Rule α} :
    (node k r).Confined makes reads Q ↔ r.Confined makes reads fun a => makes k = true ∧ Q a := by
  simp [node]

@[simp] theorem confined_inScope {names : Names} {r : Rule Unit} {Q : Names → Prop} :
    (inScope names r).Confined makes reads Q ↔ r.Confined makes reads fun _ => ∀ ns, Q ns := Iff.rfl

/-- **A confined rule keeps what its steps keep**, if the constructs it reads do. -/
theorem Confined.lasts {K : Contract} {R : State → State → Prop} (hR : Lasting makes R)
    (hread : ∀ c s, reads c = true → K.pre c s ∧ ∀ r s', K.post c s r s' → R s s')
    {r : Rule α} (h : r.Confined makes reads Q) (s : State) :
    r.wp K s fun a s' => Q a ∧ R s s' := by
  induction r generalizing s with
  | done a => exact ⟨h, hR.refl s⟩
  | look next ih => exact ih s.view (h s.view) s
  | act action next ih =>
    have after {t : State} (ht : R s t) (h : next.Confined makes reads Q) :
        next.wp K t fun a s' => Q a ∧ R s s' :=
      wp_mono (ih h t) fun _ _ hs' => ⟨hs'.1, hR.trans ht hs'.2⟩
    cases action with
    | bump => exact after (hR.bump s) h
    | settle => exact after (hR.settle s) h
    | fault f => exact .inr (after (hR.fault s f) h)
    | declare n b => exact after (hR.declare s n b) h
    | gather k => exact after (hR.gather s k h.1) h.2
  | segment inner next ihi ihn =>
    rw [wp]
    refine wp_mono (ihi h { s with built := [] }) ?_
    rintro b t ⟨hnext, ht⟩
    exact wp_mono (ihn b hnext _) fun _ _ hs' => ⟨hs'.1, hR.trans (hR.segment ht) hs'.2⟩
  | scope names inner next ihi ihn =>
    rw [wp]
    refine wp_mono (ihi h { s with scopes := names :: s.scopes }) ?_
    rintro b t ⟨hnext, ht⟩
    exact wp_mono (ihn b _ (hnext _) _) fun _ _ hs' => ⟨hs'.1, hR.trans (hR.scope names ht) hs'.2⟩
  | call c next ih =>
    obtain ⟨hpre, hpost⟩ := hread c s h.1
    refine ⟨hpre, fun r t ht => ?_⟩
    exact wp_mono (ih r (h.2 r) t) fun _ _ hs' => ⟨hs'.1, hR.trans (hpost r t ht) hs'.2⟩

end Rule

/-! ### The tables -/

namespace Construct

/-- The kinds of the nodes that the rule of a construct makes itself. -/
def makes : Construct → List NodeKind
  | .declarations | .fields | .params | .initializers | .blockItems | .asmOperands => [.error]
  | .externalDeclaration => [.emptyStmt, .error]
  | .declaration _ => [.initDeclarator, .declGroup, .functionDef]
  | .moreDeclarators _ => [.initDeclarator]
  | .specifiers => [.specifiers]
  | .specifierList _ _ | .attributes _ => [.attr]
  | .tagSpecifier => [.tagSpecifier]
  | .structBody => [.structBody]
  | .fieldGroup => [.fieldGroup]
  | .enumBody => [.enumBody]
  | .enumerators => [.enumerator, .name]
  | .typeofSpecifier => [.typeofSpecifier]
  | .declarator => [.declarator, .name, .nestedDeclarator]
  | .arraySuffix => [.arraySuffix]
  | .paramList => [.paramList]
  | .param => [.param]
  | .initList => [.initList]
  | .designator => [.designator]
  | .typeName => [.typeName]
  | .compound => [.compoundStmt]
  | .statement =>
    [.ifStmt, .whileStmt, .switchStmt, .doStmt, .caseStmt, .returnStmt, .jumpStmt, .emptyStmt,
      .labeledStmt, .exprStmt]
  | .forStatement => [.forStmt]
  | .asmStatement => [.asmStmt]
  | .commaTail | .assignment | .binaryTail _ => [.binaryExpr]
  | .conditional => [.conditionalExpr]
  | .unary => [.prefixExpr, .sizeofExpr, .compoundLiteral, .castExpr]
  | .postfixTail => [.callExpr, .indexExpr, .fieldExpr, .postfixExpr]
  | .argList => [.argList]
  | .primary => [.nameRef, .literal, .stmtExpr, .parenExpr, .error]
  | .functionBody _ | .parameterDeclarations | .fieldDeclarators | .balanced _ | .pointers
  | .suffixes _ _ | .initializer | .designatorParts | .blockItem | .labelBody | .condition
  | .expression | .binary _ | .args | .series _ => []

/-- Whether the rule of a construct may read another. Declarations outside functions and the tails
of expressions are each read in a few places only. -/
def mayRead (c : Construct) : Construct → Bool
  | .externalDeclaration => (c matches .declarations)
  | .commaTail => (c matches .expression | .commaTail)
  | .binaryTail _ => (c matches .binary _ | .binaryTail _)
  | .postfixTail => (c matches .unary | .postfixTail)
  | _ => true

end Construct

namespace Rule

attribute [local simp] Construct.makes Construct.mayRead leafNode reject orReject ifSees unlessSees
  accept ifAccepts Rule.optional require requireThen

/-- **Each rule keeps to the tables** of what it makes and of what it may read. -/
theorem confined_rule (c : Construct) :
    c.rule.Confined (fun k => decide (k ∈ c.makes)) c.mayRead fun _ => True := by
  cases c with
  | declarations => simp [Construct.rule, declarations]
  | externalDeclaration =>
    rw [Construct.rule, externalDeclaration, confined_bind, confined_view]
    intro v
    split <;> simp
  | declaration place => simp [Construct.rule, declaration, firstDeclarator, initPart, unlessInHead]
  | moreDeclarators isTypedef => simp [Construct.rule, moreDeclarators, initPart]
  | functionBody names => simp [Construct.rule, functionBody]
  | parameterDeclarations => simp [Construct.rule, parameterDeclarations]
  | specifiers => simp [Construct.rule, specifiers]
  | specifierList isTypedef hasType =>
    rw [Construct.rule, specifierList, confined_bind, confined_view]
    intro v
    split <;> simp [oneAttribute]
  | tagSpecifier => simp [Construct.rule, tagSpecifier]
  | structBody => simp [Construct.rule, structBody]
  | fields => simp [Construct.rule, fields]
  | fieldGroup => simp [Construct.rule, fieldGroup]
  | fieldDeclarators => simp [Construct.rule, fieldDeclarators]
  | enumBody => simp [Construct.rule, enumBody]
  | enumerators => simp [Construct.rule, enumerators]
  | attributes labels => simp [Construct.rule, attributes, oneAttribute]
  | balanced depth =>
    rw [Construct.rule, balanced, confined_bind, confined_next]
    intro v
    split <;> simp
  | typeofSpecifier => simp [Construct.rule, typeofSpecifier, typeofOperand]
  | declarator =>
    rw [Construct.rule, declarator, confined_node, confined_bind, confined_read]
    refine ⟨by simp, fun _ => ?_⟩
    rw [confined_bind, declaratorCore, confined_bind, confined_view]
    intro v
    split <;> simp
  | pointers => simp [Construct.rule, pointers]
  | suffixes isFirst known =>
    rw [Construct.rule, suffixes, confined_bind, confined_next]
    intro v
    split <;> simp
  | arraySuffix => simp [Construct.rule, arraySuffix, arraySize]
  | paramList => simp [Construct.rule, paramList]
  | params => simp [Construct.rule, params]
  | param =>
    rw [Construct.rule, param, confined_node, confined_bind, confined_read]
    refine ⟨by simp, fun _ => ?_⟩
    rw [confined_bind, confined_next]
    intro v
    split <;> simp
  | initializer => simp [Construct.rule, initializer]
  | initList => simp [Construct.rule, initList]
  | initializers => simp [Construct.rule, initializers, listedInitializer, optionalDesignator]
  | designator => simp [Construct.rule, designator]
  | designatorParts => simp [Construct.rule, designatorParts]
  | typeName =>
    rw [Construct.rule, typeName, confined_node, confined_bind, confined_read]
    refine ⟨by simp, fun _ => ?_⟩
    rw [confined_bind, confined_next]
    intro v
    split <;> simp
  | compound => simp [Construct.rule, compound]
  | blockItems => simp [Construct.rule, blockItems]
  | blockItem => simp [Construct.rule, blockItem]
  | statement =>
    rw [Construct.rule, statement, confined_bind, confined_view]
    intro v
    split <;> simp [conditionStatement, doStatement, caseStatement, defaultStatement,
      returnStatement, jumpStatement, gotoStatement, gotoTarget, labeledStatement,
      expressionStatement]
  | labelBody => simp [Construct.rule, labelBody]
  | condition => simp [Construct.rule, condition]
  | forStatement => simp [Construct.rule, forStatement, forClauses, forInit]
  | asmStatement => simp [Construct.rule, asmStatement]
  | asmOperands =>
    have operand {Q : Unit → Prop} (h : Q ()) :
        asmOperand.Confined (fun k => decide (k ∈ Construct.makes .asmOperands))
          (Construct.mayRead .asmOperands) Q := by
      rw [asmOperand, confined_bind, confined_next]
      intro v
      split <;> simp [h]
    rw [Construct.rule, asmOperands, confined_bind, confined_endsAt]
    intro v
    rw [confined_ite]
    exact ⟨fun _ => trivial, fun _ => confined_bind.2 (operand (by simp))⟩
  | expression => simp [Construct.rule, expression]
  | commaTail => simp [Construct.rule, commaTail]
  | assignment =>
    rw [Construct.rule, assignment, confined_apart, confined_bind, confined_read]
    refine ⟨by simp, fun _ => ?_⟩
    rw [confined_bind, confined_next]
    intro v
    split <;> simp
  | conditional => simp [Construct.rule, conditional]
  | binary level => simp [Construct.rule, binary]
  | binaryTail level => simp [Construct.rule, binaryTail]
  | unary =>
    rw [Construct.rule, unary, confined_bind, confined_view]
    intro v
    split <;> simp [prefixed, labelAddress, postfixed, sizeofExpression, typed]
  | postfixTail =>
    rw [Construct.rule, postfixTail, confined_bind, confined_next]
    intro v
    split <;> simp
  | argList => simp [Construct.rule, argList]
  | args => simp [Construct.rule, args, argument]
  | primary =>
    rw [Construct.rule, primary, confined_bind, confined_view]
    intro v
    split <;> simp
  | series which => simp [Construct.rule, series]

end Rule

end Whittle.Grammar
