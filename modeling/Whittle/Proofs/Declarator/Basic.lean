import Whittle.Proofs.Expression.Grammar

/-!
# Declarators as they are written

A declarator derives a name into something, one step after the other from the name outward. Stars
stand before what they are applied to and suffixes behind it, and suffixes bind tighter, so a
pointer to which a suffix is applied stands in parentheses. Parentheses may stand elsewhere too and
mean nothing there.

* `Declarator`: a name or nothing, with the steps taken from it.
* `Specifier`: what the types of parameters are written with.
* `Declarator.words`: the words a declarator is written with.
* `Declarator.first?`: the first step that derives something.
* `Declarator.parts`: the parts of the tree of a declarator.
* `Declarator.exists_parts`: **the words of a declarator are the tokens of its tree.**
-/

namespace Whittle

open Expr

/-! ### Syntax -/

/-- The words that tags stand behind. -/
def tagWords : List String := ["struct", "union", "enum"]

/-- A specifier: a word of a builtin type, a qualifier or a tag. -/
inductive Specifier where
  | typeWord (w : OneOf Token.typeWords)
  | qualifier (w : OneOf Token.qualifiers)
  | tag (word : OneOf tagWords) (w : Name)

/-- Whether a specifier names a type. -/
def Specifier.isType : Specifier → Bool
  | .typeWord _ | .tag _ _ => true
  | .qualifier _ => false

/-- The type of a parameter, with its qualifiers. -/
abbrev ParameterType := { specs : List Specifier // specs.any (·.isType) = true }

mutual

/-- A declarator: a name or nothing, and what stands around it. -/
inductive Declarator where
  | name (w : Name)
  | empty
  | parens (d : Declarator)
  | pointer (qualifiers : List (OneOf Token.qualifiers)) (d : Declarator)
  | suffixed (d : Declarator) (suffix : Suffix)

/-- What stands behind a declarator that declares an array or a function. -/
inductive Suffix where
  | array (size : Option Expr)
  | function (params : Parameters)

/-- The parameters of a function, each with its declarator, and perhaps an ellipsis at the end. -/
inductive Parameters where
  | nil
  | ellipsis
  | cons (type : ParameterType) (d : Declarator) (rest : Parameters)

end

/-- A step from a declarator to one around it. -/
inductive Step where
  | parens
  | pointer (qualifiers : List (OneOf Token.qualifiers))
  | suffix (suffix : Suffix)

/-- Whether there are no parameters at all. -/
def Parameters.isNil : Parameters → Bool
  | .nil => true
  | _ => false

namespace Declarator

/-- Induction along the steps of a declarator. -/
@[induction_eliminator]
theorem induction {motive : Declarator → Prop} (name : ∀ w, motive (.name w))
    (empty : motive .empty) (parens : ∀ d, motive d → motive (.parens d))
    (pointer : ∀ qualifiers d, motive d → motive (.pointer qualifiers d))
    (suffixed : ∀ d suffix, motive d → motive (.suffixed d suffix)) : ∀ d, motive d
  | .name w => name w
  | .empty => empty
  | .parens d => parens d (induction name empty parens pointer suffixed d)
  | .pointer qualifiers d => pointer qualifiers d (induction name empty parens pointer suffixed d)
  | .suffixed d suffix => suffixed d suffix (induction name empty parens pointer suffixed d)

/-- Whether a declarator is nothing. Parentheses do not stand around nothing. -/
def isEmpty : Declarator → Bool
  | .empty => true
  | .parens d => d.isEmpty
  | _ => false

/-- Whether stars come first in a declarator. -/
def isPointer : Declarator → Bool
  | .pointer _ _ => true
  | _ => false

/-- The declared name, unless a declarator is abstract. -/
def name? : Declarator → Option Name
  | .name w => some w
  | .empty => none
  | .parens d | .pointer _ d | .suffixed d _ => d.name?

/-- The first step that derives something. Parentheses do not. -/
def first? : Declarator → Option Step
  | .name _ | .empty => none
  | .parens d => d.first?
  | .pointer qualifiers d => d.first?.or (some (.pointer qualifiers))
  | .suffixed d suffix => d.first?.or (some (.suffix suffix))

/-- One more step. -/
def next (d : Declarator) : Step → Declarator
  | .parens => .parens d
  | .pointer qualifiers => .pointer qualifiers d
  | .suffix suffix => .suffixed d suffix

/-- The declarator of a name after some steps. -/
def ofSteps (x : Name) (steps : List Step) : Declarator := steps.foldl next (.name x)

/-- What a suffix may stand behind: stars are put in parentheses. -/
def tight (d : Declarator) : Declarator := if d.isPointer then .parens d else d

end Declarator

/-! ### Words -/

/-- Words in parentheses. -/
def parenthesized (ws : List Text) : List Text := "(".toList :: ws ++ [")".toList]

/-- The words of a specifier. -/
def Specifier.words : Specifier → List Text
  | .typeWord w => [w.1.toList]
  | .qualifier w => [w.1.toList]
  | .tag word w => [word.1.toList, w.1]

/-- The words of the size of an array. -/
def sizeWords : Option Expr → List Text
  | none => []
  | some e => operandWords 2 e.rank e.words

mutual

/-- The words of a declarator. -/
def Declarator.words : Declarator → List Text
  | .name w => [w.1]
  | .empty => []
  | .parens d => if d.isEmpty then [] else parenthesized d.words
  | .pointer qualifiers d => "*".toList :: qualifiers.map (·.1.toList) ++ d.words
  -- suffixes bind tighter than stars
  | .suffixed d suffix => (if d.isPointer then parenthesized d.words else d.words) ++ suffix.words

/-- The words of a suffix. -/
def Suffix.words : Suffix → List Text
  | .array size => "[".toList :: sizeWords size ++ ["]".toList]
  | .function params => parenthesized params.words

/-- The words of some parameters. -/
def Parameters.words : Parameters → List Text
  | .nil => []
  | .ellipsis => ["...".toList]
  | .cons type d rest =>
    type.1.flatMap (·.words) ++ d.words ++ if rest.isNil then [] else ",".toList :: rest.words

end

namespace Declarator

/-- The words up to the end of the name and of the parentheses around it alone. -/
def lead : Declarator → List Text
  | .name w => [w.1]
  | .empty => []
  | .parens d => if d.first?.isNone then (parens d).words else "(".toList :: d.lead
  | .pointer qualifiers d => "*".toList :: qualifiers.map (·.1.toList) ++ d.lead
  | .suffixed d _ => if d.isPointer then "(".toList :: d.lead else d.lead

/-- The text of a declaration with a declarator: its words with blanks between them. -/
def declaration (d : Declarator) : Text :=
  [' '].intercalate ("int".toList :: d.words ++ [";".toList])

end Declarator

/-! ### Trees -/

/-- The token of a qualifier. -/
def qualifierToken (w : String) : Token := ⟨.specifier, w.toList⟩

/-- A declarator in parentheses. -/
def nestedTree (xs : List Tree) : Tree :=
  .node .nestedDeclarator [.token (mark "("), .node .declarator xs, .token (mark ")")]

/-- The token of a word that a tag stands behind. -/
def tagToken (w : String) : Token := ⟨Token.wordKind w.toList, w.toList⟩

/-- The tree of a specifier. -/
def Specifier.tree : Specifier → Tree
  | .typeWord w => .token (typeToken w.1)
  | .qualifier w => .token (qualifierToken w.1)
  | .tag word w => .node .tagSpecifier [.token (tagToken word.1), .token (nameToken w)]

/-- The tree of some specifiers. -/
def specifiersTree (specs : List Specifier) : Tree := .node .specifiers (specs.map (·.tree))

/-- A parameter: its type and, unless it is empty, its declarator. -/
def paramTree (specs : List Specifier) (isEmpty : Bool) (xs : List Tree) : Tree :=
  .node .param (specifiersTree specs :: if isEmpty then [] else [.node .declarator xs])

section

-- how the sizes of arrays are written
variable (f : Expr → Tree)

/-- The tree of the brackets of an array. -/
def arrayTree (size : Option Expr) : Tree :=
  .node .arraySuffix (.token (mark "[") :: (size.map f).toList ++ [.token (mark "]")])

mutual

/-- The parts of the tree of a declarator. -/
def Declarator.parts : Declarator → List Tree
  | .name w => [.node .name [.token (nameToken w)]]
  | .empty => []
  | .parens d => if d.isEmpty then [] else [nestedTree d.parts]
  | .pointer qualifiers d =>
    .token (mark "*") :: qualifiers.map (fun q => .token (qualifierToken q.1)) ++ d.parts
  | .suffixed d suffix => (if d.isPointer then [nestedTree d.parts] else d.parts) ++ [suffix.tree]

/-- The tree of a suffix. -/
def Suffix.tree : Suffix → Tree
  | .array size => arrayTree f size
  | .function params =>
    .node .paramList (.token (mark "(") :: params.trees ++ [.token (mark ")")])

/-- The trees of some parameters and of the commas between them. -/
def Parameters.trees : Parameters → List Tree
  | .nil => []
  | .ellipsis => [.token (mark "...")]
  | .cons type d rest =>
    paramTree type.1 d.isEmpty d.parts ::
      if rest.isNil then [] else .token (mark ",") :: rest.trees

end

/-! ### Words and trees -/

namespace Declarator

/-- Induction along the steps of a declarator, with what suffixes stand behind. -/
theorem tightInduction {motive : Declarator → Prop} (name : ∀ w, motive (.name w))
    (empty : motive .empty) (parens : ∀ d, motive d → motive (.parens d))
    (pointer : ∀ qualifiers d, motive d → motive (.pointer qualifiers d))
    (suffixed : ∀ d suffix, motive d.tight → motive (.suffixed d suffix)) (d : Declarator) :
    motive d := by
  induction d with
  | name w => exact name w
  | empty => exact empty
  | parens d ih => exact parens d ih
  | pointer qualifiers d ih => exact pointer qualifiers d ih
  | suffixed d suffix ih =>
    refine suffixed d suffix ?_
    unfold tight
    split
    · exact parens d ih
    · exact ih

theorem isPointer_tight (d : Declarator) : d.tight.isPointer = false := by
  unfold tight
  split
  · rfl
  · next h => exact Bool.eq_false_iff.2 h

theorem first?_tight (d : Declarator) : d.tight.first? = d.first? := by
  unfold tight
  split <;> rfl

theorem isEmpty_of_isPointer {d : Declarator} (h : d.isPointer = true) : d.isEmpty = false := by
  cases d <;> first | rfl | cases h

theorem parts_suffixed (d : Declarator) (suffix : Suffix) :
    (suffixed d suffix).parts f = d.tight.parts f ++ [suffix.tree f] := by
  rw [parts, tight]
  split
  · next h => rw [parts, isEmpty_of_isPointer h, if_neg Bool.false_ne_true]
  · rfl

theorem words_suffixed (d : Declarator) (suffix : Suffix) :
    (suffixed d suffix).words = d.tight.words ++ suffix.words := by
  rw [words, tight]
  split
  · next h => rw [words, isEmpty_of_isPointer h, if_neg Bool.false_ne_true]
  · rfl

/-- The tokens of a star and its qualifiers. -/
def starTokens (qualifiers : List (OneOf Token.qualifiers)) : List Token :=
  mark "*" :: qualifiers.map fun q => qualifierToken q.1

theorem parts_pointer (qualifiers : List (OneOf Token.qualifiers)) (d : Declarator) :
    (pointer qualifiers d).parts f = (starTokens qualifiers).map .token ++ d.parts f := by
  simp [parts, starTokens]

theorem parts_parens {d : Declarator} (hempty : d.isEmpty = false) :
    (parens d).parts f = [nestedTree (d.parts f)] := by
  rw [parts, hempty, if_neg Bool.false_ne_true]

theorem parts_of_isEmpty {d : Declarator} (h : d.isEmpty = true) : d.parts f = [] := by
  cases d with
  | empty => rfl
  | parens d => rw [parts, if_pos (show d.isEmpty = true from h)]
  | name _ | pointer _ _ | suffixed _ _ => cases h

theorem words_of_isEmpty {d : Declarator} (h : d.isEmpty = true) : d.words = [] := by
  cases d with
  | empty => rfl
  | parens d => rw [words, if_pos (show d.isEmpty = true from h)]
  | name _ | pointer _ _ | suffixed _ _ => cases h

/-- The kinds of the tokens that declarators without stars start with. -/
def coreOpeners : List TokenKind := [.identifier, .openParen, .openBracket]

/-- The kinds of the tokens that declarators start with. -/
def openers : List TokenKind := .star :: coreOpeners

theorem exists_head_suffix (suffix : Suffix) :
    ∃ t ts, (suffix.tree f).leaves = t :: ts ∧ t.kind ∈ coreOpeners := by
  cases suffix with
  | array size => exact ⟨_, _, rfl, by decide⟩
  | function params => exact ⟨_, _, rfl, by decide⟩

theorem exists_head_core {d : Declarator} (hempty : d.isEmpty = false)
    (hpointer : d.isPointer = false) :
    ∃ t ts, Tree.leavesAll (d.parts f) = t :: ts ∧ t.kind ∈ coreOpeners := by
  induction d with
  | name w => exact ⟨_, _, rfl, List.mem_cons_self⟩
  | empty => cases hempty
  | parens d _ =>
    rw [parts_parens f (d := d) hempty]
    exact ⟨_, _, rfl, by decide⟩
  | pointer qualifiers d _ => cases hpointer
  | suffixed d suffix ih =>
    rw [parts]
    split
    · exact ⟨_, _, rfl, by decide⟩
    · next hpointer =>
      -- the suffix itself starts a declarator of nothing
      cases hempty : d.isEmpty with
      | true => simpa [parts_of_isEmpty f hempty, Tree.leavesAll] using exists_head_suffix f suffix
      | false =>
        obtain ⟨t, ts, hleaves, ht⟩ := ih hempty (Bool.eq_false_iff.2 hpointer)
        exact ⟨t, _, by rw [Tree.leavesAll_append, hleaves, List.cons_append], ht⟩

theorem exists_head {d : Declarator} (hempty : d.isEmpty = false) :
    ∃ t ts, Tree.leavesAll (d.parts f) = t :: ts ∧ t.kind ∈ openers := by
  cases hpointer : d.isPointer with
  | true =>
    cases d with
    | pointer qualifiers d => exact ⟨_, _, rfl, by decide⟩
    | name _ | empty | parens _ | suffixed _ _ => cases hpointer
  | false =>
    obtain ⟨t, ts, hleaves, ht⟩ := exists_head_core f hempty hpointer
    exact ⟨t, ts, hleaves, List.mem_cons_of_mem _ ht⟩

end Declarator

end

/-! ### What trees are written with -/

theorem qualifier_token {w : String} (h : w ∈ Token.qualifiers) :
    (qualifierToken w).Solid ∧ Grammar.Sense.ofToken (qualifierToken w) ≠ .typeWord := by
  have hreserved : (w, TokenKind.specifier) ∈ Token.reserved :=
    List.mem_append_right _ (List.mem_map.2 ⟨w, List.mem_append_right _ h, rfl⟩)
  have hall : ∀ w ∈ Token.qualifiers, Grammar.Sense.ofToken (qualifierToken w) ≠ .typeWord := by
    decide
  exact ⟨Token.solid_reserved hreserved, hall w h⟩

/-- Qualifiers are made of their words. -/
theorem parts_qualifiers (qualifiers : List (OneOf Token.qualifiers)) :
    ∃ us, Parts (qualifiers.map fun q => .token (qualifierToken q.1))
      (qualifiers.map (·.1.toList)) us := by
  induction qualifiers with
  | nil => exact ⟨_, .nil⟩
  | cons q qualifiers ih =>
    obtain ⟨us, hus⟩ := ih
    exact ⟨_, .token (qualifier_token q.2).1 hus⟩

theorem tag_token {w : String} (h : w ∈ tagWords) :
    (tagToken w).Solid ∧ (tagToken w).kind ∈ Grammar.Construct.tagOpeners := by
  have hall : ∀ w ∈ tagWords, (w, Token.wordKind w.toList) ∈ Token.reserved ∧
      Token.wordKind w.toList ∈ Grammar.Construct.tagOpeners := by decide
  exact ⟨Token.solid_reserved (hall w h).1, (hall w h).2⟩

theorem parts_specifier (spec : Specifier) : ∃ us, Parts [spec.tree] spec.words us := by
  cases spec with
  | typeWord w => exact ⟨_, .token (typeWord_token w.2).1 .nil⟩
  | qualifier w => exact ⟨_, .token (qualifier_token w.2).1 .nil⟩
  | tag word w =>
    have hname : (nameToken w).Solid := Token.solid_name w
    exact ⟨_, .node (by decide) (.token (tag_token word.2).1 (.token hname .nil))⟩

/-- The kinds of the tokens that specifiers start with. -/
def Specifier.openers : List TokenKind := .specifier :: Grammar.Construct.tagOpeners

theorem Specifier.exists_head (spec : Specifier) :
    ∃ t ts, spec.tree.leaves = t :: ts ∧ t.kind ∈ openers := by
  cases spec with
  | typeWord w | qualifier w => exact ⟨_, _, rfl, List.mem_cons_self⟩
  | tag word w => exact ⟨_, _, rfl, List.mem_cons_of_mem _ (tag_token word.2).2⟩

/-- Specifiers are made of their words. -/
theorem parts_specifiers (specs : List Specifier) :
    ∃ us, Parts (specs.map (·.tree)) (specs.flatMap (·.words)) us := by
  induction specs with
  | nil => exact ⟨_, .nil⟩
  | cons spec specs ih =>
    obtain ⟨us, hus⟩ := parts_specifier spec
    obtain ⟨vs, hvs⟩ := ih
    exact ⟨_, hus.append hvs⟩

/-- What stands in parentheses is made of its words. -/
theorem parts_parenthesized {xs us : List Tree} {ws : List Text} (h : Parts xs ws us) :
    ∃ vs, Parts (.token (mark "(") :: xs ++ [.token (mark ")")]) (parenthesized ws) vs := by
  have hopen : (mark "(").Solid := solid_mark (by decide)
  have hclose : (mark ")").Solid := solid_mark (by decide)
  exact ⟨_, .token hopen (h.append (.token hclose .nil))⟩

theorem parts_nested {xs us : List Tree} {ws : List Text} (h : Parts xs ws us) :
    ∃ vs, Parts [nestedTree xs] (parenthesized ws) vs := by
  have hinner : Parts [.node .declarator xs] ws _ := h.node (by decide)
  obtain ⟨vs, hvs⟩ := parts_parenthesized hinner
  exact ⟨_, hvs.node (by decide)⟩

/-- A parameter is made of its type and its declarator. -/
theorem parts_param (specs : List Specifier) {f : Expr → Tree} {d : Declarator} {us : List Tree}
    (h : Parts (d.parts f) d.words us) :
    ∃ vs, Parts [paramTree specs d.isEmpty (d.parts f)]
      (specs.flatMap (·.words) ++ d.words) vs := by
  obtain ⟨ts, hts⟩ := parts_specifiers specs
  have htype : Parts [specifiersTree specs] _ _ := hts.node (by decide)
  unfold paramTree
  split
  · next hempty =>
    rw [Declarator.words_of_isEmpty hempty, List.append_nil]
    exact ⟨_, htype.node (by decide)⟩
  · have hinner : Parts [.node .declarator (d.parts f)] d.words _ := h.node (by decide)
    exact ⟨_, (htype.append hinner).node (by decide)⟩

/-- Whether a function gives for each size of an array a tree that it is written as. -/
def WritesSizes (f : Expr → Tree) : Prop :=
  ∀ e : Expr, e.Writes 2 (operandWords 2 e.rank e.words) (f e)

section

variable {f : Expr → Tree}

theorem parts_array (hf : WritesSizes f) (size : Option Expr) :
    ∃ us, Parts [arrayTree f size] (Suffix.array size).words us := by
  have hopen : (mark "[").Solid := solid_mark (by decide)
  have hclose : (mark "]").Solid := solid_mark (by decide)
  cases size with
  | none => exact ⟨_, .node (by decide) (.token hopen (.token hclose .nil))⟩
  | some e => exact ⟨_, .node (by decide) (.token hopen (.operand (hf e) (.token hclose .nil)))⟩

mutual

/-- **The words of a declarator are the tokens of its tree.** -/
theorem Declarator.exists_parts (hf : WritesSizes f) (d : Declarator) :
    ∃ us, Parts (d.parts f) d.words us := by
  cases d with
  | name w => exact ⟨_, .node (by decide) (.token (Token.solid_name w) .nil)⟩
  | empty => exact ⟨_, .nil⟩
  | parens d =>
    obtain ⟨us, hus⟩ := Declarator.exists_parts hf d
    rw [Declarator.parts, Declarator.words]
    split
    · exact ⟨_, .nil⟩
    · exact parts_nested hus
  | pointer qualifiers d =>
    have hstar : (mark "*").Solid := solid_mark (by decide)
    obtain ⟨us, hus⟩ := Declarator.exists_parts hf d
    obtain ⟨vs, hvs⟩ := parts_qualifiers qualifiers
    exact ⟨_, .token hstar (hvs.append hus)⟩
  | suffixed d suffix =>
    obtain ⟨us, hus⟩ := Declarator.exists_parts hf d
    obtain ⟨vs, hvs⟩ := Suffix.exists_parts hf suffix
    rw [Declarator.parts, Declarator.words]
    split
    · obtain ⟨us', hus'⟩ := parts_nested hus
      exact ⟨_, hus'.append hvs⟩
    · exact ⟨_, hus.append hvs⟩

theorem Suffix.exists_parts (hf : WritesSizes f) (suffix : Suffix) :
    ∃ us, Parts [suffix.tree f] suffix.words us := by
  cases suffix with
  | array size => exact parts_array hf size
  | function params =>
    obtain ⟨us, hus⟩ := Parameters.exists_parts hf params
    obtain ⟨vs, hvs⟩ := parts_parenthesized hus
    exact ⟨_, hvs.node (by decide)⟩

theorem Parameters.exists_parts (hf : WritesSizes f) (params : Parameters) :
    ∃ us, Parts (params.trees f) params.words us := by
  cases params with
  | nil => exact ⟨_, .nil⟩
  | ellipsis => exact ⟨_, .token (solid_mark (by decide)) .nil⟩
  | cons type d rest =>
    have hcomma : (mark ",").Solid := solid_mark (by decide)
    obtain ⟨us, hus⟩ := Declarator.exists_parts hf d
    obtain ⟨vs, hvs⟩ := Parameters.exists_parts hf rest
    obtain ⟨us', hus'⟩ := parts_param type.1 hus
    rw [Parameters.trees, Parameters.words]
    split
    · rw [List.append_nil]
      exact ⟨_, hus'⟩
    · exact ⟨_, hus'.append (.token hcomma hvs)⟩

end

end

end Whittle
