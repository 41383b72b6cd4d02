import Whittle.Proofs.Expression.Reading
import Whittle.Proofs.Tree.Bare

/-!
# Parsing undoes printing

An expression is printed into the body of a function. The text is read without errors, and below the
`return` statement stands the expression.

* `returning`: the definition of a function that returns an expression.
* `built_declaration`: such a definition is read as it stands.
* `parse_print`: **parsing undoes printing.**
-/

namespace Whittle

open Grammar Construct Expr

/-! ### A function that returns an expression -/

/-- The word that starts a `return` statement. -/
def returnToken : Token := ⟨.kwReturn, "return".toList⟩

/-- A `return` statement. -/
def returnStatement (x : Tree) : Tree :=
  .node .returnStmt [.token returnToken, x, .token (mark ";")]

/-- A block with a `return` statement. -/
def returnBlock (x : Tree) : Tree :=
  .node .compoundStmt [.token (mark "\x7b"), returnStatement x, .token (mark "\x7d")]

/-- A parameter list that says that there are no parameters. -/
def noParameters : Tree :=
  .node .paramList [.token (mark "("),
    .node .param [.node .specifiers [.token (typeToken "void")]], .token (mark ")")]

/-- The name of the function. -/
def functionName : Token := ⟨.identifier, "f".toList⟩

/-- The declarator of a function without parameters. -/
def functionDeclarator : Tree :=
  .node .declarator [.node .name [.token functionName], noParameters]

/-- The definition of a function that returns an expression. -/
def returning (x : Tree) : Tree :=
  .node .functionDef
    [.node .specifiers [.token (typeToken "int")], functionDeclarator, returnBlock x]

variable {names : List Text} {s : State} {rest : List Symbol} {x : Tree}

/-! ### Its body -/

theorem Grammar.State.Plain.entered (hs : s.Plain) : (s.entered []).Plain := hs

theorem took_returnStatement (hx : x.StandsAt 1) (hs : s.Plain)
    (hahead : s.ahead = (returnStatement x).symbols names ++ rest) :
    Took names [returnStatement x] s (statement.after s) := by
  have hahead : s.ahead = .ofToken names returnToken ::
      (x.symbols names ++ .ofToken names (mark ";") :: rest) := by
    simpa [returnStatement] using hahead
  have hreturn : Took names [.token returnToken] s.opened (s.opened.act .bump) :=
    .bump hahead rfl
  have hahead₁ : (s.opened.act .bump).ahead =
      x.symbols names ++ .ofToken names (mark ";") :: rest :=
    State.ahead_bump_of_ahead hahead
  have hinner := (readable_of_standsAt hx names).expression _ _ (hs.opened.took hreturn) hahead₁
    (loose_of_closer rfl (by decide) 0 rest)
  have hahead₂ := hinner.ahead_eq hahead₁
  rw [after_statement_return (next_of_kind hahead rfl) (next_ne_of_standsAt hx hahead₁ (by decide))
    (next_of_kind hahead₂ rfl)]
  exact (((hreturn.trans hinner).snoc hahead₂ rfl).gather rfl .returnStmt).joined

theorem took_returnBlock (hx : x.StandsAt 1) (hs : s.Plain)
    (hahead : s.ahead = (returnBlock x).symbols names ++ rest) :
    Took names [returnBlock x] s (compound.after s) := by
  have hahead : s.ahead = .ofToken names (mark "\x7b") ::
      ((returnStatement x).symbols names ++ .ofToken names (mark "\x7d") :: rest) := by
    simpa [returnBlock] using hahead
  have hopen : Took names [.token (mark "\x7b")] s.opened (s.opened.act .bump) := .bump hahead rfl
  have hahead₁ : ((s.opened.act .bump).entered []).ahead =
      (returnStatement x).symbols names ++ .ofToken names (mark "\x7d") :: rest :=
    State.ahead_bump_of_ahead hahead
  have hinner := took_returnStatement hx (hs.opened.took hopen).entered hahead₁
  have hahead₂ := hinner.ahead_eq hahead₁
  have hlength := hinner.length_ne (by simp [returnStatement])
  have hclose : (statement.after ((s.opened.act .bump).entered [])).next = some .closeBrace :=
    next_of_kind hahead₂ rfl
  have hitems : blockItems.after ((s.opened.act .bump).entered []) =
      statement.after ((s.opened.act .bump).entered []) := by
    rw [after_blockItems_return (next_of_kind hahead₁ rfl) hlength,
      after_blockItems_of_close hclose]
  rw [after_compound rfl (next_of_kind hahead rfl) (by rw [hitems, hclose]), hitems]
  exact (((hopen.trans hinner.closed).snoc hahead₂ rfl).gather rfl .compoundStmt).joined

theorem took_functionBody (hx : x.StandsAt 1) (hs : s.Plain)
    (hahead : s.ahead = (returnBlock x).symbols names ++ rest) :
    Took names [returnBlock x] s ((functionBody []).after s) := by
  have hopen : s.next = some .openBrace := State.next_of_ahead hahead
  rw [after_functionBody hopen]
  exact (took_returnBlock hx hs.entered hahead).closed

/-! ### Its declarator -/

theorem namesType_of_mem {w : String} (h : w ∈ Token.typeWords) :
    ∀ t ∈ [typeToken w], t.NamesType := by
  simpa using (typeWord_token h).2

theorem read_noParameters (hahead : s.ahead = noParameters.symbols names ++ rest) :
    (paramList.read s).1 = [] ∧ Took names [noParameters] s (paramList.after s) := by
  have hahead : s.ahead = .ofToken names (mark "(") :: .ofToken names (typeToken "void") ::
      .ofToken names (mark ")") :: rest := hahead
  have hopen : Took names [.token (mark "(")] s.opened (s.opened.act .bump) := .bump hahead rfl
  let s₁ := (s.opened.act .bump).entered []
  have hahead₁ : s₁.ahead = [typeToken "void"].map (.ofToken names) ++
      .ofToken names (mark ")") :: rest := State.ahead_bump_of_ahead hahead
  have hspecifiers := (read_specifiers_types (s := s₁.opened) (by simp)
    (namesType_of_mem (by decide)) hahead₁ fun s' hs' =>
      ⟨.closeParen, by decide, next_of_kind hs' rfl⟩).2
  have hahead₂ : (specifiers.after s₁.opened).ahead = .ofToken names (mark ")") :: rest :=
    hspecifiers.ahead_eq hahead₁
  -- the one parameter has no declarator
  have hparam := (hspecifiers.gather rfl .param).joined
  rw [← after_param (next_of_kind hahead₂ rfl) (.inr rfl)] at hparam
  have hahead₃ : (param.after s₁).ahead = .ofToken names (mark ")") :: rest :=
    hparam.ahead_eq hahead₁
  have hclose : (param.after s₁).next = some .closeParen := next_of_kind hahead₃ rfl
  have hparams : params.after s₁ = param.after s₁ :=
    after_params (next_of_kind hahead₁ rfl) (by decide) (by decide) (hparam.length_ne (by simp))
      (by simp [hclose])
  rw [← hparams] at hparam hahead₃
  rw [after, read_paramList rfl (next_of_kind hahead rfl) (next_of_kind hahead₃ rfl)]
  refine ⟨?_, (((hopen.trans hparam.closed).snoc hahead₃ rfl).gather rfl .paramList).joined⟩
  rw [hparam.scopes]
  rfl

theorem read_functionDeclarator {y : Symbol} (hy : y.kind = .openBrace)
    (hahead : s.ahead = functionDeclarator.symbols names ++ y :: rest) :
    (declarator.read s).1.params = some [] ∧
      Took names [functionDeclarator] s (declarator.after s) := by
  have hahead : s.ahead = .ofToken names functionName ::
      (noParameters.symbols names ++ y :: rest) := hahead
  let s₁ := ((s.opened.opened.act .bump).act (.gather .name)).joined s.opened
  have hname : Took names [.node .name [.token functionName]] s.opened s₁ :=
    took_leafNode .name hahead rfl
  have hahead₁ : s₁.ahead = noParameters.symbols names ++ y :: rest := hname.ahead_eq hahead
  obtain ⟨hnames, hparams⟩ := read_noParameters hahead₁
  have hahead₂ := hparams.ahead_eq hahead₁
  have hbrace : (paramList.after s₁).next = some .openBrace := by
    rw [State.next_of_ahead hahead₂, hy]
  have hsuffixes : (suffixes true none).read s₁ = (some [], paramList.after s₁) := by
    rw [read_suffixes_params (State.next_of_ahead hahead₁),
      read_suffixes_end (by simp [hbrace]) (by simp [hbrace]), hnames]
    rfl
  have hend : ((suffixes true none).after s₁).next = some .openBrace := by rwa [after, hsuffixes]
  rw [after, read_declarator rfl (State.next_of_ahead hahead) hend]
  refine ⟨congrArg Prod.fst hsuffixes, ?_⟩
  rw [after, hsuffixes]
  exact ((hname.trans hparams).gather rfl .declarator).joined

/-! ### The whole definition -/

theorem Grammar.State.Plain.declaring (hs : s.Plain) (n : Option Nat) :
    (s.declaring n false).Plain := by
  intro m
  have hm := hs m
  -- the declared name means no type, and the others mean what they did
  cases n with
  | none => exact hm
  | some n =>
    unfold State.declaring State.act
    cases hscopes : s.scopes with
    | nil => exact hm
    | cons top below =>
      unfold View.isTypedef State.view at hm ⊢
      rw [hscopes] at hm
      by_cases hn : m = n
      · simp [Names.declare, Names.find?, hn]
      · have hlookup : (top.declare n false).find? m = top.find? m := by
          simp [Names.declare, Names.find?, List.lookup_cons, beq_eq_false_iff_ne.2 hn]
        simpa [List.findSome?_cons, hlookup] using hm

/-- The definition of a function that returns an expression is read as it stands. -/
theorem built_declaration (hx : x.StandsAt 1) (hs : s.Plain)
    (hahead : s.ahead = (returning x).symbols names ++ rest) :
    Built names [returning x] s ((declaration .file).after s) := by
  have hahead : s.ahead = [typeToken "int"].map (.ofToken names) ++
      (functionDeclarator.symbols names ++ ((returnBlock x).symbols names ++ rest)) := by
    simpa [returning] using hahead
  have hint := namesType_of_mem (w := "int") (by decide)
  have hblock : (returnBlock x).symbols names ++ rest = .ofToken names (mark "\x7b") ::
      ((returnStatement x).symbols names ++ .ofToken names (mark "\x7d") :: rest) := by
    simp [returnBlock]
  -- the specifiers end at the name of the function
  obtain ⟨hresult, hspecifiers⟩ := read_specifiers_types (s := s.opened) (by simp) hint hahead
    fun s' hs' => ⟨.identifier, by decide, State.next_of_ahead hs'⟩
  let s₁ := specifiers.after s.opened
  have hahead₁ : s₁.opened.ahead =
      functionDeclarator.symbols names ++ ((returnBlock x).symbols names ++ rest) :=
    hspecifiers.ahead_eq hahead
  -- and the declarator at the brace
  rw [hblock] at hahead₁
  obtain ⟨hparams, hdeclarator⟩ := read_functionDeclarator rfl hahead₁
  have hahead₂ := hdeclarator.ahead_eq hahead₁
  have hbrace : (declarator.after s₁.opened).next = some .openBrace := State.next_of_ahead hahead₂
  rw [← hblock] at hahead₂
  have hbefore := hspecifiers.trans hdeclarator.joined
  -- the function is declared before its body is read
  let d := (declarator.read s₁.opened).1
  let s₃ := ((declarator.after s₁.opened).joined s₁).declaring d.name false
  have hahead₃ : s₃.ahead = (returnBlock x).symbols names ++ rest := by
    rw [State.ahead_declaring, State.ahead_joined, hahead₂]
  have hbody := took_functionBody hx ((hs.opened.took hbefore).declaring d.name) hahead₃
  rw [after_declaration (State.next_of_ahead hahead) (Prod.ext hresult rfl)
    (State.next_of_ahead hahead₁) (d := d) rfl hbrace, hparams, Option.getD_some]
  have hdeclared := hbefore.toBuilt.declaring d.name false
  exact ((hdeclared.trans hbody.toBuilt).gather rfl .functionDef).joined

theorem shapesAll_skeletons (symbols : List Symbol) :
    Skeleton.shapesAll (skeletons symbols) = (State.final symbols).shapes := by
  rw [skeletons, List.reverse_cons, Skeleton.shapesAll_append]
  simp [State.shapes, State.trees, Skeleton.shapesAll, Skeleton.shapes]

/-- A text that consists of one declaration is read as that declaration is. -/
theorem final_of_built {ys : List Symbol}
    (hx : x.symbols names = .ofToken names (typeToken "int") :: ys)
    (h : ∀ s : State, s.Plain → s.ahead = x.symbols names ++ [] →
      Built names [x] s ((declaration .file).after s)) :
    (State.final (x.symbols names)).faults = [] ∧
      (State.final (x.symbols names)).shapes = Tree.shapesAll [x] := by
  let s := State.initial (x.symbols names)
  have hplain : s.Plain := fun _ => rfl
  have hahead : s.ahead = x.symbols names ++ [] := (List.append_nil _).symm
  have hbuilt := h s hplain hahead
  have hfirst : s.ahead = .ofToken names (typeToken "int") :: ys := hx
  have hsense : s.view.senseAt 0 = .typeWord := by
    simpa [View.senseAt, hfirst, Symbol.ofToken] using (typeWord_token (w := "int") (by decide)).2.2
  have hexternal : externalDeclaration.after s = (declaration .file).after s :=
    after_externalDeclaration (next_of_kind hfirst rfl) hsense
  have hfinal : State.final (x.symbols names) = (declaration .file).after s := by
    have hne : s.ahead ≠ [] := by simp [hfirst]
    change declarations.after s = _
    rw [after_declarations hne (by rw [hexternal]; exact hbuilt.length_ne (by simp [hx])),
      hexternal, after_declarations_of_nil (hbuilt.ahead_eq hahead)]
  rw [hfinal]
  exact ⟨hbuilt.faults, hbuilt.shapes⟩

theorem final_returning (hx : x.StandsAt 1) (names : List Text) :
    (State.final ((returning x).symbols names)).faults = [] ∧
      (State.final ((returning x).symbols names)).shapes = Tree.shapesAll [returning x] :=
  final_of_built rfl fun _ hplain hahead => built_declaration hx hplain hahead

/-! ### Its text -/

theorem intercalate_append {α : Type} (sep : List α) {xs ys : List (List α)} (hxs : xs ≠ [])
    (hys : ys ≠ []) :
    sep.intercalate (xs ++ ys) = sep.intercalate xs ++ sep ++ sep.intercalate ys := by
  induction xs with
  | nil => exact absurd rfl hxs
  | cons x xs ih =>
    cases xs with
    | nil =>
      obtain ⟨y, ys, rfl⟩ := List.exists_cons_of_ne_nil hys
      simp [List.intercalate_cons_cons]
    | cons x' xs =>
      have hrest := ih (by simp)
      simp only [List.cons_append, List.intercalate_cons_cons] at hrest ⊢
      rw [hrest]
      simp

/-- The text of a function that returns a printed expression. -/
def Expr.program (e : Expr) : Text :=
  "int f ( void ) \x7b return ".toList ++ e.print ++ " ; \x7d".toList

/-- The tokens before a returned expression. -/
def tokensBefore : List Token :=
  [typeToken "int", functionName, mark "(", typeToken "void", mark ")", mark "\x7b",
    returnToken]

theorem leaves_returning (x : Tree) :
    (returning x).leaves = tokensBefore ++ (x.leaves ++ [mark ";", mark "\x7d"]) := by
  simp [returning, functionDeclarator, noParameters, returnBlock, returnStatement, tokensBefore,
    Tree.leaves, Tree.leavesAll]

theorem solid_tokensBefore : ∀ k ∈ tokensBefore, k.Solid := by
  have hint := (typeWord_token (w := "int") (by decide)).1
  have hvoid := (typeWord_token (w := "void") (by decide)).1
  have hname : functionName.Solid := Token.solid_name ⟨"f".toList, by decide⟩
  have hopen : (mark "(").Solid := solid_mark (by decide)
  have hclose : (mark ")").Solid := solid_mark (by decide)
  have hbrace : (mark "\x7b").Solid := solid_mark (by decide)
  have hreturn : returnToken.Solid :=
    Token.solid_reserved (m := ("return", .kwReturn)) (by decide)
  simp [tokensBefore, hint, hname, hopen, hvoid, hclose, hbrace, hreturn]

theorem program_eq {e : Expr} {place : Nat} (hx : e.Writes place e.words x) :
    e.program = [' '].intercalate ((returning x).leaves.map (·.text)) := by
  have hwords : e.words ≠ [] := by
    obtain ⟨t, ts, hleaves, -⟩ := hx.stands.exists_head
    rw [← hx.words, hleaves]
    simp
  have hbefore : "int f ( void ) \x7b return ".toList =
      [' '].intercalate (tokensBefore.map (·.text)) ++ [' '] := by
    simp [tokensBefore, typeToken, functionName, mark, returnToken]
  have hafter : " ; \x7d".toList =
      [' '] ++ [' '].intercalate ([mark ";", mark "\x7d"].map (·.text)) := by
    simp [mark]
  rw [leaves_returning, List.map_append, List.map_append, hx.words,
    intercalate_append _ (by simp [tokensBefore]) (by simp), intercalate_append _ hwords (by simp),
    ← List.append_assoc, ← List.append_assoc, List.append_assoc _ [' '], ← hbefore, ← hafter]
  rfl

/-- **Parsing undoes printing.** An expression that is printed into the body of a function is read
without errors. What the function returns is, once parentheses are erased, the tree of this
expression and of no other. -/
theorem parse_print (e : Expr) :
    (parse e.program).errors = [] ∧ ∃ x, (parse e.program).tree.bare = .node .root [returning x] ∧
      ∀ e' : Expr, x.unparen = e'.tree ↔ e' = e := by
  obtain ⟨x, hx⟩ := e.exists_writes
  have hsolid : ∀ k ∈ (returning x).leaves, k.Solid := by
    have hafter : ∀ k ∈ [mark ";", mark "\x7d"], k.Solid := by
      simp [solid_mark (w := ";") (by decide), solid_mark (w := "\x7d") (by decide)]
    rw [leaves_returning]
    exact List.forall_mem_append.2
      ⟨solid_tokensBefore, List.forall_mem_append.2 ⟨hx.solid, hafter⟩⟩
  -- the text has the tokens of the definition, and the definition is read as it stands
  have hsignificant : Token.significant (tokens e.program) = (returning x).leaves := by
    rw [program_eq hx, Token.significant_tokens_spaced hsolid]
  obtain ⟨hfaults, hshapes⟩ := final_returning (.loosen hx.stands (one_le_rank e))
    (Symbol.identifiers (returning x).leaves)
  have hsymbols : Symbol.ofTokens (Token.significant (tokens e.program)) =
      (returning x).symbols (Symbol.identifiers (returning x).leaves) := by
    rw [hsignificant]
    rfl
  refine ⟨?_, x, ?_, fun e' => ?_⟩
  · simp only [parse, hsymbols, Grammar.faults, hfaults, List.reverse_nil, List.map_nil]
  · refine bare_parse_eq ?_ ?_
    · rw [hsignificant, Tree.leavesAll, Tree.leavesAll, List.append_nil]
    · rw [hsymbols, shapesAll_skeletons, hshapes]
  · rw [hx.tree]
    exact ⟨fun h => (tree_injective e e' h).symm, fun h => by rw [h]⟩

end Whittle
