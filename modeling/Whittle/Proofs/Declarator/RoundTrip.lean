import Whittle.Proofs.Declaration.Bare
import Whittle.Proofs.Declarator.Derivation
import Whittle.Proofs.Declarator.Reading

/-!
# Declarations say what their declarators do

A declarator is printed into a declaration. The text is read without errors, there is one declared
member in it, and what the member declares is what the declarator was built from: its name, and
what the first step makes of it.

* `Tree.occurrences`: the number of nodes of a kind.
* `built_declGroup`: a declaration is read as it stands.
* `Placed.Spells`: which words of a text a part is written with.
* `declaration_reads_back`: **a declaration declares what its declarator was built from.**
-/

namespace Whittle

open Expr Grammar Construct

/-! ### Counting nodes -/

namespace Tree

mutual

/-- The number of nodes of a kind. -/
def occurrences (k : NodeKind) : Tree → Nat
  | .token _ => 0
  | .node kind ts => occurrencesAll k ts + if kind = k then 1 else 0

/-- The number of nodes of a kind in some trees. -/
def occurrencesAll (k : NodeKind) : List Tree → Nat
  | [] => 0
  | t :: ts => t.occurrences k + occurrencesAll k ts

end

variable (k : NodeKind)

@[simp] theorem occurrences_token (t : Token) : (token t).occurrences k = 0 := rfl

@[simp] theorem occurrences_node (kind : NodeKind) (ts : List Tree) :
    (node kind ts).occurrences k = occurrencesAll k ts + if kind = k then 1 else 0 := rfl

@[simp] theorem occurrencesAll_nil : occurrencesAll k [] = 0 := rfl

@[simp] theorem occurrencesAll_cons (t : Tree) (ts : List Tree) :
    occurrencesAll k (t :: ts) = t.occurrences k + occurrencesAll k ts := rfl

@[simp] theorem occurrencesAll_append (ts us : List Tree) :
    occurrencesAll k (ts ++ us) = occurrencesAll k ts + occurrencesAll k us := by
  induction ts with
  | nil => simp
  | cons t ts ih => simp [ih, Nat.add_assoc]

theorem occurrencesAll_map_token {α : Type} (g : α → Token) (xs : List α) :
    occurrencesAll k (xs.map fun x => .token (g x)) = 0 := by
  induction xs with
  | nil => rfl
  | cons x xs ih => simp [ih]

theorem occurrencesAll_intersperse (t : Token) (ts : List Tree) :
    occurrencesAll k (ts.intersperse (.token t)) = occurrencesAll k ts := by
  induction ts with
  | nil => rfl
  | cons u ts ih =>
    cases ts with
    | nil => rfl
    | cons u' ts =>
      rw [List.intersperse_cons_cons, occurrencesAll_cons, occurrencesAll_cons, ih]
      simp

theorem occurrencesAll_eq_zero {ts : List Tree} (h : ∀ t ∈ ts, t.occurrences k = 0) :
    occurrencesAll k ts = 0 := by
  induction ts with
  | nil => rfl
  | cons t ts ih =>
    obtain ⟨ht, hts⟩ := List.forall_mem_cons.1 h
    rw [occurrencesAll_cons, ht, ih hts]

/-- Expressions declare nothing. -/
theorem StandsAt.occurrences_eq_zero {m : Nat} {x : Tree} (h : x.StandsAt m) :
    x.occurrences .initDeclarator = 0 := by
  induction h with
  | call _ _ _ _ _ ih ihs =>
    simp [ih, occurrencesAll_intersperse, occurrencesAll_eq_zero _ ihs]
  | @cast _ _ ws _ _ _ _ _ _ ih =>
    have hws : occurrencesAll .initDeclarator (ws.map .token) = 0 :=
      occurrencesAll_map_token .initDeclarator id ws
    simp [ih, hws]
  | loosen _ _ ih => exact ih
  | _ => simp [*]

mutual

/-- The nodes of a kind in a tree are its sites of that kind. -/
theorem countP_sitesUnder (t : Tree) (start : Nat) (above : List Crumb) :
    ((t.place start).sitesUnder above).countP (·.node.isNode k) = t.occurrences k := by
  cases t with
  | token t => rfl
  | node kind ts =>
    rw [place, Placed.sitesUnder, List.countP_cons, countP_sitesAmong]
    simp [Placed.isNode, Placed.kind]

theorem countP_sitesAmong (ts : List Tree) (start start' : Nat) (kind : NodeKind)
    (above : List Crumb) (before : List Placed) :
    (Placed.sitesAmong start' kind above before (placeAll start ts)).countP (·.node.isNode k) =
      occurrencesAll k ts := by
  cases ts with
  | nil => rfl
  | cons t ts =>
    rw [placeAll, Placed.sitesAmong, List.countP_append, countP_sitesUnder, countP_sitesAmong]
    rfl

end

end Tree

theorem Specifier.occurrences_tree (spec : Specifier) :
    spec.tree.occurrences .initDeclarator = 0 := by
  cases spec <;> rfl

variable {f : Expr → Tree}

mutual

theorem Declarator.occurrences_parts (hf : ∀ e, (f e).StandsAt 2) (d : Declarator) :
    Tree.occurrencesAll .initDeclarator (d.parts f) = 0 := by
  cases d with
  | name w => rfl
  | empty => rfl
  | parens d =>
    have hd := Declarator.occurrences_parts hf d
    rw [Declarator.parts]
    split <;> simp [nestedTree, hd]
  | pointer qualifiers d =>
    have hd := Declarator.occurrences_parts hf d
    have hqualifiers := Tree.occurrencesAll_map_token .initDeclarator
      (fun q : OneOf Token.qualifiers => qualifierToken q.1) qualifiers
    rw [Declarator.parts, List.cons_append, Tree.occurrencesAll_cons, Tree.occurrencesAll_append,
      hqualifiers, hd]
    rfl
  | suffixed d suffix =>
    have hd := Declarator.occurrences_parts hf d
    have hsuffix := Suffix.occurrences_tree hf suffix
    rw [Declarator.parts]
    split <;> simp [nestedTree, hd, hsuffix]

theorem Suffix.occurrences_tree (hf : ∀ e, (f e).StandsAt 2) (suffix : Suffix) :
    (suffix.tree f).occurrences .initDeclarator = 0 := by
  cases suffix with
  | array size =>
    cases size with
    | none => rfl
    | some e => simp [Suffix.tree, arrayTree, (hf e).occurrences_eq_zero]
  | function ps =>
    have hps := Parameters.occurrences_trees hf ps
    simp [Suffix.tree, hps]

theorem Parameters.occurrences_trees (hf : ∀ e, (f e).StandsAt 2) (ps : Parameters) :
    Tree.occurrencesAll .initDeclarator (ps.trees f) = 0 := by
  cases ps with
  | nil => rfl
  | ellipsis => rfl
  | cons type d ps =>
    have hd := Declarator.occurrences_parts hf d
    have hps := Parameters.occurrences_trees hf ps
    have htype : (specifiersTree type.1).occurrences .initDeclarator = 0 := by
      refine Tree.occurrencesAll_eq_zero .initDeclarator fun t ht => ?_
      obtain ⟨spec, -, rfl⟩ := List.mem_map.1 ht
      exact spec.occurrences_tree
    have hparam : (paramTree type.1 d.isEmpty (d.parts f)).occurrences .initDeclarator = 0 := by
      unfold paramTree
      split <;> simp [htype, hd]
    rw [Parameters.trees]
    split <;> simp [hparam, hps]

end

/-! ### Declarations -/

/-- The type that declarations have. -/
def Specifier.int : Specifier := .typeWord ⟨"int", by decide⟩

/-- A declaration with one declarator. -/
def declarationTree (xs : List Tree) : Tree :=
  .node .declGroup [specifiersTree [.int], .node .initDeclarator [.node .declarator xs],
    .token (mark ";")]

section

variable {names : List Text} {s : State} {rest : List Symbol} {d : Declarator}

/-- A declaration is read as it stands. -/
theorem built_declGroup (h : LevelReads names f d) (hempty : d.isEmpty = false) (hplain : s.Plain)
    (hs : s.ahead = (declarationTree (d.parts f)).symbols names ++ rest) :
    Built names [declarationTree (d.parts f)] s ((declaration .file).after s) := by
  have hs : s.ahead = Tree.symbolsAll names [Specifier.int.tree] ++
      (Tree.symbolsAll names (d.parts f) ++ .ofToken names (mark ";") :: rest) := by
    simpa [declarationTree, specifiersTree] using hs
  -- the specifiers end where the declarator starts
  obtain ⟨hresult, hspecifiers⟩ := read_specifiersTree (s := s.opened) [.int] rfl hs
    fun s' hs' => by
      obtain ⟨k, hk, hnext⟩ := next_of_parts hempty hs'
      have hall : ∀ k ∈ Declarator.openers, k ∈ specifierEnds := by decide
      exact ⟨k, hall k hk, hnext⟩
  let s₁ := specifiers.after s.opened
  have hs₁ : s₁.opened.ahead =
      Tree.symbolsAll names (d.parts f) ++ .ofToken names (mark ";") :: rest :=
    hspecifiers.ahead_eq hs
  obtain ⟨k, hk, hstart⟩ := next_of_parts hempty hs₁
  have hsemicolon : k ≠ .semicolon := fun hkind => absurd (hkind ▸ hk) (by decide)
  -- and the declarator at the semicolon
  have hends : EndsDeclarator (.ofToken names (mark ";") :: rest) :=
    endsDeclarator_of_kind (by decide) rest
  have hdeclarator := h.took (hplain.opened.took hspecifiers).opened hs₁ hends
  have hs₂ : (declarator.after s₁.opened).ahead = .ofToken names (mark ";") :: rest :=
    hdeclarator.ahead_eq hs₁
  let n := (declarator.read s₁.opened).1.name
  have hmember := ((hdeclarator.toBuilt.declaring n false).gather rfl .initDeclarator).joined
  have hs₁' : s₁.ahead =
      (Tree.node .initDeclarator [.node .declarator (d.parts f)]).symbols names ++
        .ofToken names (mark ";") :: rest := by
    simpa using hs₁
  have hs₃ := hmember.ahead_eq hs₁'
  rw [after_declaration_group (State.next_of_ahead hs) (Prod.ext hresult rfl) hstart hsemicolon
    rfl (next_of_kind hs₂ rfl)]
  exact (((hspecifiers.toBuilt.trans hmember).trans (Took.bump hs₃ rfl).toBuilt).gather rfl
    .declGroup).joined

end

/-- A text with the tokens of a tree, with blanks between them, is read as the tree is. -/
theorem parse_of_final {t : Text} {x : Tree} (hsolid : ∀ k ∈ x.leaves, k.Solid)
    (htext : t = [' '].intercalate (x.leaves.map (·.text)))
    (hfinal : ∀ names, (State.final (x.symbols names)).faults = [] ∧
      (State.final (x.symbols names)).shapes = Tree.shapesAll [x]) :
    Token.significant (tokens t) = x.leaves ∧ (parse t).errors = [] ∧
      (parse t).tree.bare = .node .root [x] := by
  have hsignificant : Token.significant (tokens t) = x.leaves := by
    rw [htext, Token.significant_tokens_spaced hsolid]
  obtain ⟨hfaults, hshapes⟩ := hfinal (Symbol.identifiers x.leaves)
  have hsymbols : Symbol.ofTokens (Token.significant (tokens t)) =
      x.symbols (Symbol.identifiers x.leaves) := by
    rw [hsignificant]
    rfl
  refine ⟨hsignificant, ?_, ?_⟩
  · simp only [parse, hsymbols, Grammar.faults, hfaults, List.reverse_nil, List.map_nil]
  · refine bare_parse_eq ?_ ?_
    · rw [hsignificant, Tree.leavesAll, Tree.leavesAll, List.append_nil]
    · rw [hsymbols, shapesAll_skeletons, hshapes]

/-- A printed declaration is read as it stands. -/
theorem Declarator.parse_declaration {d : Declarator} (hempty : d.isEmpty = false)
    (hf : WritesSizes f) :
    (Token.significant (tokens d.declaration)).map (·.text) =
        "int".toList :: d.words ++ [";".toList] ∧
      (∀ k ∈ Token.significant (tokens d.declaration), k.Solid) ∧
      (parse d.declaration).errors = [] ∧
      (parse d.declaration).tree.bare = .node .root [declarationTree (d.parts f)] := by
  obtain ⟨us, hus⟩ := d.exists_parts hf
  have hleaves : (declarationTree (d.parts f)).leaves =
      typeToken "int" :: Tree.leavesAll (d.parts f) ++ [mark ";"] := by
    simp [declarationTree, specifiersTree, Specifier.int, Specifier.tree, Tree.leaves,
      Tree.leavesAll]
  have hwords : (declarationTree (d.parts f)).leaves.map (·.text) =
      "int".toList :: d.words ++ [";".toList] := by
    rw [hleaves, ← hus.words]
    simp [typeToken, mark]
  have hsolid : ∀ k ∈ (declarationTree (d.parts f)).leaves, k.Solid := by
    have hint : (typeToken "int").Solid := (typeWord_token (by decide)).1
    have hend : (mark ";").Solid := solid_mark (by decide)
    rw [hleaves]
    simpa [or_imp, forall_and, hint, hend] using hus.solid
  have htext : d.declaration =
      [' '].intercalate ((declarationTree (d.parts f)).leaves.map (·.text)) := by
    rw [hwords, Declarator.declaration]
  obtain ⟨hsignificant, herrors, htree⟩ := parse_of_final hsolid htext fun names =>
    final_of_built rfl fun s hplain hs =>
      built_declGroup (d.reads (fun e => (hf e).stands) names).level hempty hplain hs
  rw [hsignificant]
  exact ⟨hwords, hsolid, herrors, htree⟩

/-! ### Where parts are written -/

/-- Whether a part of the tree of a text is written with some words, right behind others. -/
def Placed.Spells (t : Text) (before words : List Text) (p : Placed) : Prop :=
  ∃ ls rs, tokens t = ls ++ p.leaves.map (·.token) ++ rs ∧ p.start = (Token.concat ls).size ∧
    (Token.significant ls).map (·.text) = before ∧
    (Token.significant (p.leaves.map (·.token))).map (·.text) = words

mutual

/-- The tokens of a bare tree are the significant ones. -/
theorem Placed.map_token_leaves_bare (g : Nat → Nat) (p : Placed) (h : p.isTrivia = false) :
    (p.bare g).leaves.map (·.token) = Token.significant (p.leaves.map (·.token)) := by
  cases p with
  | token start t =>
    have ht : t.isTrivia = false := h
    simp [Placed.leaves, ht]
  | node start kind children =>
    rw [Placed.bare_node, Placed.leaves, Placed.leaves, Placed.map_token_leavesAll_bareAll]

theorem Placed.map_token_leavesAll_bareAll (g : Nat → Nat) (ps : List Placed) :
    (Placed.leavesAll (Placed.bareAll g ps)).map (·.token) =
      Token.significant ((Placed.leavesAll ps).map (·.token)) := by
  cases ps with
  | nil => rfl
  | cons p ps =>
    have hrest := Placed.map_token_leavesAll_bareAll g ps
    cases h : p.isTrivia with
    | true =>
      cases p with
      | token start t =>
        have ht : t.isTrivia = true := h
        rw [Placed.bareAll_cons_of_trivia ps h, hrest, Placed.leavesAll, List.map_append,
          Token.significant_append]
        simp [Placed.leaves, ht]
      | node start kind children => cases h
    | false =>
      rw [Placed.bareAll_cons ps h, Placed.leavesAll, Placed.leavesAll, List.map_append,
        List.map_append, Token.significant_append, hrest, Placed.map_token_leaves_bare g p h]

end

/-- Of the words of a text, those before a place are told by their size. -/
theorem prefix_eq_of_size {xs ys ws : List Text} (hxs : xs <+: ws) (hys : ys <+: ws)
    (hpos : ∀ w ∈ ws, 0 < Text.size w) (h : Text.size xs.flatten = Text.size ys.flatten) :
    xs = ys := by
  have hlonger {xs ys : List Text} (hys : ys <+: ws) (hxy : xs <+: ys)
      (h : Text.size xs.flatten = Text.size ys.flatten) : xs = ys := by
    obtain ⟨zs, rfl⟩ := hxy
    cases zs with
    | nil => rw [List.append_nil]
    | cons z zs =>
      have hz := hpos z (hys.subset (by simp))
      rw [List.flatten_append, Text.size_append, List.flatten_cons, Text.size_append] at h
      omega
  rcases List.prefix_or_prefix_of_prefix hxs hys with hxy | hyx
  · exact hlonger hys hxy h
  · exact (hlonger hxs hyx h.symm).symm

/-- A part whose bare tree is known is written with the tokens of that tree. -/
theorem Site.spells {t : Text} {u : Site} {y : Tree} {pos : Nat} {before : List Text}
    (hsolid : ∀ k ∈ Token.significant (tokens t), k.Solid) (hu : u ∈ (parse t).root.sites)
    (hbare : u.node.bare (Token.offset (tokens t)) = y.place pos)
    (hpos : pos = Text.size before.flatten)
    (hbefore : before <+: (Token.significant (tokens t)).map (·.text)) :
    u.node.Spells t before (y.leaves.map (·.text)) := by
  have hinner : u.node.isTrivia = false :=
    Placed.not_isTrivia_of_isInner (Site.isInner_of_mem_subsites (s := ⟨_, []⟩) hu)
  obtain ⟨ls, rs, hleaves, hstart⟩ := Site.runIn (regular_parse t).snug hu
  have hroot : (parse t).root.leaves = Leaf.layout 0 (tokens t) := by
    rw [Parsed.root, Tree.leaves_place, leaves_parse]
  have htokens : tokens t =
      ls.map (·.token) ++ u.node.leaves.map (·.token) ++ rs.map (·.token) := by
    rw [← Leaf.map_token_layout 0 (tokens t), ← hroot, hleaves, List.map_append, List.map_append]
  have hzero : (parse t).root.start = 0 := Tree.start_place 0 _
  have hstart : u.node.start = (Token.concat (ls.map (·.token))).size := by
    rw [hstart, hzero, Nat.zero_add]
    rfl
  refine ⟨ls.map (·.token), rs.map (·.token), htokens, hstart, ?_, ?_⟩
  · -- as many significant bytes stand before the part as before the tree
    have hoffset : Token.offset (tokens t) u.node.start = pos := by
      rw [← Tree.start_place pos y, ← hbare, Placed.start_bare]
    have hskip : Token.offset (tokens t) u.node.start =
        (Token.concat (Token.significant (ls.map (·.token)))).size := by
      rw [hstart, htokens, List.append_assoc]
      refine Token.offset_append _ _ fun k hk => ?_
      have hmem : k ∈ tokens t := by
        rw [htokens, List.append_assoc]
        exact List.mem_append_right _ hk
      exact Token.size_pos_of_mem_split hmem
    have hsize : Text.size ((Token.significant (ls.map (·.token))).map (·.text)).flatten =
        Text.size before.flatten := by
      rw [← List.flatMap_def, ← Token.concat, ← hskip, hoffset, hpos]
    refine prefix_eq_of_size ?_ hbefore ?_ hsize
    · rw [htokens, Token.significant_append, Token.significant_append, List.append_assoc,
        List.map_append]
      exact List.prefix_append _ _
    · intro w hw
      obtain ⟨k, hk, rfl⟩ := List.mem_map.1 hw
      obtain ⟨c, cs, htext, -⟩ := (hsolid k hk).reads
      rw [htext, Text.size]
      have hc := c.utf8Size_pos
      omega
  · rw [← Placed.map_token_leaves_bare _ _ hinner, hbare, Tree.leaves_place, Leaf.map_token_layout]

/-! ### What declarations declare -/

theorem Declarator.lead_prefix (d : Declarator) : d.lead <+: d.words := by
  induction d using Declarator.tightInduction with
  | name w => exact List.prefix_rfl
  | empty => exact List.prefix_rfl
  | parens d ih =>
    rw [Declarator.lead]
    split
    · exact List.prefix_rfl
    · next hfirst =>
      -- there is something within the parentheses
      have hempty : d.isEmpty = false := by
        rw [Bool.eq_false_iff]
        intro hempty
        simp [Declarator.first?_of_isEmpty hempty] at hfirst
      rw [Declarator.words, hempty, if_neg Bool.false_ne_true, parenthesized, List.cons_append]
      exact (List.prefix_cons_inj _).2 (ih.trans (List.prefix_append _ _))
  | pointer qualifiers d ih =>
    rw [Declarator.lead, Declarator.words]
    exact (List.prefix_append_right_inj _).2 ih
  | suffixed d suffix ih =>
    rw [Declarator.lead_tight, Declarator.words_suffixed]
    exact ih.trans (List.prefix_append _ _)

/-- Whether a step only adds parentheses. -/
def Step.isParens : Step → Bool
  | .parens => true
  | _ => false

theorem Declarator.first?_foldl (d : Declarator) (steps : List Step) :
    (steps.foldl next d).first? = d.first?.or (steps.find? (!·.isParens)) := by
  induction steps generalizing d with
  | nil => simp
  | cons step steps ih =>
    rw [List.foldl_cons, ih, List.find?_cons]
    cases step with
    | parens => rfl
    | pointer qualifiers => cases h : d.first? <;> simp [next, first?, h, Step.isParens]
    | suffix suffix => cases h : d.first? <;> simp [next, first?, h, Step.isParens]

theorem Declarator.name?_foldl (d : Declarator) (steps : List Step) :
    (steps.foldl next d).name? = d.name? := by
  induction steps generalizing d with
  | nil => rfl
  | cons step steps ih =>
    rw [List.foldl_cons, ih]
    cases step <;> rfl

theorem Declarator.isEmpty_ofSteps (x : Name) (steps : List Step) :
    (ofSteps x steps).isEmpty = false := by
  rw [Bool.eq_false_iff]
  intro hempty
  have hname := name?_of_isEmpty hempty
  rw [ofSteps, name?_foldl] at hname
  cases hname

/-- A declarator whose first step is to a function has the parameters of that function. -/
theorem Declarator.functionParams?_of_function (hf : WritesSizes f) {d : Declarator}
    {ps : Parameters} (h : d.first? = some (.suffix (.function ps))) (start : Nat) :
    ((Tree.node .declarator (d.parts f)).place start).functionParams? =
      some (((Suffix.function ps).tree f).place (start + Text.size d.lead.flatten)) := by
  have hderive := d.derives hf start
  rw [h] at hderive
  rw [Tree.place, Placed.functionParams?, hderive]
  rfl

theorem Declarator.functionParams?_of_ne (hf : WritesSizes f) {d : Declarator}
    (h : ∀ ps, d.first? ≠ some (.suffix (.function ps))) (start : Nat) :
    ((Tree.node .declarator (d.parts f)).place start).functionParams? = none := by
  rw [Tree.place, Placed.functionParams?, d.derives hf start]
  cases hfirst : d.first? with
  | none => rfl
  | some step =>
    cases step with
    | parens => rfl
    | pointer qualifiers => rfl
    | suffix suffix =>
      cases suffix with
      | array size => rfl
      | function ps => exact absurd hfirst (h ps)

/-- A printed declaration has one member. -/
theorem Declarator.length_members {d : Declarator} (hempty : d.isEmpty = false)
    (hf : WritesSizes f) :
    ((parse d.declaration).root.sites.filter (·.node.isNode .initDeclarator)).length = 1 := by
  obtain ⟨-, -, -, htree⟩ := d.parse_declaration hempty hf
  have hbare := Tree.countP_sitesUnder .initDeclarator
    (.node .root [declarationTree (d.parts f)]) 0 []
  have hone : (Tree.node .root [declarationTree (d.parts f)]).occurrences .initDeclarator = 1 := by
    have hparts := d.occurrences_parts fun e => (hf e).stands
    simp [declarationTree, specifiersTree, Specifier.occurrences_tree, hparts]
  rw [← htree, ← bare_root, ← Placed.sites, Placed.sites_bare, List.countP_map, htree,
    hone] at hbare
  rw [← List.countP_eq_length_filter, ← hbare]
  refine List.countP_congr fun s _ => ?_
  simp

/-- The member stands at file level, and its tree is that of the declarator. -/
theorem Declarator.exists_member {d : Declarator} (hempty : d.isEmpty = false)
    (hf : WritesSizes f) :
    ∃ s, (parse d.declaration).root.sites.filter (·.node.isNode .initDeclarator) = [s] ∧
      s.above.map (·.kind) = [.declGroup, .root] ∧
      s.node.bare (Token.offset (tokens d.declaration)) =
        (Tree.node .initDeclarator [.node .declarator (d.parts f)]).place
          (Text.size "int".toList) := by
  obtain ⟨-, -, -, htree⟩ := d.parse_declaration hempty hf
  let g := Token.offset (tokens d.declaration)
  have hroot : (parse d.declaration).root.bare g =
      (Tree.node .root [declarationTree (d.parts f)]).place 0 := by
    rw [bare_root, htree]
  obtain ⟨s, hs⟩ := List.length_eq_one_iff.1 (d.length_members hempty hf)
  -- the one member is the one that the declaration is written with
  obtain ⟨u, hu, hnode, habove⟩ : ∃ u ∈ ((parse d.declaration).root.bare g).sites,
      u.node = (Tree.node .initDeclarator [.node .declarator (d.parts f)]).place
        (Text.size "int".toList) ∧ u.above.map (·.kind) = [.declGroup, .root] := by
    rw [hroot]
    let first := (specifiersTree [.int]).place 0
    let member := Tree.node .initDeclarator [.node .declarator (d.parts f)]
    let last := (Tree.token (mark ";")).place (Text.size "int".toList + member.size)
    refine ⟨⟨member.place (Text.size "int".toList),
      [⟨.declGroup, 0, [first], [last]⟩, ⟨.root, 0, [], []⟩]⟩, ?_, rfl, rfl⟩
    refine Placed.mem_sitesUnder_node.2 (.inr ⟨[], _, [], rfl, ?_⟩)
    refine Placed.mem_sitesUnder_node.2 (.inr ⟨[first], _, [last], rfl, ?_⟩)
    exact Placed.mem_sitesUnder_node.2 (.inl rfl)
  rw [Placed.sites_bare] at hu
  obtain ⟨v, hv, rfl⟩ := List.mem_map.1 hu
  have hkind : v.node.isNode .initDeclarator = true := by
    rw [← Placed.isNode_bare g, ← Site.node_bare, hnode]
    rfl
  obtain rfl : v = s := by
    have hmem : v ∈ (parse d.declaration).root.sites.filter (·.node.isNode .initDeclarator) :=
      List.mem_filter.2 ⟨hv, hkind⟩
    rw [hs] at hmem
    exact List.mem_singleton.1 hmem
  refine ⟨v, hs, ?_, hnode⟩
  rw [← habove, Site.bare, List.map_map]
  rfl

namespace Declarator

/-- Whether a site is the declarator of a printed declaration. -/
structure StandsIn (f : Expr → Tree) (d : Declarator) (u : Site) : Prop where
  mem : u ∈ (parse d.declaration).root.sites
  isDeclarator : u.node.isNode .declarator = true
  bare : u.node.bare (Token.offset (tokens d.declaration)) =
    (Tree.node .declarator (d.parts f)).place (Text.size "int".toList)

variable {d : Declarator} {u : Site}

theorem exists_standsIn (hempty : d.isEmpty = false) (hf : WritesSizes f) :
    ∃ s u, (parse d.declaration).root.sites.filter (·.node.isNode .initDeclarator) = [s] ∧
      s.above.map (·.kind) = [.declGroup, .root] ∧
      s.node.child? .declarator = some u.node ∧ d.StandsIn f u := by
  obtain ⟨s, hs, habove, hbare⟩ := d.exists_member hempty hf
  have hmem : s ∈ (parse d.declaration).root.sites := by
    have hfilter : s ∈ (parse d.declaration).root.sites.filter (·.node.isNode .initDeclarator) := by
      rw [hs]
      exact List.mem_singleton_self s
    exact (List.mem_filter.1 hfilter).1
  have hchild : (s.node.child? .declarator).map
      (Placed.bare (Token.offset (tokens d.declaration))) =
        some ((Tree.node .declarator (d.parts f)).place (Text.size "int".toList)) := by
    rw [← Placed.child?_bare, hbare]
    rfl
  obtain ⟨c, hc, hcbare⟩ := Option.map_eq_some_iff.1 hchild
  obtain ⟨u, hu, rfl, hdecl⟩ := Site.exists_of_child? hmem hc
  exact ⟨s, u, hs, habove, hc, hu, hdecl, hcbare⟩

namespace StandsIn

theorem declaredName? (h : d.StandsIn f u) :
    u.node.declaredName?.map Leaf.text = d.name?.map (·.1) := by
  have hdeclares := d.declares f (Text.size "int".toList)
  have hmove := Site.declaredName?_bare (Token.offset (tokens d.declaration)) h.mem h.isDeclarator
  rw [h.bare] at hmove
  rw [← Tree.place, hmove, Option.map_map] at hdeclares
  exact hdeclares

theorem map_functionParams? (h : d.StandsIn f u) :
    u.node.functionParams?.map (Placed.bare (Token.offset (tokens d.declaration))) =
      ((Tree.node .declarator (d.parts f)).place (Text.size "int".toList)).functionParams? := by
  rw [← Placed.functionParams?_bare, h.bare]

/-- The parameters of the declared function are written with the words of its step, right behind
the lead of the declarator. -/
theorem exists_functionParams (h : d.StandsIn f u) (hempty : d.isEmpty = false)
    (hf : WritesSizes f) {ps : Parameters} (hps : d.first? = some (.suffix (.function ps))) :
    ∃ p, u.node.functionParams? = some p ∧
      p.Spells d.declaration ("int".toList :: d.lead) (Suffix.function ps).words := by
  have hparams := h.map_functionParams?
  rw [functionParams?_of_function hf hps] at hparams
  obtain ⟨p, hp, hpbare⟩ := Option.map_eq_some_iff.1 hparams
  obtain ⟨-, v, rfl, hleads⟩ := Site.exists_params h.isDeclarator hp
  have hv : v ∈ (parse d.declaration).root.sites := Site.mem_sites_of_mem_subsites h.mem hleads.mem
  obtain ⟨hwords, hsolid, -, -⟩ := d.parse_declaration hempty hf
  obtain ⟨us, hus⟩ := (Suffix.function ps).exists_parts hf
  have hlist : ((Suffix.function ps).tree f).leaves.map (·.text) = (Suffix.function ps).words := by
    rw [← hus.words, Tree.leavesAll, Tree.leavesAll, List.append_nil]
  refine ⟨v.node, hp, ?_⟩
  rw [← hlist]
  refine Site.spells hsolid hv hpbare ?_ ?_
  · rw [List.flatten_cons, Text.size_append]
  · rw [hwords, List.cons_append]
    exact (List.prefix_cons_inj _).2 (d.lead_prefix.trans (List.prefix_append _ _))

theorem functionParams?_eq_none (h : d.StandsIn f u) (hf : WritesSizes f)
    (hne : ∀ ps, d.first? ≠ some (.suffix (.function ps))) : u.node.functionParams? = none := by
  have hparams := h.map_functionParams?
  rw [functionParams?_of_ne hf hne] at hparams
  exact Option.map_eq_none_iff.1 hparams

end StandsIn

end Declarator

/-- Trees for the sizes of all arrays. -/
theorem exists_writesSizes : ∃ f, WritesSizes f := by
  have hwrites (e : Expr) : ∃ y, e.Writes 2 (operandWords 2 e.rank e.words) y := by
    obtain ⟨y, hy⟩ := e.exists_writes
    exact hy.operand 2 (by omega)
  exact Classical.axiomOfChoice hwrites

/-- **A declaration declares what its declarator was built from.** However a name is derived, step
after step from the name outward and with parentheses between the steps, the declaration is read
without errors and has one member. It declares the name. It declares a function just if the first
step that is no parenthesis is to a function, and the parameters are then those of that step: the
list right behind the name and the parentheses around it alone. -/
theorem declaration_reads_back (x : Name) (steps : List Step) :
    let d := Declarator.ofSteps x steps
    let first := steps.find? (!·.isParens)
    (parse d.declaration).errors = [] ∧
      ∃ s c, (parse d.declaration).root.sites.filter (·.node.isNode .initDeclarator) = [s] ∧
        s.above.map (·.kind) = [.declGroup, .root] ∧
        s.node.child? .declarator = some c ∧
        c.declaredName?.map Leaf.text = some x.1 ∧
        (c.declaresFunction = true ↔ ∃ ps, first = some (.suffix (.function ps))) ∧
        (∀ ps, first = some (.suffix (.function ps)) → ∃ p, c.functionParams? = some p ∧
          p.Spells d.declaration ("int".toList :: d.lead) (Suffix.function ps).words) ∧
        ((∀ ps, first ≠ some (.suffix (.function ps))) → c.functionParams? = none) := by
  intro d first
  obtain ⟨f, hf⟩ := exists_writesSizes
  have hempty : d.isEmpty = false := Declarator.isEmpty_ofSteps x steps
  have hfirst : d.first? = first := Declarator.first?_foldl (.name x) steps
  have hname : d.name? = some x := Declarator.name?_foldl (.name x) steps
  obtain ⟨-, -, herrors, -⟩ := d.parse_declaration hempty hf
  obtain ⟨s, u, hs, habove, hchild, hu⟩ := d.exists_standsIn hempty hf
  have hfunction (ps : Parameters) (hps : first = some (.suffix (.function ps))) :
      ∃ p, u.node.functionParams? = some p ∧
        p.Spells d.declaration ("int".toList :: d.lead) (Suffix.function ps).words :=
    hu.exists_functionParams hempty hf (hfirst.trans hps)
  have hnone (hne : ∀ ps, first ≠ some (.suffix (.function ps))) :
      u.node.functionParams? = none :=
    hu.functionParams?_eq_none hf (by rwa [hfirst])
  refine ⟨herrors, s, u.node, hs, habove, hchild, ?_, ⟨?_, ?_⟩, hfunction, hnone⟩
  · rw [hu.declaredName?, hname]
    rfl
  · intro hdeclares
    by_contra hne
    rw [Placed.declaresFunction, hnone (by simpa using hne)] at hdeclares
    cases hdeclares
  · rintro ⟨ps, hps⟩
    obtain ⟨p, hp, -⟩ := hfunction ps hps
    rw [Placed.declaresFunction, hp]
    rfl

end Whittle
