import Mathlib.Data.List.Forall2
import Whittle.Proofs.Name.Bare

/-!
# What an analysis depends on

Blanks, comments and preprocessor lines have no say in an analysis. Texts with the same significant
tokens have the same bare tree, and whatever is found out about a text can be found in that tree.

* `SyntaxError.Matches`: errors of two texts with the same fault, at the same significant token.
* `Declaration.profile`: what is found out about a declaration, positions aside.
* `Inventory.profiles_bare`: **the bare tree has the same inventory**, positions aside.
* `analysis_ignores_trivia`: **texts with the same significant tokens are analysed alike.**
-/

namespace Whittle

open Grammar

/-! ### Errors -/

/-- The significant tokens of a text with their positions. -/
def Text.significantLeaves (t : Text) : List Leaf :=
  (Leaf.layout 0 (tokens t)).filter (!·.token.isTrivia)

/-- Whether errors of two texts have the same fault and lie at the same significant token, or at the
ends of the texts. -/
def SyntaxError.Matches (t u : Text) (e e' : SyntaxError) : Prop :=
  e.fault = e'.fault ∧
    ((∃ (n : Nat) (l l' : Leaf), t.significantLeaves[n]? = some l ∧
        u.significantLeaves[n]? = some l' ∧ e.span = l.span ∧ e'.span = l'.span) ∨
      (e.span = ⟨t.size, t.size⟩ ∧ e'.span = ⟨u.size, u.size⟩))

section

variable {t u : Text}

theorem significantSpans_eq (start : Nat) (ts : List Token) :
    Token.significantSpans start ts =
      ((Leaf.layout start ts).filter (!·.token.isTrivia)).map Leaf.span := by
  induction ts generalizing start with
  | nil => rfl
  | cons t ts ih =>
    rw [Token.significantSpans, Leaf.layout, ih]
    cases h : t.isTrivia <;> simp [h, Leaf.span]

theorem Text.map_token_significantLeaves (t : Text) :
    t.significantLeaves.map (·.token) = Token.significant (tokens t) := by
  have htokens := congrArg (List.filter fun u : Token => !u.isTrivia)
    (Leaf.map_token_layout 0 (tokens t))
  rw [List.filter_map] at htokens
  exact htokens

/-- **Where the grammar sees the same, the same faults are noticed at the same significant
tokens.** -/
theorem errors_match_of_symbols (h : Symbol.ofTokens (Token.significant (tokens t)) =
      Symbol.ofTokens (Token.significant (tokens u))) :
    List.Forall₂ (SyntaxError.Matches t u) (parse t).errors (parse u).errors := by
  simp only [parse, h, List.forall₂_map_left_iff, List.forall₂_map_right_iff]
  refine List.forall₂_same.2 fun f _ => ⟨rfl, ?_⟩
  simp only [locate, significantSpans_eq]
  change (∃ (n : Nat) (l l' : Leaf), t.significantLeaves[n]? = some l ∧
      u.significantLeaves[n]? = some l' ∧
      (t.significantLeaves.map Leaf.span)[f.2]?.getD _ = l.span ∧
      (u.significantLeaves.map Leaf.span)[f.2]?.getD _ = l'.span) ∨
    (t.significantLeaves.map Leaf.span)[f.2]?.getD _ = _ ∧
      (u.significantLeaves.map Leaf.span)[f.2]?.getD _ = _
  have hlength : t.significantLeaves.length = u.significantLeaves.length := by
    have hsymbols := congrArg List.length h
    rwa [Symbol.ofTokens, Symbol.ofTokens, List.length_map, List.length_map,
      ← t.map_token_significantLeaves, ← u.map_token_significantLeaves, List.length_map,
      List.length_map] at hsymbols
  by_cases hn : f.2 < t.significantLeaves.length
  · have hn' : f.2 < u.significantLeaves.length := hlength ▸ hn
    exact .inl ⟨f.2, _, _, List.getElem?_eq_getElem hn, List.getElem?_eq_getElem hn', by simp [hn],
      by simp [hn']⟩
  · have hn' : ¬ f.2 < u.significantLeaves.length := hlength ▸ hn
    exact .inr ⟨by simp [hn], by simp [hn']⟩

theorem errors_match (h : Token.significant (tokens t) = Token.significant (tokens u)) :
    List.Forall₂ (SyntaxError.Matches t u) (parse t).errors (parse u).errors :=
  errors_match_of_symbols (congrArg Symbol.ofTokens h)

end

/-! ### Declarations -/

/-- What is found out about a declaration, positions aside. -/
structure Profile where
  id : Nat
  name : Text
  kind : DeclKind
  storage : Storage
  group : Option Nat
  isReferenced : Bool
deriving DecidableEq

/-- What is found out about a declaration. -/
def Declaration.profile (d : Declaration) : Profile :=
  ⟨d.id, d.name.text, d.kind, d.storage, d.group, d.isReferenced⟩

/-- Whether a variable is declared and nowhere used. -/
def Profile.isCandidate (p : Profile) : Bool := p.kind = .var && !p.isReferenced

theorem idxOf?_map_congr {α β : Type} [BEq β] [LawfulBEq β] {l : List α} {a b : α → β} {x y : β}
    (h : ∀ z ∈ l, a z = x ↔ b z = y) :
    (l.map a).idxOf? x = (l.map b).idxOf? y := by
  induction l with
  | nil => rfl
  | cons z l ih =>
    rw [List.map_cons, List.map_cons, List.idxOf?_cons, List.idxOf?_cons,
      ih fun w hw => h w (List.mem_cons_of_mem z hw)]
    have hz : (a z == x) = (b z == y) := by
      rw [Bool.eq_iff_iff, beq_iff_eq, beq_iff_eq]
      exact h z List.mem_cons_self
    rw [hz]

section

variable {t : Text} {f : Nat → Nat} {s : Site} {l l' : Leaf}

/-- Moved positions keep the spans of significant tokens apart. -/
theorem span_eq_of_move_eq (hf : (parse t).root.Separates f) (hl : l ∈ (parse t).root.leaves)
    (hl' : l' ∈ (parse t).root.leaves) (hsig : l.token.isTrivia = false)
    (hsig' : l'.token.isTrivia = false) (h : l.span.move f = l'.span.move f) :
    l.span = l'.span := by
  have hstart : l.start = l'.start := hf l hl l' hl' hsig hsig' (congrArg Span.start h)
  have hstop := congrArg Span.stop h
  simp only [Span.move, Span.size, Leaf.span, hstart] at hstop ⊢
  rw [Span.mk.injEq]
  omega

/-- A declared name is a significant token. -/
theorem Site.name_mem_leaves {kind : DeclKind} {storage : Storage}
    (hs : s ∈ (parse t).root.sites) (h : s.declares? = some (l, kind, storage)) :
    l ∈ (parse t).root.leaves ∧ l.token.isTrivia = false := by
  obtain ⟨n, hn, hfirst, hleads⟩ := Site.exists_name h
  have hmem := Site.mem_sites_of_mem_subsites hs hleads.mem
  obtain ⟨hleaf, hsig, -⟩ := mem_leaves_of_firstToken? hmem hn (by simp) hfirst
  exact ⟨hleaf, hsig⟩

/-- A declaration is used in the bare tree just if it is used in the tree. -/
theorem contains_references_bare {kind : DeclKind} {storage : Storage}
    (hf : (parse t).root.Separates f) (hs : s ∈ (parse t).root.sites)
    (h : s.declares? = some (l, kind, storage)) :
    (references ((parse t).root.bare f)).contains (l.move f).span =
      (references (parse t).root).contains l.span := by
  rw [references_bare hf, Bool.eq_iff_iff, List.contains_iff_mem, List.contains_iff_mem,
    List.mem_map, Leaf.span_move]
  constructor
  · -- what is used is the name of a declaration, and positions tell the declarations apart
    rintro ⟨span, hspan, heq⟩
    obtain ⟨d, hd, -, rfl⟩ := exists_var_of_mem_references hspan
    obtain ⟨hdsite, hdeclares, -⟩ := Inventory.mem_declarations hd
    obtain ⟨hleaf, hsig⟩ := Site.name_mem_leaves hdsite hdeclares
    obtain ⟨hleaf', hsig'⟩ := Site.name_mem_leaves hs h
    rwa [← span_eq_of_move_eq hf hleaf hleaf' hsig hsig' heq]
  · intro hspan
    exact ⟨l.span, hspan, rfl⟩

/-- A member has the group of the same number in the bare tree. -/
theorem group_bare (hbare : ((parse t).root.bare f).Snug) (hs : s ∈ (parse t).root.sites)
    (hmember : s.node.isNode .initDeclarator = true) :
    ((((parse t).root.bare f).sites.filter (·.node.isNode .declGroup)).map (·.address)).idxOf?
        (s.bare f).address.tail =
      (((parse t).root.sites.filter (·.node.isNode .declGroup)).map (·.address)).idxOf?
        s.address.tail := by
  obtain ⟨g, hparent, -⟩ := exists_group hs hmember
  have hg := Site.mem_sites_of_parent? hs hparent
  have hinner := Placed.isInner_of_isNode hmember
  -- the address of the parent is the rest of the address
  have htail {s g : Site} (h : s.parent? = some g) : s.address.tail = g.address := by
    obtain ⟨start, kind, l, r, -, habove⟩ := Site.parent?_eq_some.1 h
    simp [Site.address, habove]
  have hparent' : (s.bare f).parent? = some (g.bare f) := by
    rw [Site.parent?_bare hinner, hparent, Option.map_some]
  have hfilter : ((parse t).root.bare f).sites.filter (·.node.isNode .declGroup) =
      ((parse t).root.sites.filter (·.node.isNode .declGroup)).map (Site.bare f) := by
    rw [Placed.sites_bare, List.filter_map]
    congr 1
    refine List.filter_congr fun u _ => ?_
    simp
  rw [hfilter, htail hparent, htail hparent', List.map_map]
  -- the numbers agree because addresses tell the sites apart in both trees
  refine idxOf?_map_congr fun u hu => ?_
  have hu := (List.mem_filter.1 hu).1
  constructor
  · intro h
    have hpath : (u.bare f).path = (g.bare f).path := congrArg List.reverse h
    rw [Site.eq_of_bare_path_eq hbare hu hg hpath]
  · intro h
    have hpath : u.path = g.path := congrArg List.reverse h
    rw [Placed.eq_of_path_eq (regular_parse t).snug hu hg hpath]
    rfl

theorem found_bare (f : Nat → Nat) {sites : List Site} (h : sites ⊆ (parse t).root.sites) :
    Inventory.found (sites.map (Site.bare f)) =
      (Inventory.found sites).map fun (s, name, kind, storage) =>
        (s.bare f, name.move f, kind, storage) := by
  rw [Inventory.found, Inventory.found, List.filterMap_map, List.map_filterMap]
  refine List.filterMap_congr fun s hs => ?_
  rw [Function.comp_apply, Site.declares?_bare f (h hs)]
  cases s.declares? <;> rfl

/-- **The bare tree has the same inventory**, positions aside. -/
theorem Inventory.profiles_bare (hf : (parse t).root.Separates f)
    (hbare : ((parse t).root.bare f).Snug) :
    (ofTree ((parse t).root.bare f)).declarations.map Declaration.profile =
      (ofTree (parse t).root).declarations.map Declaration.profile := by
  have hfound := found_bare f (List.Subset.refl (parse t).root.sites)
  rw [← Placed.sites_bare] at hfound
  simp only [ofTree, declarationsAt]
  change ((found ((parse t).root.bare f).sites).zipIdx.map _).map _ =
    ((found (parse t).root.sites).zipIdx.map _).map _
  rw [hfound, List.zipIdx_map, List.map_map, List.map_map, List.map_map]
  refine List.map_congr_left ?_
  rintro ⟨⟨s, name, kind, storage⟩, id⟩ hmem
  obtain ⟨hs, hdeclares⟩ := mem_found.1 (List.fst_mem_of_mem_zipIdx hmem)
  have hused := contains_references_bare hf hs hdeclares
  simp only [Function.comp_apply, Prod.map_apply, id_eq, Declaration.profile, Leaf.text_move,
    Site.node_bare, Placed.isNode_bare, Profile.mk.injEq, true_and]
  refine ⟨?_, hused⟩
  cases hmember : s.node.isNode .initDeclarator with
  | false => rfl
  | true => exact group_bare hbare hs hmember

end

theorem Inventory.profiles_candidates (i : Inventory) :
    i.candidates.map Declaration.profile =
      (i.declarations.map Declaration.profile).filter (·.isCandidate) := by
  rw [candidates, List.filter_map]
  rfl

/-- **Trivia have no say in an analysis.** Texts with the same significant tokens, whatever blanks,
comments and preprocessor lines stand between these, have trees that differ in trivia only and the
same errors at the same tokens. They declare the same names, of the same kinds, with the same groups
and storage, of which the same are used; so they have the same candidates. -/
theorem analysis_ignores_trivia (t u : Text)
    (h : Token.significant (tokens t) = Token.significant (tokens u)) :
    (parse t).tree.bare = (parse u).tree.bare ∧
    List.Forall₂ (SyntaxError.Matches t u) (parse t).errors (parse u).errors ∧
    let i := Inventory.ofTree (parse t).root
    let j := Inventory.ofTree (parse u).root
    i.declarations.map Declaration.profile = j.declarations.map Declaration.profile ∧
    i.count = j.count ∧
    i.candidates.map Declaration.profile = j.candidates.map Declaration.profile := by
  have htree := bare_parse h
  have hprofiles (t : Text) :
      (Inventory.ofTree ((parse t).tree.bare.place 0)).declarations.map Declaration.profile =
        (Inventory.ofTree (parse t).root).declarations.map Declaration.profile := by
    rw [← bare_root]
    exact Inventory.profiles_bare (separates_offset t) (snug_bare_root t)
  have hdeclarations :
      (Inventory.ofTree (parse t).root).declarations.map Declaration.profile =
        (Inventory.ofTree (parse u).root).declarations.map Declaration.profile := by
    rw [← hprofiles t, ← hprofiles u, htree]
  have hcandidates :
      (Inventory.ofTree (parse t).root).candidates.map Declaration.profile =
        (Inventory.ofTree (parse u).root).candidates.map Declaration.profile := by
    rw [Inventory.profiles_candidates, Inventory.profiles_candidates, hdeclarations]
  refine ⟨htree, errors_match h, hdeclarations, ?_, hcandidates⟩
  have hlength := congrArg List.length hcandidates
  rw [List.length_map, List.length_map] at hlength
  rw [Inventory.count_eq, Inventory.count_eq, hlength]

/-- Comments, a directive and line breaks, in a text that ends in a stray bracket. -/
theorem analysis_ignores_trivia_directive :
    let t := "int a,b=a;]".toList
    let u := "/*c*/int a,\n#x\nb = a ;//d\n]".toList
    Token.significant (tokens t) = Token.significant (tokens u) ∧
    (parse t).errors = [⟨.noDeclaration, ⟨10, 11⟩⟩] ∧
    (∃ e, List.Forall₂ (SyntaxError.Matches t u) [⟨.noDeclaration, ⟨10, 11⟩⟩] [e]) ∧
    (Inventory.ofTree (parse u).root).candidates.map Declaration.profile =
      [⟨1, "b".toList, .var, .file, some 0, false⟩] := by
  intro t u
  have hsame : Token.significant (tokens t) = Token.significant (tokens u) := by decide +kernel
  obtain ⟨-, herrors, -, -, hcandidates⟩ := analysis_ignores_trivia t u hsame
  have hread : (parse t).errors = [⟨.noDeclaration, ⟨10, 11⟩⟩] ∧
      (Inventory.ofTree (parse t).root).candidates.map Declaration.profile =
        [⟨1, "b".toList, .var, .file, some 0, false⟩] := by
    decide +kernel
  rw [hread.1] at herrors
  obtain ⟨e, es, hmatch, hnone, heq⟩ := List.forall₂_cons_left_iff.1 herrors
  obtain rfl := List.forall₂_nil_left_iff.1 hnone
  exact ⟨hsame, hread.1, ⟨e, .cons hmatch .nil⟩, hcandidates ▸ hread.2⟩

end Whittle
