import Whittle.Proofs.Declaration.Transfer
import Whittle.Proofs.Grammar.Scoping
import Whittle.Proofs.Name.Denotes

/-!
# Names in sketches and in trees

What a sketch says of declarators and specifiers is what the placed tree says of them, with numbers
in place of spellings.

* `Placed.levels_sketch`: a declarator and its sketch have the same levels.
* `identifier_of_name`: **the name that a declarator or an enumerator holds is an identifier.**
* `declared?_sketch`: a declarator and its sketch declare the same name.
* `name_mem_spellings`: the name of a declaration is one of the spellings of the text.
-/

namespace Whittle

open Grammar

namespace Placed

variable (names : List Text)

@[simp] theorem sketch_node (start : Nat) (k : NodeKind) (cs : List Placed) :
    (node start k cs).sketch names = [.node k (sketchAll names cs)] := by
  rw [sketch]

@[simp] theorem sketch_token (start : Nat) (t : Token) :
    (token start t).sketch names = t.sketch names := by
  rw [sketch]

/-- A question about nodes has its answer in the sketch. -/
theorem find?_sketchAll {p : Sketch → Bool} {q : Placed → Bool} (hleaf : ∀ x, p (.leaf x) = false)
    (htoken : ∀ start t, q (.token start t) = false)
    (hnode : ∀ start k cs, p (.node k (sketchAll names cs)) = q (.node start k cs))
    (cs : List Placed) :
    (sketchAll names cs).find? p = (cs.find? q).bind fun c => (c.sketch names).head? := by
  induction cs with
  | nil => simp
  | cons c cs ih =>
    rw [sketchAll_cons, List.find?_append, ih]
    cases c with
    | token start t =>
      rw [List.find?_cons_of_neg (by simp [htoken]), sketch_token, Token.sketch]
      split
      · simp
      · simp [hleaf]
    | node start k ds =>
      rw [sketch_node]
      cases hq : q (.node start k ds) with
      | true => simp [hq, (hnode start k ds).trans hq]
      | false => simp [hq, (hnode start k ds).trans hq]

theorem find?_isNode_sketchAll (k : NodeKind) (cs : List Placed) :
    (sketchAll names cs).find? (·.isNode k) =
      (cs.find? (·.isNode k)).bind fun c => (c.sketch names).head? := by
  refine find?_sketchAll names (fun _ => rfl) (fun _ _ => rfl) (fun start k' cs => ?_) cs
  rw [isNode_eq_decide, Sketch.isNode]

/-- A part of a kind in the sketch is that of the first child of the kind. -/
theorem find?_isNode_child? (k : NodeKind) (t : Placed) :
    (sketchAll names t.children).find? (·.isNode k) =
      (t.child? k).map fun c => .node k (sketchAll names c.children) := by
  rw [find?_isNode_sketchAll, child?]
  cases h : t.children.find? (·.isNode k) with
  | none => rfl
  | some c =>
    have hc := List.find?_some h
    cases c with
    | token start t => cases hc
    | node start k' cs =>
      obtain rfl := isNode_node.1 hc
      simp [children]

/-! ### Levels -/

mutual

theorem levels_sketch (t : Placed) :
    (t.sketch names).flatMap Sketch.levels =
      t.declaratorLevels.map fun level => sketchAll names level.children := by
  cases t with
  | token start t =>
    rw [sketch_token, Token.sketch, declaratorLevels]
    split
    · rfl
    · simp [Sketch.levels]
  | node start k cs =>
    rw [sketch_node, List.flatMap_singleton, Sketch.levels_node, declaratorLevels,
      nestedLevels_sketch cs, List.map_append]
    rfl

theorem nestedLevels_sketch (cs : List Placed) :
    Sketch.nestedLevels (sketchAll names cs) =
      (nestedLevels cs).map fun level => sketchAll names level.children := by
  cases cs with
  | nil => rw [sketchAll_nil, Sketch.nestedLevels, nestedLevels, List.map_nil]
  | cons c cs =>
    rw [sketchAll_cons]
    cases c with
    | token start t =>
      have hskip : Sketch.nestedLevels (t.sketch names ++ sketchAll names cs) =
          Sketch.nestedLevels (sketchAll names cs) := by
        refine Sketch.nestedLevels_append_left (fun x hx => ?_) _
        unfold Token.sketch at hx
        split at hx
        · cases hx
        · rw [List.mem_singleton.1 hx]
          rfl
      rw [sketch_token, hskip, nestedLevels_sketch cs, nestedLevels]
      simp
    | node start k ds =>
      rw [sketch_node, List.singleton_append]
      by_cases hk : k = .nestedDeclarator
      · subst hk
        rw [Sketch.nestedLevels, nestedLevels, innerLevels_sketch ds]
      · have hsketch : (Sketch.node k (sketchAll names ds)).isNode .nestedDeclarator = false := by
          simpa [Sketch.isNode] using hk
        rw [Sketch.nestedLevels_cons_of hsketch, nestedLevels_sketch cs, nestedLevels]
        rintro _ _ heq
        exact hk (Placed.node.inj heq).2.1

theorem innerLevels_sketch (cs : List Placed) :
    Sketch.innerLevels (sketchAll names cs) =
      (innerLevels cs).map fun level => sketchAll names level.children := by
  cases cs with
  | nil => rw [sketchAll_nil, Sketch.innerLevels, innerLevels, List.map_nil]
  | cons c cs =>
    rw [sketchAll_cons, innerLevels]
    cases c with
    | token start t =>
      rw [if_neg (by simp [isNode, kind]), ← innerLevels_sketch cs, sketch_token, Token.sketch]
      split
      · rfl
      · simp [Sketch.innerLevels, Sketch.isNode]
    | node start k ds =>
      rw [sketch_node, List.singleton_append, Sketch.innerLevels, Sketch.isNode, isNode_eq_decide]
      split
      · have hlevels := levels_sketch (.node start k ds)
        rwa [sketch_node, List.flatMap_singleton] at hlevels
      · exact innerLevels_sketch cs

end

/-! ### Typedefs and parameter lists -/

theorem any_isSymbol_sketchAll {k : TokenKind} (hk : k.isTrivia = false) (cs : List Placed) :
    (sketchAll names cs).any (·.isSymbol k) = cs.any (·.isToken k) := by
  induction cs with
  | nil => simp
  | cons c cs ih =>
    rw [sketchAll_cons, List.any_append, List.any_cons, ih]
    congr 1
    cases c with
    | node start k ds =>
      rw [sketch_node]
      rfl
    | token start t =>
      rw [sketch_token, Token.sketch, isToken, kind]
      split
      · next htrivia =>
        have hne : t.kind ≠ k := by
          rintro rfl
          rw [Token.isTrivia, hk] at htrivia
          cases htrivia
        simp [hne]
      · simp [Sketch.isSymbol, Symbol.ofToken]

/-- Whether the specifiers of a group hold `typedef`. -/
theorem hasTypedef_sketchAll (t : Placed) :
    Sketch.hasTypedef (sketchAll names t.children) =
      (t.child? .specifiers).any (·.hasToken .kwTypedef) := by
  rw [Sketch.hasTypedef, find?_isNode_child?]
  cases t.child? .specifiers with
  | none => rfl
  | some c => exact any_isSymbol_sketchAll names rfl c.children

/-- The parameter list of a declarator and that of its sketch. -/
theorem ownParams?_sketch (start : Nat) (k : NodeKind) (cs : List Placed) :
    (Sketch.node k (sketchAll names cs)).ownParams? =
      (node start k cs).ownParams?.map fun p => sketchAll names p.children := by
  have hlevels := levels_sketch names (.node start k cs)
  rw [sketch_node, List.flatMap_singleton] at hlevels
  have hfirst (level : Placed) : Sketch.firstParams? (sketchAll names level.children) =
      ((level.children.find? (·.suffix?.isSome)).filter (·.isNode .paramList)).map
        fun p => sketchAll names p.children := by
    have hfind : (sketchAll names level.children).find? Sketch.isSuffix =
        (level.children.find? (·.suffix?.isSome)).bind fun c => (c.sketch names).head? := by
      refine find?_sketchAll names (fun _ => rfl) (fun _ _ => rfl) (fun start k cs => ?_) _
      cases k <;> rfl
    rw [Sketch.firstParams?, hfind]
    cases level.children.find? (·.suffix?.isSome) with
    | none => rfl
    | some c =>
      cases c with
      | token start t =>
        rw [Option.bind_some, sketch_token, Token.sketch]
        split
        · rfl
        · rfl
      | node start k cs =>
        rw [Option.bind_some, sketch_node, List.head?_cons]
        cases hk : decide (k = .paramList) with
        | true => simp [Option.filter, Sketch.isNode, isNode_eq_decide, hk, Sketch.parts, children]
        | false => simp [Option.filter, Sketch.isNode, isNode_eq_decide, hk]
  rw [Sketch.ownParams?, hlevels, ownParams?, List.findSome?_map]
  induction (node start k cs).declaratorLevels with
  | nil => rfl
  | cons level levels ih =>
    simp only [List.findSome?_cons, Function.comp, hfirst]
    cases (level.children.find? (·.suffix?.isSome)).filter (·.isNode .paramList) with
    | none => exact ih
    | some p => rfl

/-! ### First tokens -/

mutual

/-- The first symbol of a sketch is that of the first token, unless that is trivia. -/
theorem head?_symbols_sketch (t : Placed) {l : Leaf} (h : t.firstToken? = some l)
    (hl : l.token.isTrivia = false) :
    (Sketch.symbolsAll (t.sketch names)).head? = some (.ofToken names l.token) := by
  cases t with
  | token start t =>
    obtain rfl : ⟨start, t⟩ = l := Option.some.inj h
    rw [sketch_token, Token.sketch, if_neg (by simpa using hl)]
    simp
  | node start k cs =>
    rw [sketch_node]
    simpa using head?_symbols_sketchAll cs h hl

theorem head?_symbols_sketchAll (ts : List Placed) {l : Leaf} (h : firstTokenOf? ts = some l)
    (hl : l.token.isTrivia = false) :
    (Sketch.symbolsAll (sketchAll names ts)).head? = some (.ofToken names l.token) := by
  cases ts with
  | nil => cases h
  | cons t ts =>
    rw [sketchAll_cons, Sketch.symbolsAll_append, List.head?_append, head?_symbols_sketch t h hl]
    rfl

end

end Placed

/-! ### Names are identifiers -/

namespace Sketch

mutual

/-- Whether the names in a sketch are identifiers. -/
def Named : Sketch → Prop
  | .leaf _ => True
  | .node kind parts =>
    (kind = .name → ∀ x, (symbolsAll parts).head? = some x → x.kind = .identifier) ∧ NamedAll parts

/-- Whether the names in some sketches are identifiers. -/
def NamedAll : List Sketch → Prop
  | [] => True
  | x :: xs => x.Named ∧ NamedAll xs

end

theorem namedAll_append {xs ys : List Sketch} :
    NamedAll (xs ++ ys) ↔ NamedAll xs ∧ NamedAll ys := by
  induction xs with
  | nil => simp [NamedAll]
  | cons x xs ih => simp [NamedAll, ih, and_assoc]

mutual

theorem Agrees.named {σ : List Names} {st : Setting} (x : Sketch) (h : x.Agrees σ st) :
    x.Named := by
  cases x with
  | leaf x => simp [Named]
  | node k xs =>
    rw [Agrees] at h
    rw [Named]
    refine ⟨fun hk x hx => (h.1 x hx).name hk, ?_⟩
    obtain ⟨-, h⟩ := h
    split at h
    · exact AgreesAll.named xs h
    · exact MemberAgrees.named xs h
    · exact MemberAgrees.named xs h
    · exact DefinitionAgrees.named xs h
    · exact AgreesAll.named xs h
    · exact AgreesAll.named xs h

theorem AgreesAll.named {σ : List Names} {st : Setting} (xs : List Sketch)
    (h : AgreesAll σ st xs) : NamedAll xs := by
  cases xs with
  | nil => simp [NamedAll]
  | cons x xs =>
    rw [AgreesAll] at h
    rw [NamedAll]
    exact ⟨Agrees.named x h.1, AgreesAll.named xs h.2⟩

theorem MemberAgrees.named {σ : List Names} {b : Bool} (xs : List Sketch)
    (h : MemberAgrees b σ xs) : NamedAll xs := by
  cases xs with
  | nil => simp [NamedAll]
  | cons x xs =>
    rw [MemberAgrees] at h
    rw [NamedAll]
    refine ⟨Agrees.named x h.1, ?_⟩
    obtain ⟨-, h⟩ := h
    split at h
    · exact AgreesAll.named xs h
    · exact MemberAgrees.named xs h

theorem DefinitionAgrees.named {σ : List Names} (xs : List Sketch)
    (h : DefinitionAgrees σ xs) : NamedAll xs := by
  cases xs with
  | nil => simp [NamedAll]
  | cons x xs =>
    rw [DefinitionAgrees] at h
    rw [NamedAll]
    refine ⟨Agrees.named x h.1, ?_⟩
    obtain ⟨-, h⟩ := h
    split at h
    · exact AgreesAll.named xs h
    · exact DefinitionAgrees.named xs h

end

end Sketch

section

variable {t : Text} {s c : Site}

/-- The sketch of a text uses names as its scopes say. -/
theorem agrees_root (t : Text) :
    Sketch.AgreesAll [] .plain ((parse t).root.sketch (spellings t)) := by
  rw [sketch_root, Sketch.agreesAll_cons, Sketch.Agrees]
  refine ⟨⟨fun _ _ => ⟨by simp, by simp⟩, ?_⟩, Sketch.agreesAll_nil⟩
  exact agrees_skeletons _

theorem named_sketch (hs : s ∈ (parse t).root.sites) :
    Sketch.NamedAll (s.node.sketch (spellings t)) := by
  refine Placed.sites_induction (motive := fun s => Sketch.NamedAll (s.node.sketch (spellings t)))
    (fun s c hs hc _ => ?_) (fun _ => (agrees_root t).named _) s hs
  obtain ⟨start, k, l, r, hnode, -⟩ := Site.parent?_eq_some.1 hc
  rw [hnode, Placed.sketch_node, Placed.sketchAll_append, Placed.sketchAll_cons, Sketch.NamedAll,
    Sketch.Named, Sketch.namedAll_append, Sketch.namedAll_append] at hs
  exact hs.1.2.2.1

/-- What a node that is not the root begins with is no trivia. -/
theorem not_isTrivia_of_firstToken? (hs : s ∈ (parse t).root.sites) (habove : s.above ≠ [])
    {l : Leaf} (hl : s.node.firstToken? = some l) : l.token.isTrivia = false := by
  refine clearAhead_of_above hs habove l.token ?_
  rw [List.head?_map, Placed.head?_leaves_of_firstToken? _ hl]
  rfl

/-- **The name that a declarator or an enumerator holds is an identifier.** -/
theorem identifier_of_name (hs : s ∈ (parse t).root.sites) (hk : s.node.isNode .name = true)
    {l : Leaf} (hl : s.node.firstToken? = some l) : l.token.kind = .identifier := by
  have hnamed := named_sketch hs
  have habove : s.above ≠ [] := fun habove => by
    have hroot := (isNode_root_iff hs).2 habove
    simp only [Placed.isNode, decide_eq_true_eq] at hk hroot
    rw [hk] at hroot
    cases hroot
  have htrivia := not_isTrivia_of_firstToken? hs habove hl
  obtain ⟨start, cs, hnode⟩ := Placed.exists_of_isNode hk
  rw [hnode] at hl hnamed
  rw [Placed.sketch_node, Sketch.NamedAll, Sketch.Named] at hnamed
  exact hnamed.1.1 rfl _ (Placed.head?_symbols_sketchAll (spellings t) cs hl htrivia)

theorem nameOf?_sketch (hs : s ∈ (parse t).root.sites) (hk : s.node.isNode .name = true) :
    ((Sketch.symbolsAll (Placed.sketchAll (spellings t) s.node.children)).head?).map (·.name) =
      s.node.firstToken?.map fun l => (spellings t).idxOf l.text := by
  have hident {l : Leaf} (hl : s.node.firstToken? = some l) := identifier_of_name hs hk hl
  have hreg := Placed.regular_of_mem_subsites (s := ⟨_, []⟩) (regular_parse t) hs
  obtain ⟨start, cs, hnode⟩ := Placed.exists_of_isNode hk
  rw [hnode] at hident hreg ⊢
  cases cs with
  | nil => rfl
  | cons c cs =>
    cases c with
    | node start k ds =>
      have hcat := hreg.holds_inner (c := .node start k ds) List.mem_cons_self rfl
      cases k <;> simp [NodeKind.category, NodeKind.holds] at hcat
    | token first u =>
      have hkind : u.kind = .identifier := hident (l := ⟨first, u⟩) rfl
      have htrivia : u.isTrivia = false := by rw [Token.isTrivia, hkind]; rfl
      rw [Placed.children, Placed.head?_symbols_sketchAll (l := ⟨first, u⟩) _ _ rfl htrivia]
      simp [Placed.firstToken?, Placed.firstTokenOf?, Symbol.ofToken, hkind, Leaf.text]

/-- A declarator and its sketch declare the same name. -/
theorem declared?_sketch (hs : s ∈ (parse t).root.sites)
    (hk : s.node.isNode .declarator = true) :
    (Sketch.node .declarator (Placed.sketchAll (spellings t) s.node.children)).declared? =
      s.node.declaredName?.map fun l => (spellings t).idxOf l.text := by
  have hlevels := Placed.levels_sketch (spellings t) s.node
  have hparts : s.node.sketch (spellings t) =
      [.node .declarator (Placed.sketchAll (spellings t) s.node.children)] := by
    obtain ⟨start, cs, hnode⟩ := Placed.exists_of_isNode hk
    rw [hnode, Placed.sketch_node, Placed.children]
  rw [hparts, List.flatMap_singleton] at hlevels
  rw [Sketch.declared?, hlevels, Placed.declaredName?, List.head?_map]
  cases hhead : s.node.declaratorLevels.head? with
  | none => rfl
  | some level =>
    have hmem : level ∈ s.node.declaratorLevels := List.mem_of_head? hhead
    rw [Option.map_some, Option.bind_some, Sketch.nameOf?, Placed.find?_isNode_child?]
    cases hname : level.child? .name with
    | none => simp [hname]
    | some n =>
      obtain ⟨l, r, hchildren, hn, -⟩ := Placed.child?_eq_some hname
      obtain ⟨u, rfl, hleads⟩ := Site.Leads.exists_part hk hmem (by simp [hchildren]) hn
      have hu := Site.mem_sites_of_mem_subsites hs hleads.mem
      simpa [hname] using nameOf?_sketch hu hn

theorem mem_spellings {l : Leaf} (hl : l ∈ (parse t).root.leaves)
    (hk : l.token.kind = .identifier) : l.text ∈ spellings t := by
  have htoken : l.token ∈ tokens t := by
    rw [← leaves_parse, ← Leaf.map_token_layout 0 (parse t).tree.leaves, ← Tree.leaves_place]
    exact List.mem_map_of_mem hl
  have hsignificant : l.token ∈ Token.significant (tokens t) := by
    refine List.mem_filter.2 ⟨htoken, ?_⟩
    rw [Token.isTrivia, hk]
    rfl
  unfold spellings Symbol.identifiers
  exact List.mem_map_of_mem (List.mem_filter.2 ⟨hsignificant, by simpa using hk⟩)

/-- The tokens of a site are those of the text. -/
theorem leaves_subset_root (hs : s ∈ (parse t).root.sites) :
    s.node.leaves ⊆ (parse t).root.leaves := by
  refine Placed.sites_induction (motive := fun s => s.node.leaves ⊆ (parse t).root.leaves)
    (fun s c hs hc _ => ?_) (fun _ => List.Subset.refl _) s hs
  obtain ⟨start, k, l, r, hnode, -⟩ := Site.parent?_eq_some.1 hc
  refine List.Subset.trans (Placed.leaves_subset_of_mem_children ?_) hs
  simp [hnode, Placed.children]

/-- The name of a declaration is an identifier of the text. -/
theorem name_mem_leaves {name : Leaf} {kind : DeclKind} {storage : Storage}
    (hs : s ∈ (parse t).root.sites) (h : s.declares? = some (name, kind, storage)) :
    name ∈ (parse t).root.leaves ∧ name.token.kind = .identifier := by
  obtain ⟨n, hn, hfirst, hleads⟩ := Site.exists_name h
  have hsite := Site.mem_sites_of_mem_subsites hs hleads.mem
  refine ⟨leaves_subset_root hsite ?_, identifier_of_name hsite hn hfirst⟩
  exact List.mem_of_head? (Placed.head?_leaves_of_firstToken? _ hfirst)

/-- The name of a declaration is a spelling of the text. -/
theorem name_mem_spellings {name : Leaf} {kind : DeclKind} {storage : Storage}
    (hs : s ∈ (parse t).root.sites) (h : s.declares? = some (name, kind, storage)) :
    name.text ∈ spellings t := by
  obtain ⟨hleaf, hkind⟩ := name_mem_leaves hs h
  exact mem_spellings hleaf hkind

end

end Whittle
