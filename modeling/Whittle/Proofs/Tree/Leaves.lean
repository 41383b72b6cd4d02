import Whittle.Proofs.Tree.Regular

/-!
# The tokens of a tree and where they lie

Reading a text loses nothing: its tree holds all its tokens where they stand in the text.

* `Leaf.layout`: tokens that follow each other, with their positions.
* `Placed.leaves`: the tokens of a part from left to right.
* `Site.leaves_split`: the tokens of a node follow each other among those of the tree, and the node
  covers just them.
* `parse_lossless`: **the tree of a text, sound or not, holds the tokens of the text and no others,
  and each node spans its own.**
-/

namespace Whittle

/-! ### Tokens one after the other -/

namespace Token

theorem concat_append (ts us : List Token) : concat (ts ++ us) = concat ts ++ concat us :=
  List.flatMap_append

theorem size_concat_cons (t : Token) (ts : List Token) :
    (concat (t :: ts)).size = t.size + (concat ts).size := by
  rw [concat, List.flatMap_cons, Text.size_append]
  rfl

end Token

namespace Leaf

/-- Tokens that follow each other from a byte on, with their positions. -/
def layout (start : Nat) : List Token → List Leaf
  | [] => []
  | t :: ts => ⟨start, t⟩ :: layout (start + t.size) ts

theorem layout_append (start : Nat) (ts us : List Token) :
    layout start (ts ++ us) = layout start ts ++ layout (start + (Token.concat ts).size) us := by
  induction ts generalizing start with
  | nil => rfl
  | cons t ts ih =>
    rw [List.cons_append, layout, layout, ih, List.cons_append, Token.size_concat_cons,
      Nat.add_assoc]

theorem map_token_layout (start : Nat) (ts : List Token) :
    (layout start ts).map (·.token) = ts := by
  induction ts generalizing start with
  | nil => rfl
  | cons t ts ih => rw [layout, List.map_cons, ih]

theorem length_layout (start : Nat) (ts : List Token) : (layout start ts).length = ts.length := by
  rw [← List.length_map (·.token), map_token_layout]

/-- The text of some leaves. -/
def concat (ls : List Leaf) : Text := Token.concat (ls.map (·.token))

@[simp] theorem concat_nil : concat [] = [] := rfl

@[simp] theorem concat_append (ls ms : List Leaf) : concat (ls ++ ms) = concat ls ++ concat ms := by
  rw [concat, List.map_append, Token.concat_append]
  rfl

/-- Each run of leaves that follow each other is laid out from where the leaves before it end. -/
theorem layout_split {start : Nat} {ts : List Token} {ls ms : List Leaf}
    (h : layout start ts = ls ++ ms) :
    ls = layout start (ls.map (·.token)) ∧
      ms = layout (start + (concat ls).size) (ms.map (·.token)) := by
  have hts : ts = ls.map (·.token) ++ ms.map (·.token) := by
    rw [← List.map_append, ← h, map_token_layout]
  rw [hts, layout_append] at h
  obtain ⟨hl, hm⟩ := List.append_inj h (by rw [length_layout, List.length_map])
  exact ⟨hl.symm, hm.symm⟩

end Leaf

/-! ### The leaves of a tree -/

namespace Tree

mutual

theorem size_eq (t : Tree) : t.size = t.text.size := by
  cases t with
  | token t => simp [size, text, leaves, Token.concat, Token.size]
  | node kind children => rw [size, text, leaves, sizeAll_eq]

theorem sizeAll_eq (ts : List Tree) : sizeAll ts = (Token.concat (leavesAll ts)).size := by
  cases ts with
  | nil => rfl
  | cons t ts =>
    rw [sizeAll, leavesAll, Token.concat_append, Text.size_append, size_eq t, sizeAll_eq ts, text]

end

end Tree

namespace Placed

mutual

/-- The tokens of a part from left to right. -/
def leaves : Placed → List Leaf
  | .token start t => [⟨start, t⟩]
  | .node _ _ children => leavesAll children

/-- The tokens of some parts from left to right. -/
def leavesAll : List Placed → List Leaf
  | [] => []
  | t :: ts => t.leaves ++ leavesAll ts

end

@[simp] theorem leaves_token (start : Nat) (t : Token) : (token start t).leaves = [⟨start, t⟩] := by
  rw [leaves]

@[simp] theorem leaves_node (start : Nat) (kind : NodeKind) (children : List Placed) :
    (node start kind children).leaves = leavesAll children := by
  rw [leaves]

@[simp] theorem leavesAll_nil : leavesAll [] = [] := by rw [leavesAll]

@[simp] theorem leavesAll_cons (t : Placed) (ts : List Placed) :
    leavesAll (t :: ts) = t.leaves ++ leavesAll ts := by
  rw [leavesAll]

theorem leavesAll_append (ts us : List Placed) :
    leavesAll (ts ++ us) = leavesAll ts ++ leavesAll us := by
  induction ts with
  | nil => simp
  | cons t ts ih => simp [ih]

/-- A token that is no trivia. -/
def significantToken? : Placed → Option Token
  | .token _ t => if t.isTrivia then none else some t
  | .node _ _ _ => none

mutual

theorem head?_leaves_of_firstToken? (t : Placed) {l : Leaf} (h : t.firstToken? = some l) :
    t.leaves.head? = some l := by
  cases t with
  | token start t => exact h
  | node start kind children =>
    rw [leaves_node]
    exact head?_leavesAll_of_firstTokenOf? children h

theorem head?_leavesAll_of_firstTokenOf? (ts : List Placed) {l : Leaf}
    (h : firstTokenOf? ts = some l) : (leavesAll ts).head? = some l := by
  cases ts with
  | nil => cases h
  | cons t ts =>
    rw [leavesAll, List.head?_append, head?_leaves_of_firstToken? t h]
    rfl

end

mutual

/-- A snug part is as long as its tokens. -/
theorem stop_eq (t : Placed) (h : t.Snug) : t.stop = t.start + (Leaf.concat t.leaves).size := by
  cases t with
  | token start t => simp [Leaf.concat, Token.concat, Placed.start, Token.size]
  | node start kind children =>
    rw [stop_node, start_node, leaves_node]
    exact stopAll_eq children (snug_node.1 h)

theorem stopAll_eq {start : Nat} (ts : List Placed) (h : SnugFrom start ts) :
    stopAll start ts = start + (Leaf.concat (leavesAll ts)).size := by
  cases ts with
  | nil => simp [Text.size]
  | cons t ts =>
    obtain ⟨hstart, ht, hts⟩ := snugFrom_cons.1 h
    rw [stopAll_cons, stopAll_eq ts hts, stop_eq t ht, hstart, leavesAll_cons, Leaf.concat_append,
      Text.size_append, Nat.add_assoc]

end

end Placed

namespace Tree

mutual

theorem leaves_place (start : Nat) (t : Tree) :
    (t.place start).leaves = Leaf.layout start t.leaves := by
  cases t with
  | token t => simp [place, leaves, Leaf.layout]
  | node kind children => rw [place, Placed.leaves_node, leaves, leavesAll_placeAll]

theorem leavesAll_placeAll (start : Nat) (ts : List Tree) :
    Placed.leavesAll (placeAll start ts) = Leaf.layout start (leavesAll ts) := by
  cases ts with
  | nil => simp [placeAll, leavesAll, Leaf.layout]
  | cons t ts =>
    rw [placeAll, Placed.leavesAll_cons, leaves_place, leavesAll_placeAll, leavesAll,
      Leaf.layout_append, size_eq, text]

end

end Tree

/-! ### Nodes and their leaves -/

namespace Placed

/-- Whether the tokens of a part follow each other among those of a tree, from where the part
starts. -/
def RunIn (root c : Placed) : Prop :=
  ∃ before after, root.leaves = before ++ c.leaves ++ after ∧
    c.start = root.start + (Leaf.concat before).size

theorem RunIn.refl (root : Placed) : root.RunIn root := ⟨[], [], by simp, by simp [Text.size]⟩

theorem RunIn.child {root p c : Placed} (h : root.RunIn p) (hp : p.Snug) (hc : c ∈ p.children) :
    root.RunIn c ∧ c.Snug := by
  cases p with
  | token start t => simp [children] at hc
  | node start kind children =>
    obtain ⟨l, r, rfl⟩ := List.append_of_mem hc
    obtain ⟨before, after, hleaves, hstart⟩ := h
    rw [snug_node, snugFrom_append, snugFrom_cons] at hp
    obtain ⟨hl, hcstart, hcsnug, -⟩ := hp
    refine ⟨⟨before ++ leavesAll l, leavesAll r ++ after, ?_, ?_⟩, hcsnug⟩
    · simp [hleaves, leavesAll_append]
    · -- a child starts where the siblings before it stop
      rw [start_node] at hstart
      rw [hcstart, stopAll_eq l hl, hstart, Leaf.concat_append, Text.size_append, Nat.add_assoc]

end Placed

namespace Site

variable {root : Placed} {s : Site}

/-- The tokens of a node follow each other among those of the tree. -/
theorem runIn (hroot : root.Snug) (hs : s ∈ root.sites) : root.RunIn s.node := by
  have key : ∀ s ∈ root.sites, root.RunIn s.node ∧ s.node.Snug := by
    refine Placed.sites_induction (fun u c hu hc _ => ?_) fun _ => ⟨.refl root, hroot⟩
    obtain ⟨start, kind, l, r, hnode, -⟩ := parent?_eq_some.1 hc
    exact hu.1.child hu.2 (by simp [hnode, Placed.children])
  exact (key s hs).1

/-- A node is of a category that the node one step up holds. -/
theorem category_mem_holds (hroot : root.Regular) (hs : s ∈ root.sites) {k : NodeKind}
    (hk : s.parentKind? = some k) : s.node.category ∈ k.holds := by
  cases hparent : s.parent? with
  | none => simp [parentKind?, parent?_eq_none.1 hparent] at hk
  | some g =>
    obtain ⟨start, kind, l, r, hnode, habove⟩ := parent?_eq_some.1 hparent
    obtain rfl : kind = k := by simpa [parentKind?, habove] using hk
    have hg := Placed.regular_of_mem_subsites (s := ⟨root, []⟩) hroot
      (mem_sites_of_parent? hs hparent)
    rw [hnode] at hg
    exact hg.holds_inner (by simp) (isInner_of_mem_subsites (s := ⟨root, []⟩) hs)

end Site

theorem NodeKind.root_not_mem_holds (k : NodeKind) : .part .root ∉ k.holds := by
  cases k <;> simp [holds]

/-- Of the nodes of the tree of a text, just the topmost one is a root. -/
theorem isNode_root_iff {t : Text} {s : Site} (hs : s ∈ (parse t).root.sites) :
    s.node.isNode .root = true ↔ s.above = [] := by
  refine ⟨fun hroot => ?_, fun habove => ?_⟩
  · cases habove : s.above with
    | nil => rfl
    | cons c rest =>
      have hk : s.parentKind? = some c.kind := by simp [Site.parentKind?, habove]
      have hmem := Site.category_mem_holds (regular_parse t) hs hk
      rw [Placed.category_of_isNode hroot] at hmem
      exact absurd hmem (NodeKind.root_not_mem_holds c.kind)
  · have heq := Site.eq_of_mem_subsites_of_path_eq (s := ⟨(parse t).root, []⟩) hs
      (by simp [Site.path, Site.address, habove])
    rw [heq]
    rfl

/-! ### Reading loses nothing -/

/-- **Reading loses nothing.** The tree of a text, sound or not, is a single root. Its tokens are
those of the text, from left to right and each in its place, so that it has the same text. Each of
its nodes holds a run of these tokens and spans just them. -/
theorem parse_lossless (t : Text) :
    (parse t).root.isNode .root = true ∧
    (parse t).root.leaves = Leaf.layout 0 (tokens t) ∧
    (parse t).tree.text = t ∧
    ∀ s ∈ (parse t).root.sites,
      (s.node.isNode .root = true ↔ s.above = []) ∧
      ∃ before after, tokens t = before ++ s.node.leaves.map (·.token) ++ after ∧
        s.node.leaves =
          Leaf.layout (Token.concat before).size (s.node.leaves.map (·.token)) ∧
        s.node.span = ⟨(Token.concat before).size,
          (Token.concat before).size + (Leaf.concat s.node.leaves).size⟩ := by
  have hregular := regular_parse t
  have hleaves : (parse t).root.leaves = Leaf.layout 0 (tokens t) := by
    rw [Parsed.root, Tree.leaves_place, leaves_parse]
  refine ⟨rfl, hleaves, ?_, fun s hs => ⟨isNode_root_iff hs, ?_⟩⟩
  · rw [Tree.text, leaves_parse, Token.concat_tokens]
  · obtain ⟨before, after, hsplit, hstart⟩ := Site.runIn hregular.snug hs
    have hstop := Placed.stop_eq s.node
      (Placed.regular_of_mem_subsites (s := ⟨(parse t).root, []⟩) hregular hs).snug
    have hsize : (Token.concat (before.map (·.token))).size = s.node.start := by
      rw [hstart, Parsed.root, Tree.start_place, Nat.zero_add]
      rfl
    rw [hleaves] at hsplit
    refine ⟨before.map (·.token), after.map (·.token), ?_, ?_, ?_⟩
    · rw [← List.map_append, ← List.map_append, ← hsplit, Leaf.map_token_layout]
    · obtain ⟨hfirst, -⟩ := Leaf.layout_split hsplit
      have hown := (Leaf.layout_split hfirst.symm).2
      rwa [Nat.zero_add] at hown
    · rw [hsize, ← hstop]
      rfl

/-- A bracket that is never closed: its node still covers the run of tokens it holds. -/
theorem parse_lossless_unclosed :
    let t := "int a[3 /* c */ \x7d".toList
    (parse t).errors ≠ [] ∧ (parse t).tree.text = t ∧
      ∃ s ∈ (parse t).root.sites, s.node.isNode .arraySuffix = true ∧ s.above ≠ [] ∧
        ∃ before after, tokens t = before ++ s.node.leaves.map (·.token) ++ after ∧
          s.node.span = ⟨(Token.concat before).size,
            (Token.concat before).size + (Leaf.concat s.node.leaves).size⟩ := by
  intro t
  have hsite : (parse t).root.sites.any (·.node.isNode .arraySuffix) = true := by decide +kernel
  obtain ⟨s, hs, hsuffix⟩ := List.any_eq_true.1 hsite
  have hlossless := parse_lossless t
  obtain ⟨hroot, before, after, hsplit, -, hspan⟩ := hlossless.2.2.2 s hs
  refine ⟨by decide +kernel, hlossless.2.2.1, s, hs, hsuffix, ?_, before, after, hsplit, hspan⟩
  intro habove
  have hkind := hroot.2 habove
  simp only [Placed.isNode, decide_eq_true_eq] at hsuffix hkind
  rw [hsuffix] at hkind
  cases hkind

end Whittle
