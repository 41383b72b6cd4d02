import Whittle.Proofs.Tree.Bare

/-!
# Carrying a tree over to another text

A transfer says where the bytes of one text go in another and how its words are spelled there. It
takes a placed tree to one of the same shape, in which every question about kinds and nesting has
the same answer.

* `Tree.map`: a tree with other tokens. `weaveAll_map`: **other tokens of the same kinds are woven
  into the same tree.**
* `Transfer`: where bytes go and how words are spelled, both injective.
* `Transfer.placed`: a placed tree carried over. `placed_place`: **placing a tree with other tokens
  comes to the same as carrying the placed tree over.**
* `Transfer.ofTokens`: the transfer that takes tokens to tokens of other sizes.
* `child?_placed`, `firstToken?_placed`, `sites_placed` and the like: the answers in the other tree.
-/

namespace Whittle

/-! ### Trees with other tokens -/

namespace Tree

mutual

/-- A tree with other tokens. -/
def map (g : Token → Token) : Tree → Tree
  | .token t => .token (g t)
  | .node kind children => .node kind (mapAll g children)

/-- Some trees with other tokens. -/
def mapAll (g : Token → Token) : List Tree → List Tree
  | [] => []
  | t :: ts => t.map g :: mapAll g ts

end

variable (g : Token → Token)

theorem mapAll_eq (ts : List Tree) : mapAll g ts = ts.map (map g) := by
  induction ts with
  | nil => rfl
  | cons t ts ih => rw [mapAll, ih, List.map_cons]

theorem mapAll_append (ts us : List Tree) : mapAll g (ts ++ us) = mapAll g ts ++ mapAll g us := by
  rw [mapAll_eq, mapAll_eq, mapAll_eq, List.map_append]

theorem mapAll_map_token (ts : List Token) :
    mapAll g (ts.map .token) = (ts.map g).map .token := by
  rw [mapAll_eq, List.map_map, List.map_map]
  rfl

end Tree

namespace Skeleton

variable {g : Token → Token}

mutual

theorem weave_map (hg : ∀ k, (g k).isTrivia = k.isTrivia) (s : Skeleton) (ts : List Token) :
    s.weave (ts.map g) = (Tree.mapAll g (s.weave ts).1, (s.weave ts).2.map g) := by
  have htrivia : (fun k : Token => k.isTrivia) ∘ g = fun k => k.isTrivia := funext hg
  cases s with
  | leaf symbol =>
    simp only [weave, Tree.mapAll_map_token, List.takeWhile_map, List.dropWhile_map, htrivia,
      ← List.map_append, ← List.map_take, ← List.map_drop]
  | slot =>
    simp only [weave, Tree.mapAll_map_token, List.takeWhile_map, List.dropWhile_map, htrivia]
  | node kind children =>
    rw [weave, weave, weaveAll_map hg children ts]
    rfl

/-- **Other tokens of the same kinds are woven into the same tree.** -/
theorem weaveAll_map (hg : ∀ k, (g k).isTrivia = k.isTrivia) (ss : List Skeleton)
    (ts : List Token) :
    weaveAll ss (ts.map g) = (Tree.mapAll g (weaveAll ss ts).1, (weaveAll ss ts).2.map g) := by
  cases ss with
  | nil => rfl
  | cons s ss =>
    have hfirst := weave_map hg s ts
    have hrest := weaveAll_map hg ss (s.weave ts).2
    simp only [weaveAll, hfirst, hrest, Tree.mapAll_append]

end

end Skeleton

/-! ### Transfers -/

/-- A way to carry a placed tree over to another text. -/
structure Transfer where
  /-- Where a byte goes. -/
  move : Nat → Nat
  /-- How a word is spelled. -/
  word : Text → Text
  move_injective : ∀ m n, move m = move n → m = n
  word_injective : ∀ v w, word v = word w → v = w

namespace Transfer

variable (T : Transfer)

/-- A token carried over. -/
def token (k : Token) : Token := ⟨k.kind, T.word k.text⟩

/-- A token with its position carried over. -/
def leaf (l : Leaf) : Leaf := ⟨T.move l.start, T.token l.token⟩

/-- A span carried over, end by end. -/
def span (s : Span) : Span := ⟨T.move s.start, T.move s.stop⟩

mutual

/-- A part carried over. -/
def placed : Placed → Placed
  | .token start k => .token (T.move start) (T.token k)
  | .node start kind children => .node (T.move start) kind (placedAll children)

/-- Some parts carried over. -/
def placedAll : List Placed → List Placed
  | [] => []
  | t :: ts => placed t :: placedAll ts

end

/-- A step down carried over. -/
def crumb (c : Crumb) : Crumb :=
  ⟨c.kind, T.move c.start, c.before.map T.placed, c.after.map T.placed⟩

/-- A site carried over. -/
def site (s : Site) : Site := ⟨T.placed s.node, s.above.map T.crumb⟩

/-- Whether a token ends where its last byte goes. -/
def Fits (l : Leaf) : Prop := T.move (l.start + l.token.size) = T.move l.start + (T.token l.token).size

@[simp] theorem text_leaf (l : Leaf) : (T.leaf l).text = T.word l.text := rfl

theorem span_injective {s s' : Span} (h : T.span s = T.span s') : s = s' := by
  obtain ⟨start, stop⟩ := s
  obtain ⟨start', stop'⟩ := s'
  obtain ⟨hstart, hstop⟩ := Span.mk.inj h
  rw [T.move_injective start start' hstart, T.move_injective stop stop' hstop]

theorem span_leaf {l : Leaf} (h : T.Fits l) : (T.leaf l).span = T.span l.span := by
  unfold Leaf.span span
  rw [h]
  rfl

theorem placedAll_eq (ts : List Placed) : T.placedAll ts = ts.map T.placed := by
  induction ts with
  | nil => rfl
  | cons t ts ih => rw [placedAll, ih, List.map_cons]

/-! ### Questions to a part -/

@[simp] theorem placed_node (start : Nat) (kind : NodeKind) (children : List Placed) :
    T.placed (.node start kind children) =
      .node (T.move start) kind (children.map T.placed) := by
  rw [placed, placedAll_eq]

@[simp] theorem placed_token (start : Nat) (k : Token) :
    T.placed (.token start k) = .token (T.move start) (T.token k) := rfl

@[simp] theorem kind_placed (t : Placed) : (T.placed t).kind = t.kind := by
  cases t <;> simp [Placed.kind, token]

@[simp] theorem start_placed (t : Placed) : (T.placed t).start = T.move t.start := by
  cases t <;> simp [Placed.start]

@[simp] theorem children_placed (t : Placed) :
    (T.placed t).children = t.children.map T.placed := by
  cases t <;> simp [Placed.children]

@[simp] theorem isNode_placed (k : NodeKind) (t : Placed) :
    (T.placed t).isNode k = t.isNode k := by
  rw [Placed.isNode, Placed.isNode, kind_placed]

@[simp] theorem isToken_placed (k : TokenKind) (t : Placed) :
    (T.placed t).isToken k = t.isToken k := by
  rw [Placed.isToken, Placed.isToken, kind_placed]

@[simp] theorem child?_placed (k : NodeKind) (t : Placed) :
    (T.placed t).child? k = (t.child? k).map T.placed := by
  have hkind : (fun c : Placed => c.isNode k) ∘ T.placed = fun c => c.isNode k :=
    funext fun c => T.isNode_placed k c
  rw [Placed.child?, Placed.child?, children_placed, List.find?_map, hkind]

@[simp] theorem hasToken_placed (k : TokenKind) (t : Placed) :
    (T.placed t).hasToken k = t.hasToken k := by
  simp [Placed.hasToken, Function.comp_def]

mutual

@[simp] theorem firstToken?_placed (t : Placed) :
    (T.placed t).firstToken? = t.firstToken?.map T.leaf := by
  cases t with
  | token start k => rfl
  | node start kind children =>
    rw [placed, Placed.firstToken?, Placed.firstToken?, firstTokenOf?_placedAll children]

theorem firstTokenOf?_placedAll (ts : List Placed) :
    Placed.firstTokenOf? (T.placedAll ts) = (Placed.firstTokenOf? ts).map T.leaf := by
  cases ts with
  | nil => rfl
  | cons t ts =>
    rw [placedAll, Placed.firstTokenOf?, Placed.firstTokenOf?, firstToken?_placed t]

end

/-! ### Sites -/

mutual

theorem sitesUnder_placed (above : List Crumb) (t : Placed) :
    (T.placed t).sitesUnder (above.map T.crumb) = (t.sitesUnder above).map T.site := by
  cases t with
  | token start k => rfl
  | node start kind children =>
    have hbelow := sitesAmong_placed start kind above [] children
    rw [List.map_nil] at hbelow
    rw [placed_node, Placed.sitesUnder, Placed.sitesUnder, List.map_cons, hbelow]
    simp [site]

theorem sitesAmong_placed (start : Nat) (kind : NodeKind) (above : List Crumb)
    (before ts : List Placed) :
    Placed.sitesAmong (T.move start) kind (above.map T.crumb) (before.map T.placed)
        (ts.map T.placed) =
      (Placed.sitesAmong start kind above before ts).map T.site := by
  cases ts with
  | nil => rfl
  | cons t ts =>
    have hfirst := sitesUnder_placed (⟨kind, start, before, ts⟩ :: above) t
    have hrest := sitesAmong_placed start kind above (t :: before) ts
    rw [List.map_cons] at hfirst hrest
    rw [List.map_cons, Placed.sitesAmong, Placed.sitesAmong, List.map_append, ← hfirst, ← hrest]
    rfl

end

theorem sites_placed (root : Placed) : (T.placed root).sites = root.sites.map T.site :=
  T.sitesUnder_placed [] root

@[simp] theorem node_site (s : Site) : (T.site s).node = T.placed s.node := rfl

@[simp] theorem address_site (s : Site) : (T.site s).address = s.address := by
  simp [Site.address, site, crumb, Function.comp_def]

@[simp] theorem parentKind?_site (s : Site) : (T.site s).parentKind? = s.parentKind? := by
  cases h : s.above <;> simp [Site.parentKind?, site, crumb, h]

@[simp] theorem isWithin_site (s : Site) (kind : NodeKind) :
    (T.site s).isWithin kind = s.isWithin kind := by
  have habove : (T.site s).above = s.above.map T.crumb := rfl
  rw [Site.isWithin, Site.isWithin, node_site, isNode_placed, habove, List.any_map]
  rfl

@[simp] theorem parent?_site (s : Site) : (T.site s).parent? = s.parent?.map T.site := by
  obtain ⟨node, above⟩ := s
  cases above with
  | nil => rfl
  | cons c above => simp [Site.parent?, site, crumb]

/-! ### Placing -/

/-- Whether the bytes at which some tokens end, which start at a byte, go where the tokens carried
over end. -/
def Carries (start : Nat) (ts : List Token) : Prop :=
  ∀ before after, ts = before ++ after →
    T.move (start + (Token.concat before).size) =
      T.move start + (Token.concat (before.map T.token)).size

section

variable {T} {start : Nat} {ts us : List Token}

theorem Carries.left (h : T.Carries start (ts ++ us)) : T.Carries start ts := by
  rintro before after rfl
  exact h before (after ++ us) (by simp)

theorem Carries.right (h : T.Carries start (ts ++ us)) :
    T.Carries (start + (Token.concat ts).size) us := by
  rintro before after rfl
  have hall := h (ts ++ before) after (by simp)
  have hfirst := h ts (before ++ after) rfl
  rw [Token.concat_append, Text.size_append, List.map_append, Token.concat_append,
    Text.size_append] at hall
  rw [Nat.add_assoc, hall, hfirst, Nat.add_assoc]

/-- The first token ends where its last byte goes, and the others are carried on from there. -/
theorem Carries.cons {k : Token} (h : T.Carries start (k :: ts)) :
    T.Fits ⟨start, k⟩ ∧ T.Carries (start + k.size) ts := by
  have hsize (k : Token) : (Token.concat [k]).size = k.size := by
    simp [Token.concat, Token.size]
  have hright : T.Carries (start + (Token.concat [k]).size) ts := Carries.right h
  have hfirst := h [k] ts rfl
  rw [hsize] at hright
  rw [List.map_singleton, hsize, hsize] at hfirst
  exact ⟨hfirst, hright⟩

/-- Tokens laid out one after the other are carried over one by one. -/
theorem layout_map (h : T.Carries start ts) :
    Leaf.layout (T.move start) (ts.map T.token) = (Leaf.layout start ts).map T.leaf ∧
      ∀ l ∈ Leaf.layout start ts, T.Fits l := by
  induction ts generalizing start with
  | nil => exact ⟨rfl, by simp [Leaf.layout]⟩
  | cons k ts ih =>
    obtain ⟨hfits, hrest⟩ := h.cons
    obtain ⟨hlayout, hall⟩ := ih hrest
    constructor
    · rw [List.map_cons, Leaf.layout, Leaf.layout, List.map_cons, ← hlayout, hfits]
      rfl
    · rw [Leaf.layout, List.forall_mem_cons]
      exact ⟨hfits, hall⟩

end

mutual

theorem leaves_map (g : Token → Token) (t : Tree) : (t.map g).leaves = t.leaves.map g := by
  cases t with
  | token k => rfl
  | node kind children => rw [Tree.map, Tree.leaves, Tree.leaves, leavesAll_mapAll g children]

theorem leavesAll_mapAll (g : Token → Token) (ts : List Tree) :
    Tree.leavesAll (Tree.mapAll g ts) = (Tree.leavesAll ts).map g := by
  cases ts with
  | nil => rfl
  | cons t ts =>
    rw [Tree.mapAll, Tree.leavesAll, Tree.leavesAll, List.map_append, leaves_map g t,
      leavesAll_mapAll g ts]

end

mutual

/-- **Placing a tree with other tokens comes to the same as carrying the placed tree over.** -/
theorem placed_place (start : Nat) (t : Tree) (h : T.Carries start t.leaves) :
    (t.map T.token).place (T.move start) = T.placed (t.place start) := by
  cases t with
  | token k => rfl
  | node kind children =>
    rw [Tree.map, Tree.place, Tree.place, placed, placedAll_placeAll start children h]

theorem placedAll_placeAll (start : Nat) (ts : List Tree)
    (h : T.Carries start (Tree.leavesAll ts)) :
    Tree.placeAll (T.move start) (Tree.mapAll T.token ts) =
      T.placedAll (Tree.placeAll start ts) := by
  cases ts with
  | nil => rfl
  | cons t ts =>
    rw [Tree.leavesAll] at h
    have hnext : T.move (start + t.size) = T.move start + (t.map T.token).size := by
      rw [Tree.size_eq, Tree.size_eq, Tree.text, Tree.text, leaves_map]
      exact h t.leaves (Tree.leavesAll ts) rfl
    have hrest := placedAll_placeAll (start + t.size) ts (by rw [Tree.size_eq]; exact h.right)
    rw [Tree.mapAll, Tree.placeAll, Tree.placeAll, placedAll, placed_place start t h.left, ← hrest,
      hnext]

end

end Transfer

/-! ### Tokens of other sizes -/

namespace Token

/-- Where a byte goes at which one of some tokens ends, if the sizes of the tokens change. -/
def carry (g : Token → Token) : List Token → Nat → Option Nat
  | [], n => if n = 0 then some 0 else none
  | t :: ts, n =>
    if n = 0 then some 0
    else if n < t.size then none
    else (carry g ts (n - t.size)).map ((g t).size + ·)

variable {g : Token → Token} {ts : List Token}

@[simp] theorem carry_zero (g : Token → Token) (ts : List Token) : carry g ts 0 = some 0 := by
  cases ts <;> rfl

theorem carry_concat (before after : List Token) (hpos : ∀ k ∈ before, 0 < k.size) :
    carry g (before ++ after) (concat before).size = some (concat (before.map g)).size := by
  induction before with
  | nil => exact carry_zero g after
  | cons k ks ih =>
    have hk := hpos k List.mem_cons_self
    have hrest := ih fun j hj => hpos j (List.mem_cons_of_mem k hj)
    rw [List.cons_append, carry, size_concat_cons, if_neg (by omega), if_neg (by omega),
      Nat.add_sub_cancel_left, hrest, List.map_cons, size_concat_cons]
    rfl

theorem carry_le {n p : Nat} (h : carry g ts n = some p) : p ≤ (concat (ts.map g)).size := by
  induction ts generalizing n p with
  | nil =>
    rw [carry] at h
    split at h
    · obtain rfl := Option.some.inj h
      exact Nat.zero_le _
    · cases h
  | cons k ks ih =>
    rw [carry] at h
    split at h
    · obtain rfl := Option.some.inj h
      exact Nat.zero_le _
    · split at h
      · cases h
      · obtain ⟨q, hq, rfl⟩ := Option.map_eq_some_iff.1 h
        have hle := ih hq
        rw [List.map_cons, size_concat_cons]
        omega

theorem carry_injective (hpos : ∀ k ∈ ts, 0 < (g k).size) {m n p : Nat}
    (hm : carry g ts m = some p) (hn : carry g ts n = some p) : m = n := by
  induction ts generalizing m n p with
  | nil =>
    rw [carry] at hm hn
    split at hm
    · split at hn
      · omega
      · cases hn
    · cases hm
  | cons k ks ih =>
    have hk := hpos k List.mem_cons_self
    have hrest (j : Token) (hj : j ∈ ks) : 0 < (g j).size := hpos j (List.mem_cons_of_mem k hj)
    -- a byte goes to the start just if it is the start
    have hcases {n : Nat} (h : carry g (k :: ks) n = some p) :
        n = 0 ∧ p = 0 ∨ k.size ≤ n ∧ ∃ q, carry g ks (n - k.size) = some q ∧ (g k).size + q = p := by
      rw [carry] at h
      split at h
      · next hzero => exact .inl ⟨hzero, (Option.some.inj h).symm⟩
      · split at h
        · cases h
        · exact .inr ⟨by omega, Option.map_eq_some_iff.1 h⟩
    obtain ⟨rfl, hp⟩ | ⟨hmk, q, hq, hp⟩ := hcases hm
    · obtain ⟨rfl, -⟩ | ⟨-, q, -, hp'⟩ := hcases hn
      · rfl
      · omega
    · obtain ⟨rfl, hp'⟩ | ⟨hnk, q', hq', hp'⟩ := hcases hn
      · omega
      · obtain rfl : q = q' := by omega
        have heq := ih hrest hq hq'
        omega

end Token

/-- The transfer that spells the words of some tokens anew. A byte at which no token ends goes beyond
the end of the other text. -/
def Transfer.ofTokens (word : Text → Text) (hword : ∀ v w, word v = word w → v = w)
    (ts : List Token) (hpos : ∀ k ∈ ts, 0 < (word k.text).size) : Transfer where
  move n :=
    let g (k : Token) : Token := ⟨k.kind, word k.text⟩
    (Token.carry g ts n).getD ((Token.concat (ts.map g)).size + 1 + n)
  word := word
  word_injective := hword
  move_injective m n h := by
    simp only at h
    cases hm : Token.carry (fun k => ⟨k.kind, word k.text⟩) ts m with
    | some p =>
      have hple := Token.carry_le hm
      cases hn : Token.carry (fun k => ⟨k.kind, word k.text⟩) ts n with
      | some q =>
        rw [hm, hn, Option.getD_some, Option.getD_some] at h
        subst h
        exact Token.carry_injective hpos hm hn
      | none =>
        rw [hm, hn, Option.getD_some, Option.getD_none] at h
        omega
    | none =>
      cases hn : Token.carry (fun k => ⟨k.kind, word k.text⟩) ts n with
      | some q =>
        have hqle := Token.carry_le hn
        rw [hm, hn, Option.getD_some, Option.getD_none] at h
        omega
      | none =>
        rw [hm, hn, Option.getD_none, Option.getD_none] at h
        omega

theorem Transfer.carries_ofTokens {word : Text → Text} {hword : ∀ v w, word v = word w → v = w}
    {ts : List Token} {hpos' : ∀ k ∈ ts, 0 < (word k.text).size} (hpos : ∀ k ∈ ts, 0 < k.size) :
    (Transfer.ofTokens word hword ts hpos').move 0 = 0 ∧
      (Transfer.ofTokens word hword ts hpos').Carries 0 ts := by
  have hzero : (Transfer.ofTokens word hword ts hpos').move 0 = 0 := by
    simp [Transfer.ofTokens]
  refine ⟨hzero, ?_⟩
  rintro before after rfl
  have hcarry := Token.carry_concat (g := fun k => ⟨k.kind, word k.text⟩) before after
    fun k hk => hpos k (List.mem_append_left after hk)
  rw [hzero, Nat.zero_add, Nat.zero_add]
  simp only [Transfer.ofTokens, hcarry, Option.getD_some]
  rfl

end Whittle
