import Whittle.Proofs.Analysis
import Whittle.Proofs.Name.Transfer
import Whittle.Proofs.Token.Renaming

/-!
# What an analysis sees of names

An analysis compares names with each other and with nothing else. If all identifiers of a text are
renamed, and different ones to different ones, then the text that comes out is analysed alike.

* `Symbol.ofTokens_rename`: the grammar sees no difference.
* `parse_rename`: **a renamed text has the renamed tree.**
* `Transfer.inventory_placed`: **a tree carried over has the inventory carried over.**
* `analysis_respects_renaming`: **the analysis of a renamed text is the renamed analysis.**
-/

namespace Whittle

open Grammar

/-! ### Trees -/

section

variable (ρ : Renaming)

theorem significant_rename (ts : List Token) :
    Token.significant (ts.map ρ.token) = (Token.significant ts).map ρ.token := by
  rw [Token.significant, Token.significant, List.filter_map]
  congr 1
  refine List.filter_congr fun k _ => ?_
  rw [Function.comp_apply, Renaming.isTrivia_token]

theorem idxOf_map_of_injective {f : Text → Text} (hf : ∀ v w, f v = f w → v = w) (names : List Text)
    (w : Text) : (names.map f).idxOf (f w) = names.idxOf w := by
  induction names with
  | nil => rfl
  | cons v names ih =>
    have hbeq : (f v == f w) = (v == w) := by
      rw [Bool.eq_iff_iff, beq_iff_eq, beq_iff_eq]
      exact ⟨hf v w, congrArg f⟩
    rw [List.map_cons, List.idxOf_cons, List.idxOf_cons, hbeq, ih]

/-- The grammar sees of an identifier only which others are spelled alike. -/
theorem Symbol.ofToken_rename (names : List Text) (k : Token) :
    Symbol.ofToken (names.map ρ.word) (ρ.token k) = Symbol.ofToken names k := by
  by_cases hkind : k.kind = .identifier
  · have htoken : ρ.token k = ⟨.identifier, ρ.word k.text⟩ := if_pos hkind
    have hname := idxOf_map_of_injective ρ.word_injective names k.text
    simp [Symbol.ofToken, htoken, hkind, Sense.ofToken, hname]
  · have htoken : ρ.token k = k := if_neg hkind
    simp [Symbol.ofToken, htoken, hkind]

theorem Symbol.ofTokens_rename (ts : List Token) :
    Symbol.ofTokens (ts.map ρ.token) = Symbol.ofTokens ts := by
  have hnames : Symbol.identifiers (ts.map ρ.token) = (Symbol.identifiers ts).map ρ.word := by
    induction ts with
    | nil => rfl
    | cons k ts ih =>
      unfold Symbol.identifiers at ih ⊢
      by_cases hkind : k.kind = .identifier
      · have htoken : ρ.token k = ⟨.identifier, ρ.word k.text⟩ := if_pos hkind
        simp [htoken, hkind, ih]
      · have htoken : ρ.token k = k := if_neg hkind
        simp [htoken, hkind, ih]
  rw [Symbol.ofTokens, Symbol.ofTokens, hnames, List.map_map]
  exact List.map_congr_left fun k _ => Symbol.ofToken_rename ρ _ k

variable (t : Text)

theorem symbols_rename : Symbol.ofTokens (Token.significant (tokens (ρ.text t))) =
    Symbol.ofTokens (Token.significant (tokens t)) := by
  rw [tokens_rename, significant_rename, Symbol.ofTokens_rename]

/-- **A renamed text has the renamed tree.** -/
theorem parse_rename : (parse (ρ.text t)).tree = (parse t).tree.map ρ.token := by
  have hsymbols := symbols_rename ρ t
  simp only [parse, hsymbols, Tree.map]
  rw [tokens_rename, Skeleton.weaveAll_map ρ.isTrivia_token]

end

/-! ### Inventories -/

namespace Transfer

variable (T : Transfer)

/-- A declaration carried over. -/
def declaration (d : Declaration) : Declaration :=
  { d with name := T.leaf d.name, site := T.site d.site }

/-- A declaration group carried over. -/
def group (g : DeclGroup) : DeclGroup := { g with site := T.site g.site }

/-- An inventory carried over. -/
def inventory (i : Inventory) : Inventory :=
  ⟨i.declarations.map T.declaration, i.groups.map T.group⟩

theorem contains_span (used : List Span) (s : Span) :
    (used.map T.span).contains (T.span s) = used.contains s := by
  rw [Bool.eq_iff_iff, List.contains_iff_mem, List.contains_iff_mem, List.mem_map]
  constructor
  · rintro ⟨s', hs', heq⟩
    rwa [← T.span_injective heq]
  · exact fun h => ⟨s, h, rfl⟩

theorem declarationsAt_map (groups : List (List Nat)) (used : List Span) (sites : List Site)
    (h : ∀ s ∈ sites, ∀ name kind storage, s.declares? = some (name, kind, storage) →
      T.Fits name) :
    Inventory.declarationsAt groups (used.map T.span) (sites.map T.site) =
      (Inventory.declarationsAt groups used sites).map T.declaration := by
  have hfound : ((sites.map T.site).filterMap fun s => s.declares?.map (s, ·)) =
      (sites.filterMap fun s => s.declares?.map (s, ·)).map fun found =>
        (T.site found.1, T.leaf found.2.1, found.2.2) := by
    rw [List.filterMap_map, List.map_filterMap]
    refine List.filterMap_congr fun s _ => ?_
    rw [Function.comp_apply, declares?_site]
    cases s.declares? <;> rfl
  simp only [Inventory.declarationsAt]
  rw [hfound, List.zipIdx_map, List.map_map, List.map_map]
  refine List.map_congr_left ?_
  rintro ⟨⟨s, name, kind, storage⟩, id⟩ hmem
  obtain ⟨hs, hdeclares⟩ := Inventory.mem_found.1 (List.fst_mem_of_mem_zipIdx hmem)
  have hspan := T.span_leaf (h s hs name kind storage hdeclares)
  simp only [Function.comp_apply, Prod.map_apply, id_eq, declaration, hspan, contains_span,
    node_site, isNode_placed, address_site]

/-- **A tree carried over has the inventory carried over.** -/
theorem inventory_placed (root : Placed) (h : ∀ l ∈ root.leaves, T.Fits l)
    (hnames : ∀ s ∈ root.sites, ∀ name kind storage, s.declares? = some (name, kind, storage) →
      name ∈ root.leaves) :
    Inventory.ofTree (T.placed root) = T.inventory (Inventory.ofTree root) := by
  have hgroups : (T.placed root).sites.filter (·.node.isNode .declGroup) =
      (root.sites.filter (·.node.isNode .declGroup)).map T.site := by
    rw [sites_placed, List.filter_map]
    congr 1
    refine List.filter_congr fun s _ => ?_
    rw [Function.comp_apply, node_site, isNode_placed]
  have haddresses : ((root.sites.filter (·.node.isNode .declGroup)).map T.site).map (·.address) =
      (root.sites.filter (·.node.isNode .declGroup)).map (·.address) := by
    rw [List.map_map]
    exact List.map_congr_left fun s _ => T.address_site s
  have hdeclarations := T.declarationsAt_map
    ((root.sites.filter (·.node.isNode .declGroup)).map (·.address)) (references root) root.sites
    fun s hs name kind storage hd => h name (hnames s hs name kind storage hd)
  simp only [Inventory.ofTree, inventory, Inventory.mk.injEq]
  rw [hgroups, haddresses, T.references_placed root h, sites_placed, hdeclarations]
  refine ⟨rfl, ?_⟩
  rw [List.zipIdx_map, List.map_map, List.map_map]
  refine List.map_congr_left ?_
  rintro ⟨s, number⟩ -
  have hmembers (ds : List Declaration) :
      ((ds.map T.declaration).filter (·.group = some number)).map (·.id) =
        (ds.filter (·.group = some number)).map (·.id) := by
    rw [List.filter_map, List.map_map]
    rfl
  simp only [Function.comp_apply, Prod.map_apply, id_eq, group, hmembers]

theorem candidates_inventory (i : Inventory) :
    (T.inventory i).candidates = i.candidates.map T.declaration := by
  rw [Inventory.candidates, Inventory.candidates, inventory, List.filter_map]
  rfl

end Transfer

/-! ### Renamed texts -/

section

variable (ρ : Renaming) (t : Text)

/-- The transfer to a renamed text. -/
theorem exists_transfer : ∃ T : Transfer, (∀ k ∈ tokens t, T.token k = ρ.token k) ∧ T.move 0 = 0 ∧
    T.Carries 0 (tokens t) := by
  have hkinds := Token.kind_eq_identifier (Token.split_concat_tokens t)
  -- the words of all tokens may be renamed, as those of other kinds are no names
  have htoken (k : Token) (hk : k ∈ tokens t) : ρ.token k = ⟨k.kind, ρ.word k.text⟩ := by
    by_cases hkind : k.kind = .identifier
    · rw [Renaming.token, if_pos hkind, hkind]
    · have hword : ρ.word k.text = k.text :=
        dif_neg fun hname => hkind ((hkinds k hk).2 hname)
      rw [Renaming.token, if_neg hkind, hword]
  have hpos : ∀ k ∈ tokens t, 0 < k.size := fun k hk => Token.size_pos_of_mem_split hk
  have hpos' : ∀ k ∈ tokens t, 0 < (ρ.word k.text).size := by
    intro k hk
    have hmem : ρ.token k ∈ tokens (ρ.text t) := by
      rw [tokens_rename]
      exact List.mem_map_of_mem hk
    have h := Token.size_pos_of_mem_split hmem
    rwa [htoken k hk] at h
  exact ⟨Transfer.ofTokens ρ.word ρ.word_injective (tokens t) hpos',
    fun k hk => (htoken k hk).symm, Transfer.carries_ofTokens hpos⟩

end

mutual

theorem Tree.map_congr {g g' : Token → Token} (t : Tree) (h : ∀ k ∈ t.leaves, g k = g' k) :
    t.map g = t.map g' := by
  cases t with
  | token k => rw [Tree.map, Tree.map, h k List.mem_cons_self]
  | node kind children => rw [Tree.map, Tree.map, Tree.mapAll_congr children h]

theorem Tree.mapAll_congr {g g' : Token → Token} (ts : List Tree)
    (h : ∀ k ∈ Tree.leavesAll ts, g k = g' k) : Tree.mapAll g ts = Tree.mapAll g' ts := by
  cases ts with
  | nil => rfl
  | cons t ts =>
    rw [Tree.leavesAll, List.forall_mem_append] at h
    rw [Tree.mapAll, Tree.mapAll, Tree.map_congr t h.1, Tree.mapAll_congr ts h.2]

end

/-- What a renaming makes of a declaration of a text: its name is replaced where it stands, and
everything else is as it was. -/
structure Declaration.RenamedTo (ρ : Renaming) (t : Text) (d d' : Declaration) : Prop where
  id : d'.id = d.id
  name : d'.name.token = ρ.token d.name.token
  place : ∃ n : Nat, (Leaf.layout 0 (tokens t))[n]? = some d.name ∧
    (Leaf.layout 0 (tokens (ρ.text t)))[n]? = some d'.name
  kind : d'.kind = d.kind
  storage : d'.storage = d.storage
  address : d'.site.address = d.site.address
  group : d'.group = d.group
  isReferenced : d'.isReferenced = d.isReferenced

/-- **The analysis of a renamed text is the renamed analysis.** The tokens have the same kinds, the
tree is nested in the same way, and the same errors are noticed at the same tokens. The same names
are declared, up to the renaming, at the same places and with the same groups, and the same of them
are used; so the same ones are candidates. -/
theorem analysis_respects_renaming (ρ : Renaming) (t : Text) :
    let u := ρ.text t
    tokens u = (tokens t).map ρ.token ∧
    (parse u).tree = (parse t).tree.map ρ.token ∧
    List.Forall₂ (SyntaxError.Matches t u) (parse t).errors (parse u).errors ∧
    let i := Inventory.ofTree (parse t).root
    let j := Inventory.ofTree (parse u).root
    List.Forall₂ (Declaration.RenamedTo ρ t) i.declarations j.declarations ∧
    List.Forall₂ (fun g g' => g'.members = g.members ∧ g'.site.address = g.site.address)
      i.groups j.groups ∧
    j.count = i.count ∧
    List.Forall₂ (Declaration.RenamedTo ρ t) i.candidates j.candidates := by
  intro u
  have htree := parse_rename ρ t
  refine ⟨tokens_rename ρ t, htree, errors_match_of_symbols (symbols_rename ρ t).symm, ?_⟩
  intro i j
  obtain ⟨T, htoken, hzero, hcarries⟩ := exists_transfer ρ t
  obtain ⟨hlayout, hfits⟩ := Transfer.layout_map hcarries
  have hleaves : (parse t).root.leaves = Leaf.layout 0 (tokens t) := by
    rw [Parsed.root, Tree.leaves_place, leaves_parse]
  -- the inventory of the renamed text is the inventory, carried over
  have hroot : (parse u).root = T.placed (parse t).root := by
    have hmap : (parse t).tree.map ρ.token = (parse t).tree.map T.token := by
      refine Tree.map_congr _ fun k hk => (htoken k ?_).symm
      rwa [leaves_parse] at hk
    have hplace := T.placed_place 0 (parse t).tree (by rwa [leaves_parse])
    rw [hzero] at hplace
    rw [Parsed.root, Parsed.root, ← hplace, ← hmap, ← htree]
  have hnames (s : Site) (hs : s ∈ (parse t).root.sites) (name : Leaf) (kind : DeclKind)
      (storage : Storage) (hd : s.declares? = some (name, kind, storage)) :
      name ∈ (parse t).root.leaves := (Site.name_mem_leaves hs hd).1
  have hinventory : j = T.inventory i := by
    have h := T.inventory_placed (parse t).root (by rwa [hleaves]) hnames
    rw [← hroot] at h
    exact h
  have hrenamed (d : Declaration) (hd : d ∈ i.declarations) :
      d.RenamedTo ρ t (T.declaration d) := by
    obtain ⟨hsite, hdeclares, -⟩ := Inventory.mem_declarations hd
    have hmem := hnames _ hsite _ _ _ hdeclares
    rw [hleaves] at hmem
    obtain ⟨n, hn⟩ := List.mem_iff_getElem?.1 hmem
    have hname : d.name.token ∈ tokens t := by
      rw [← Leaf.map_token_layout 0 (tokens t)]
      exact List.mem_map_of_mem hmem
    refine ⟨rfl, htoken _ hname, ⟨n, hn, ?_⟩, rfl, rfl, T.address_site d.site, rfl, rfl⟩
    have hmap : (tokens t).map T.token = tokens u := by
      rw [tokens_rename]
      exact List.map_congr_left htoken
    rw [hzero, hmap] at hlayout
    rw [hlayout, List.getElem?_map, hn]
    rfl
  have hcandidates : j.candidates = i.candidates.map T.declaration := by
    rw [hinventory, T.candidates_inventory]
  refine ⟨?_, ?_, ?_, ?_⟩
  · rw [hinventory]
    exact List.forall₂_map_right_iff.2 (List.forall₂_same.2 hrenamed)
  · rw [hinventory]
    exact List.forall₂_map_right_iff.2
      (List.forall₂_same.2 fun g _ => ⟨rfl, T.address_site g.site⟩)
  · rw [Inventory.count_eq, Inventory.count_eq, hcandidates, List.length_map]
  · rw [hcandidates]
    exact List.forall₂_map_right_iff.2
      (List.forall₂_same.2 fun d hd => hrenamed d (List.mem_filter.1 hd).1)

theorem Token.beq_append_last {m w : Text} {k : Char} (h : m.getLast? ≠ some k) :
    (m == w ++ [k]) = false := by
  rw [beq_eq_false_iff_ne]
  rintro rfl
  exact h List.getLast?_concat

/-- The renaming that puts a letter after every name. No reserved word and no marker of a literal
ends in it. -/
def Renaming.suffixed : Renaming where
  apply w := ⟨w.1 ++ ['z'], by
    obtain ⟨w, hw⟩ := w
    cases w with
    | nil => cases hw
    | cons c w =>
      obtain ⟨hc, hword, -⟩ := Token.isName_cons.1 hw
      have hreserved : ∀ m ∈ Token.reserved, m.1.toList.getLast? ≠ some 'z' := by decide +kernel
      have hnone : Token.reserved.find? (·.1.toList == c :: w ++ ['z']) = none := by
        rw [List.find?_eq_none]
        intro m hm
        rw [Token.beq_append_last (hreserved m hm)]
        exact Bool.false_ne_true
      rw [List.cons_append] at hnone ⊢
      refine Token.isName_cons.2 ⟨hc, ?_, ?_⟩
      · rw [List.all_append, hword]
        rfl
      · rw [Token.wordKind, hnone]
        rfl⟩
  injective v w h := Subtype.ext (List.append_cancel_right (congrArg Subtype.val h))
  not_marker w := by
    have hmarkers : ∀ m ∈ Token.stringMarkers, m.toList.getLast? ≠ some 'z' := by decide
    rw [Token.isOneOf, List.any_eq_false]
    intro m hm
    rw [Token.beq_append_last (hmarkers m hm)]
    exact Bool.false_ne_true
  keeps_dollar w h := by
    rw [List.head?_append, h]
    rfl

/-- A type name that a parameter hides, a name that would mark a literal before a quote, and a name
directly after a number, in a text with two stray tokens. -/
theorem analysis_respects_renaming_hidden :
    let t := "typedef int T;T L,g;int f(T T)\x7bint x=1;return T*L;\x7d]1$y;".toList
    let u := Renaming.suffixed.text t
    u = "typedef int Tz;Tz Lz,gz;int fz(Tz Tz)\x7bint xz=1;return Tz*Lz;\x7d]1$yz;".toList ∧
    List.Forall₂ (SyntaxError.Matches t u)
      [⟨.noDeclaration, ⟨51, 52⟩⟩, ⟨.noDeclaration, ⟨52, 53⟩⟩] (parse u).errors ∧
    (Inventory.ofTree (parse u).root).count = 3 ∧
    ∃ d ∈ (Inventory.ofTree (parse t).root).candidates,
      ∃ d' ∈ (Inventory.ofTree (parse u).root).candidates,
        d.RenamedTo .suffixed t d' ∧ d.name.text = "g".toList := by
  intro t u
  have htext :
      u = "typedef int Tz;Tz Lz,gz;int fz(Tz Tz)\x7bint xz=1;return Tz*Lz;\x7d]1$yz;".toList := by
    decide +kernel
  obtain ⟨-, -, herrors, -, -, hcount, hcandidates⟩ := analysis_respects_renaming .suffixed t
  have hread : (parse t).errors = [⟨.noDeclaration, ⟨51, 52⟩⟩, ⟨.noDeclaration, ⟨52, 53⟩⟩] ∧
      (Inventory.ofTree (parse t).root).count = 3 ∧
      (Inventory.ofTree (parse t).root).candidates.map (·.name.text) =
        ["g".toList, "x".toList, "$y".toList] := by decide +kernel
  obtain ⟨hread, hthree, hnames⟩ := hread
  rw [hread] at herrors
  refine ⟨htext, herrors, hcount.trans hthree, ?_⟩
  obtain ⟨d, ds, hds⟩ : ∃ d ds, (Inventory.ofTree (parse t).root).candidates = d :: ds := by
    cases hds : (Inventory.ofTree (parse t).root).candidates with
    | nil =>
      rw [hds] at hnames
      cases hnames
    | cons d ds => exact ⟨d, ds, rfl⟩
  rw [hds] at hcandidates hnames
  obtain ⟨d', ds', hd, -, hds'⟩ := List.forall₂_cons_left_iff.1 hcandidates
  refine ⟨d, by rw [hds]; exact List.mem_cons_self, d', ?_, hd, (List.cons.inj hnames).1⟩
  rw [hds']
  exact List.mem_cons_self

end Whittle
