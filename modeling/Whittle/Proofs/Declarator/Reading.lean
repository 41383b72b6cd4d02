import Whittle.Proofs.Declarator.Basic
import Whittle.Proofs.Expression.RoundTrip

/-!
# Declarators are read as they stand

A level of a declarator is read from left to right: its stars, its core and its suffixes. Suffixes
are read in a loop, so for the core with the suffixes behind it, it is said which state the loop
comes to.

* `Coreless`: what cannot be taken for the core of a declarator.
* `CoreReads`: a core with suffixes is read as it stands.
* `LevelReads`: a level with its stars is read as it stands.
* `read_specifiersTree`: specifiers are read as they stand.
* `Declarator.reads`: **every declarator is read as it stands.**
-/

namespace Whittle

namespace Grammar

open Construct Expr Declarator

variable {names : List Text} {f : Expr → Tree} {s s' : State} {rest : List Symbol} {d : Declarator}

/-! ### What may follow -/

/-- The kinds of the symbols that end a declarator. -/
def declaratorEnds : List TokenKind := [.semicolon, .comma, .closeParen]

/-- Whether a declarator ends before some symbols. -/
def EndsDeclarator (rest : List Symbol) : Prop := ∃ y ys, rest = y :: ys ∧ y.kind ∈ declaratorEnds

/-- Whether some symbols cannot be taken for the core of a declarator. -/
def Coreless (rest : List Symbol) : Prop := ∀ s : State, s.ahead = rest →
  s.next ≠ some .identifier ∧ (s.next = some .openParen → s.view.opensDeclarator = false)

theorem endsDeclarator_of_kind {t : Token} (ht : t.kind ∈ declaratorEnds) (rest : List Symbol) :
    EndsDeclarator (.ofToken names t :: rest) := ⟨_, _, rfl, ht⟩

namespace EndsDeclarator

theorem next (h : EndsDeclarator rest) (hs : s.ahead = rest) :
    ∃ k ∈ declaratorEnds, s.next = some k := by
  obtain ⟨y, ys, rfl, hy⟩ := h
  exact ⟨y.kind, hy, State.next_of_ahead hs⟩

theorem next_ne (h : EndsDeclarator rest) (hs : s.ahead = rest) {k : TokenKind}
    (hk : k ∉ declaratorEnds) : s.next ≠ some k := by
  obtain ⟨k', hk', hnext⟩ := h.next hs
  rw [hnext]
  rintro ⟨⟩
  exact hk hk'

theorem coreless (h : EndsDeclarator rest) : Coreless rest := by
  intro s hs
  refine ⟨h.next_ne hs (by decide), fun hopen => ?_⟩
  exact absurd hopen (h.next_ne hs (by decide))

/-- Where the suffixes end. -/
theorem after_suffixes (h : EndsDeclarator rest) (hs : s.ahead = rest) (isFirst : Bool)
    (known : Option Names) : (suffixes isFirst known).after s = s := by
  rw [after, read_suffixes_end (h.next_ne hs (by decide)) (h.next_ne hs (by decide))]

theorem after_attributes (h : EndsDeclarator rest) (hs : s.ahead = rest) (labels : Bool) :
    (attributes labels).after s = s := by
  rw [after, read_attributes_of_ne labels (h.next_ne hs (by decide)) (h.next_ne hs (by decide))]

end EndsDeclarator

/-! ### How declarators start -/

/-- The symbols of a declarator. -/
theorem exists_symbols_parts (f : Expr → Tree) (hempty : d.isEmpty = false) (names : List Text) :
    ∃ y ys, Tree.symbolsAll names (d.parts f) = y :: ys ∧ y.kind ∈ openers := by
  obtain ⟨t, ts, hleaves, ht⟩ := exists_head f hempty
  refine ⟨.ofToken names t, ts.map (.ofToken names), ?_, ht⟩
  rw [Tree.symbolsAll, hleaves, List.map_cons]

theorem next_of_parts (hempty : d.isEmpty = false)
    (hs : s.ahead = Tree.symbolsAll names (d.parts f) ++ rest) :
    ∃ k ∈ openers, s.next = some k := by
  obtain ⟨y, ys, hsymbols, hy⟩ := exists_symbols_parts f hempty names
  rw [hsymbols, List.cons_append] at hs
  exact ⟨y.kind, hy, State.next_of_ahead hs⟩

/-- Where a declarator comes next, no symbol does that none starts with or ends at. -/
theorem next_ne_of_parts (hrest : EndsDeclarator rest)
    (hs : s.ahead = Tree.symbolsAll names (d.parts f) ++ rest) {k : TokenKind}
    (hk : k ∉ openers) (hk' : k ∉ declaratorEnds) : s.next ≠ some k := by
  cases hempty : d.isEmpty with
  | true =>
    rw [parts_of_isEmpty f hempty] at hs
    exact hrest.next_ne hs hk'
  | false =>
    obtain ⟨k', hmem, hnext⟩ := next_of_parts hempty hs
    rw [hnext]
    rintro ⟨⟩
    exact hk hmem

/-- A declarator that does not start with stars does not start with a star. -/
theorem next_ne_star (hpointer : d.isPointer = false) (hrest : EndsDeclarator rest)
    (hs : s.ahead = Tree.symbolsAll names (d.parts f) ++ rest) : s.next ≠ some .star := by
  cases hempty : d.isEmpty with
  | true =>
    rw [parts_of_isEmpty f hempty] at hs
    exact hrest.next_ne hs (by decide)
  | false =>
    obtain ⟨t, ts, hleaves, ht⟩ := exists_head_core f hempty hpointer
    rw [Tree.symbolsAll, hleaves, List.map_cons, List.cons_append] at hs
    rw [State.next_of_ahead hs]
    intro hstar
    have hkind : t.kind = .star := Option.some.inj hstar
    rw [hkind] at ht
    exact absurd ht (by decide)

/-! ### Stars -/

/-- Qualifiers are read up to what is no specifier. -/
theorem took_qualifiers (qualifiers : List (OneOf Token.qualifiers))
    (hs : s.ahead =
      Tree.symbolsAll names (qualifiers.map fun q => .token (qualifierToken q.1)) ++ rest)
    (hrest : ∀ s' : State, s'.ahead = rest → s'.next ≠ some .specifier) :
    Took names (qualifiers.map fun q => .token (qualifierToken q.1)) s
      ((series .pointerQualifiers).after s) := by
  induction qualifiers generalizing s with
  | nil =>
    have hend : Rule.isInSeries .pointerQualifiers s.view = false := by
      have hnext := hrest s hs
      simp [Rule.isInSeries, hnext]
    rw [after_series_of_not hend]
    exact .refl s
  | cons q qualifiers ih =>
    rw [List.map_cons, Tree.symbolsAll_cons, Tree.symbols_token, List.append_assoc] at hs
    have hsense := (qualifier_token q.2).2
    have hmore : Rule.isInSeries .pointerQualifiers s.view = true := by
      have hkind : s.next = some .specifier := State.next_of_ahead hs
      have hword : s.view.senseAt 0 ≠ .typeWord := by
        simpa [View.senseAt, hs, Symbol.ofToken] using hsense
      simp [Rule.isInSeries, hkind, hword]
    have hfirst := Took.bump hs rfl
    rw [after_series hmore]
    exact hfirst.trans (ih (State.ahead_bump_of_ahead hs))

/-! ### Levels -/

section

variable (names f)

/-- The core of a declarator and the suffixes behind it are read as they stand, and reading goes on
with the suffixes that follow. -/
def CoreReads (d : Declarator) : Prop :=
  ∀ s rest, s.Plain → s.ahead = Tree.symbolsAll names (d.parts f) ++ rest →
    (d.isEmpty = true → Coreless rest) →
    ∃ core s₁ s₂ isFirst known,
      Rule.declaratorCore.wp reading s (fun c s' => c = core ∧ s' = s₁) ∧
      Took names (d.parts f) s s₂ ∧
      (suffixes true core.params).after s₁ = (suffixes isFirst known).after s₂

/-- The stars, the core and the suffixes of a declarator are read as they stand. -/
def LevelReads (d : Declarator) : Prop :=
  ∀ s rest, s.Plain → s.ahead = Tree.symbolsAll names (d.parts f) ++ rest → EndsDeclarator rest →
    ∃ core s₁,
      Rule.declaratorCore.wp reading (pointers.after s) (fun c s' => c = core ∧ s' = s₁) ∧
      Took names (d.parts f) s ((suffixes true core.params).after s₁)

/-- A suffix is read as it stands, and reading goes on with the suffixes that follow. -/
def SuffixReads (suffix : Suffix) : Prop :=
  ∀ s rest, s.Plain → s.ahead = (suffix.tree f).symbols names ++ rest →
    ∃ s', Took names [suffix.tree f] s s' ∧ ∀ isFirst known, ∃ known',
      (suffixes isFirst known).after s = (suffixes false known').after s'

end

/-- A declarator is read as its level is. -/
theorem LevelReads.took (h : LevelReads names f d) (hplain : s.Plain)
    (hs : s.ahead = Tree.symbolsAll names (d.parts f) ++ rest) (hrest : EndsDeclarator rest) :
    Took names [.node .declarator (d.parts f)] s (declarator.after s) := by
  obtain ⟨core, s₁, hcore, htook⟩ := h s.opened rest hplain.opened hs hrest
  have hahead := htook.ahead_eq_of_append hs
  rw [after_declarator hcore, hrest.after_attributes hahead]
  exact (htook.gather rfl .declarator).joined

/-- Without stars a level is its core with its suffixes. -/
theorem CoreReads.level (h : CoreReads names f d) (hpointer : d.isPointer = false) :
    LevelReads names f d := by
  intro s rest hplain hs hrest
  obtain ⟨core, s₁, s₂, isFirst, known, hcore, htook, hafter⟩ :=
    h s rest hplain hs fun _ => hrest.coreless
  have hpointers : pointers.after s = s := by
    rw [after, read_pointers_of_ne (next_ne_star hpointer hrest hs)]
  refine ⟨core, s₁, by rwa [hpointers], ?_⟩
  rw [hafter, hrest.after_suffixes (htook.ahead_eq_of_append hs)]
  exact htook

theorem LevelReads.pointer (h : LevelReads names f d)
    (qualifiers : List (OneOf Token.qualifiers)) :
    LevelReads names f (.pointer qualifiers d) := by
  intro s rest hplain hs hrest
  have hs : s.ahead = .ofToken names (mark "*") ::
      (Tree.symbolsAll names (qualifiers.map fun q => .token (qualifierToken q.1)) ++
        (Tree.symbolsAll names (d.parts f) ++ rest)) := by
    simpa [parts] using hs
  have hstar := Took.bump hs rfl
  have hs₁ := State.ahead_bump_of_ahead hs
  have hqualifiers := took_qualifiers qualifiers hs₁ fun s' hs' =>
    next_ne_of_parts hrest hs' (by decide) (by decide)
  have hbefore := hstar.trans hqualifiers
  have hs₂ := hqualifiers.ahead_eq_of_append hs₁
  -- no attribute follows
  have hattributes : (attributes false).after ((series .pointerQualifiers).after (s.act .bump)) =
      (series .pointerQualifiers).after (s.act .bump) := by
    rw [after, read_attributes_of_ne false (next_ne_of_parts hrest hs₂ (by decide) (by decide))
      (next_ne_of_parts hrest hs₂ (by decide) (by decide))]
  obtain ⟨core, s₁, hcore, htook⟩ := h _ rest (hplain.took hbefore) hs₂ hrest
  refine ⟨core, s₁, ?_, ?_⟩
  · rwa [after_pointers (next_of_kind hs rfl), hattributes]
  · rw [parts]
    exact hbefore.trans htook

/-! ### Cores -/

theorem coreReads_name (w : Name) : CoreReads names f (.name w) := by
  intro s rest hplain hs _
  have hs : s.ahead = .ofToken names (nameToken w) :: rest := by simpa [parts] using hs
  exact ⟨_, _, _, true, none, wp_declaratorCore_name (next_of_kind hs rfl),
    took_leafNode .name hs rfl, rfl⟩

theorem coreReads_of_isEmpty (hempty : d.isEmpty = true) : CoreReads names f d := by
  intro s rest hplain hs hrest
  rw [parts_of_isEmpty f hempty] at hs ⊢
  obtain ⟨hname, hopen⟩ := hrest hempty s hs
  exact ⟨_, _, s, true, none, wp_declaratorCore_nothing hname hopen, .refl s, rfl⟩

/-- A parenthesis before a declarator encloses it. -/
theorem opensDeclarator_of_parts (hplain : s.Plain) (hempty : d.isEmpty = false) {x : Symbol}
    (hs : s.ahead = x :: (Tree.symbolsAll names (d.parts f) ++ rest)) :
    s.view.opensDeclarator = true := by
  obtain ⟨y, ys, hsymbols, hy⟩ := exists_symbols_parts f hempty names
  rw [hsymbols, List.cons_append] at hs
  unfold View.opensDeclarator
  rw [State.kindAt_one_of_ahead hs]
  simp only [openers, coreOpeners, List.mem_cons, List.not_mem_nil, or_false] at hy
  rcases hy with hy | hy | hy | hy <;> simp [hy, hplain _]

theorem LevelReads.coreReads_parens (h : LevelReads names f d) :
    CoreReads names f (.parens d) := by
  cases hempty : d.isEmpty with
  | true => exact coreReads_of_isEmpty hempty
  | false =>
    intro s rest hplain hs _
    rw [parts_parens f hempty] at hs ⊢
    have hs : s.ahead = .ofToken names (mark "(") ::
        (Tree.symbolsAll names (d.parts f) ++ .ofToken names (mark ")") :: rest) := by
      simpa [nestedTree] using hs
    have hopen : Took names [.token (mark "(")] s.opened (s.opened.act .bump) := .bump hs rfl
    have hs₁ := State.ahead_bump_of_ahead (s := s.opened) hs
    have hends : EndsDeclarator (.ofToken names (mark ")") :: rest) :=
      endsDeclarator_of_kind (by decide) rest
    have hattributes : (attributes false).after (s.opened.act .bump) = s.opened.act .bump := by
      rw [after, read_attributes_of_ne false (next_ne_of_parts hends hs₁ (by decide) (by decide))
        (next_ne_of_parts hends hs₁ (by decide) (by decide))]
    have hinner := h.took (hplain.opened.took hopen) hs₁ hends
    have hs₂ := hinner.ahead_eq hs₁
    have hcore := wp_declaratorCore_nested hattributes.symm (next_of_kind hs rfl)
      (opensDeclarator_of_parts hplain hempty hs) (next_of_kind hs₂ rfl)
    have hclosed := (hopen.trans hinner).snoc hs₂ rfl
    exact ⟨_, _, _, true, _, hcore, (hclosed.gather rfl .nestedDeclarator).joined, rfl⟩

/-- A suffix cannot be taken for a core. -/
theorem CoreReads.suffixed {suffix : Suffix} (h : CoreReads names f d.tight)
    (hsuffix : SuffixReads names f suffix)
    (hcoreless : ∀ rest, Coreless ((suffix.tree f).symbols names ++ rest)) :
    CoreReads names f (.suffixed d suffix) := by
  intro s rest hplain hs _
  rw [parts_suffixed] at hs ⊢
  have hs : s.ahead = Tree.symbolsAll names (d.tight.parts f) ++
      ((suffix.tree f).symbols names ++ rest) := by
    simpa using hs
  obtain ⟨core, s₁, s₂, isFirst, known, hcore, htook, hafter⟩ :=
    h s _ hplain hs fun _ => hcoreless rest
  obtain ⟨s₃, htook', hloop⟩ := hsuffix s₂ rest (hplain.took htook) (htook.ahead_eq_of_append hs)
  obtain ⟨known', hafter'⟩ := hloop isFirst known
  exact ⟨core, s₁, s₃, false, known', hcore, htook.trans htook', hafter.trans hafter'⟩

/-! ### Arrays -/

/-- A star that starts an expression does not stand alone between brackets. -/
theorem kindAt_one_of_standsAt {x : Tree} {m : Nat} (hx : x.StandsAt m)
    (hs : s.ahead = x.symbols names ++ rest) (hstar : s.next = some .star) :
    s.view.kindAt 1 ≠ some .closeBracket := by
  obtain ⟨t, ts, hleaves, hgoes⟩ := hx.exists_head_star
  rw [Tree.symbols, hleaves, List.map_cons, List.cons_append] at hs
  rw [State.next_of_ahead hs] at hstar
  obtain ⟨t', ts', rfl, ht'⟩ := hgoes (Option.some.inj hstar)
  rw [State.kindAt_one_of_ahead hs]
  intro hclose
  have hkind : t'.kind = .closeBracket := Option.some.inj hclose
  rw [hkind] at ht'
  exact absurd ht' (by decide)

theorem suffixReads_array (hf : ∀ e, (f e).StandsAt 2) (size : Option Expr) :
    SuffixReads names f (.array size) := by
  intro s rest hplain hs
  have hloop (hopen : s.next = some .openBracket) (isFirst : Bool) (known : Option Names) :
      ∃ known', (suffixes isFirst known).after s =
        (suffixes false known').after (arraySuffix.after s) :=
    ⟨known, after_suffixes_array hopen⟩
  cases size with
  | none =>
    have hs : s.ahead = .ofToken names (mark "[") :: .ofToken names (mark "]") :: rest := hs
    have hopen : Took names [.token (mark "[")] s.opened (s.opened.act .bump) := .bump hs rfl
    have hs₁ := State.ahead_bump_of_ahead (s := s.opened) hs
    refine ⟨arraySuffix.after s, ?_, hloop (next_of_kind hs rfl)⟩
    rw [after_arraySuffix_of_close rfl (next_of_kind hs rfl) (next_of_kind hs₁ rfl)]
    exact ((hopen.snoc hs₁ rfl).gather rfl .arraySuffix).joined
  | some e =>
    have hs : s.ahead = .ofToken names (mark "[") ::
        ((f e).symbols names ++ .ofToken names (mark "]") :: rest) := by
      simpa [Suffix.tree, arrayTree] using hs
    have hopen : Took names [.token (mark "[")] s.opened (s.opened.act .bump) := .bump hs rfl
    have hs₁ := State.ahead_bump_of_ahead (s := s.opened) hs
    have hinner := (readable_of_standsAt (hf e) names).assignment (Nat.le_refl 2) _ _
      (hplain.opened.took hopen) hs₁ (loose_of_closer rfl (by decide) 1 rest)
    have hs₂ := hinner.ahead_eq hs₁
    refine ⟨arraySuffix.after s, ?_, hloop (next_of_kind hs rfl)⟩
    rw [after_arraySuffix rfl (next_of_kind hs rfl)
      (next_ne_of_standsAt (hf e) hs₁ (by decide)) (next_ne_of_standsAt (hf e) hs₁ (by decide))
      (next_ne_of_standsAt (hf e) hs₁ (by decide)) (kindAt_one_of_standsAt (hf e) hs₁)
      (next_of_kind hs₂ rfl)]
    exact (((hopen.trans hinner).snoc hs₂ rfl).gather rfl .arraySuffix).joined

/-! ### Specifiers -/

/-- The symbols of some specifiers. -/
theorem exists_symbols_specifiers {specs : List Specifier} (hne : specs ≠ []) (names : List Text) :
    ∃ y ys, Tree.symbolsAll names (specs.map (·.tree)) = y :: ys ∧ y.kind ∈ Specifier.openers := by
  obtain ⟨spec, specs, rfl⟩ := List.exists_cons_of_ne_nil hne
  obtain ⟨t, ts, hleaves, ht⟩ := spec.exists_head
  refine ⟨.ofToken names t,
    ts.map (.ofToken names) ++ Tree.symbolsAll names (specs.map (·.tree)), ?_, ht⟩
  rw [List.map_cons, Tree.symbolsAll_cons, Tree.symbols, hleaves, List.map_cons, List.cons_append]

theorem next_of_specifiers {specs : List Specifier} (hne : specs ≠ [])
    (hs : s.ahead = Tree.symbolsAll names (specs.map (·.tree)) ++ rest) :
    ∃ k ∈ Specifier.openers, s.next = some k := by
  obtain ⟨y, ys, hsymbols, hy⟩ := exists_symbols_specifiers hne names
  rw [hsymbols, List.cons_append] at hs
  exact ⟨y.kind, hy, State.next_of_ahead hs⟩

/-- A tag is read as it stands: what follows is neither a body nor an attribute. -/
theorem took_tagSpecifier (word : OneOf tagWords) (w : Name)
    (hs : s.ahead = ((Specifier.tag word w).tree).symbols names ++ rest)
    (hrest : ∀ s' : State, s'.ahead = rest →
      ∃ k ∈ Specifier.openers ++ specifierEnds, s'.next = some k) :
    Took names [(Specifier.tag word w).tree] s (tagSpecifier.after s) := by
  have hs : s.ahead = .ofToken names (tagToken word.1) :: .ofToken names (nameToken w) :: rest := hs
  obtain ⟨hsolid, hkind⟩ := tag_token word.2
  have hword : Took names [.token (tagToken word.1)] s.opened (s.opened.act .bump) :=
    .bump hs hsolid.significant
  have hs₁ := State.ahead_bump_of_ahead (s := s.opened) hs
  obtain ⟨k, hk, hnext⟩ := hrest _ (State.ahead_bump_of_ahead hs₁)
  have hne {k' : TokenKind} (hk' : k' ∉ Specifier.openers ++ specifierEnds) :
      ((s.opened.act .bump).act .bump).next ≠ some k' := by
    rw [hnext]
    rintro ⟨⟩
    exact hk' hk
  rw [after_tagSpecifier rfl rfl (State.next_of_ahead hs) hkind (next_of_kind hs₁ rfl)
    (hne (by decide)) (hne (by decide)) (hne (by decide))]
  exact ((hword.snoc hs₁ rfl).gather rfl .tagSpecifier).joined

/-- A specifier is read as it stands, and reading goes on with the specifiers that follow. -/
theorem read_specifierList_cons (spec : Specifier) (isTypedef hasType : Bool)
    (hs : s.ahead = spec.tree.symbols names ++ rest)
    (hrest : ∀ s' : State, s'.ahead = rest →
      ∃ k ∈ Specifier.openers ++ specifierEnds, s'.next = some k) :
    ∃ s', Took names [spec.tree] s s' ∧ (specifierList isTypedef hasType).read s =
      (specifierList isTypedef (hasType || spec.isType)).read s' := by
  cases spec with
  | typeWord w =>
    have hs : s.ahead = .ofToken names (typeToken w.1) :: rest := hs
    have hsense : s.view.senseAt 0 = .typeWord := by
      simpa [View.senseAt, hs, Symbol.ofToken] using (typeWord_token w.2).2.2
    refine ⟨s.act .bump, .bump hs rfl, ?_⟩
    rw [read_specifierList_word (next_of_kind hs rfl), hsense]
    rfl
  | qualifier w =>
    have hs : s.ahead = .ofToken names (qualifierToken w.1) :: rest := hs
    have hsense : s.view.senseAt 0 ≠ .typeWord := by
      simpa [View.senseAt, hs, Symbol.ofToken] using (qualifier_token w.2).2
    refine ⟨s.act .bump, .bump hs rfl, ?_⟩
    rw [read_specifierList_word (next_of_kind hs rfl), decide_eq_false hsense]
    rfl
  | tag word w =>
    have hnext : s.next = some (tagToken word.1).kind := State.next_of_ahead hs
    refine ⟨tagSpecifier.after s, took_tagSpecifier word w hs hrest, ?_⟩
    rw [read_specifierList_tag hnext (tag_token word.2).2, Specifier.isType, Bool.or_true]

/-- Specifiers are read as they stand. Once a type was given a name ends them. -/
theorem read_specifierList_all (specs : List Specifier) (isTypedef hasType : Bool)
    (htype : (hasType || specs.any (·.isType)) = true)
    (hs : s.ahead = Tree.symbolsAll names (specs.map (·.tree)) ++ rest)
    (hrest : ∀ s' : State, s'.ahead = rest → ∃ k ∈ specifierEnds, s'.next = some k) :
    ((specifierList isTypedef hasType).read s).1 = isTypedef ∧
      Took names (specs.map (·.tree)) s ((specifierList isTypedef hasType).after s) := by
  induction specs generalizing s hasType with
  | nil =>
    obtain ⟨k, hk, hnext⟩ := hrest s hs
    obtain rfl : hasType = true := by simpa using htype
    rw [after, read_specifierList_end hnext hk]
    exact ⟨rfl, .refl s⟩
  | cons spec specs ih =>
    rw [List.map_cons, Tree.symbolsAll_cons, List.append_assoc] at hs
    obtain ⟨s₁, hfirst, hread⟩ := read_specifierList_cons spec isTypedef hasType hs fun s' hs' => by
      cases specs with
      | nil =>
        obtain ⟨k, hk, hnext⟩ := hrest s' hs'
        exact ⟨k, List.mem_append_right _ hk, hnext⟩
      | cons spec' specs =>
        obtain ⟨k, hk, hnext⟩ := next_of_specifiers (List.cons_ne_nil spec' specs) hs'
        exact ⟨k, List.mem_append_left _ hk, hnext⟩
    rw [List.any_cons, ← Bool.or_assoc] at htype
    obtain ⟨hresult, htook⟩ := ih _ htype (hfirst.ahead_eq hs)
    rw [after, hread]
    exact ⟨hresult, hfirst.trans htook⟩

theorem read_specifiersTree (specs : List Specifier) (htype : specs.any (·.isType) = true)
    (hs : s.ahead = Tree.symbolsAll names (specs.map (·.tree)) ++ rest)
    (hrest : ∀ s' : State, s'.ahead = rest → ∃ k ∈ specifierEnds, s'.next = some k) :
    (specifiers.read s).1 = false ∧ Took names [specifiersTree specs] s (specifiers.after s) := by
  obtain ⟨hresult, htook⟩ := read_specifierList_all (s := s.opened) specs false false htype hs hrest
  rw [after, read_specifiers]
  exact ⟨hresult, (htook.gather rfl .specifiers).joined⟩

/-! ### Parameters -/

/-- From `s` to `s'` some trees were built, and besides the names of the innermost scope, none of
which means a type, nothing was declared. -/
structure Listed (names : List Text) (ts : List Tree) (s s' : State) : Prop
    extends Built names ts s s' where
  scopes : s'.scopes.tail = s.scopes.tail
  plain : s'.Plain

namespace Listed

variable {ts us : List Tree} {s'' : State}

theorem trans (h : Listed names ts s s') (h' : Listed names us s' s'') :
    Listed names (ts ++ us) s s'' :=
  ⟨h.toBuilt.trans h'.toBuilt, h'.scopes.trans h.scopes, h'.plain⟩

theorem ofTook (h : Took names ts s s') (hs : s.Plain) : Listed names ts s s' :=
  ⟨h.toBuilt, by rw [h.scopes], hs.took h⟩

theorem declaring (h : Listed names ts s s') (n : Option Nat) :
    Listed names ts s (s'.declaring n false) where
  toBuilt := h.toBuilt.declaring n false
  scopes := by
    rw [← h.scopes]
    unfold State.declaring State.act
    cases n with
    | none => rfl
    | some n => cases hscopes : s'.scopes <;> simp [hscopes]
  plain := h.plain.declaring n

theorem gather (h : Listed names ts s s') (hs : s.shapes = []) (k : NodeKind) :
    Listed names [.node k ts] s (s'.act (.gather k)) :=
  ⟨h.toBuilt.gather hs k, h.scopes, h.plain⟩

theorem joined (h : Listed names ts s.opened s') : Listed names ts s (s'.joined s) :=
  ⟨h.toBuilt.joined, h.scopes, h.plain⟩

/-- What a list declares is forgotten at its end. -/
theorem closed {ns : Names} (h : Listed names ts (s.entered ns) s') : Took names ts s s'.closed :=
  ⟨⟨h.ahead, h.faults, h.shapes⟩, h.scopes⟩

end Listed

theorem symbols_paramTree (specs : List Specifier) (d : Declarator) :
    (paramTree specs d.isEmpty (d.parts f)).symbols names =
      Tree.symbolsAll names (specs.map (·.tree)) ++ Tree.symbolsAll names (d.parts f) := by
  unfold paramTree
  split
  · next hempty => simp [specifiersTree, parts_of_isEmpty f hempty]
  · simp [specifiersTree]

/-- Specifiers end before a declarator and before what follows it. -/
theorem exists_specifierEnd {t : Token} (ht : t.kind = .comma ∨ t.kind = .closeParen)
    (hs : s.ahead = Tree.symbolsAll names (d.parts f) ++ .ofToken names t :: rest) :
    ∃ k ∈ specifierEnds, s.next = some k := by
  cases hempty : d.isEmpty with
  | true =>
    rw [parts_of_isEmpty f hempty] at hs
    refine ⟨t.kind, ?_, next_of_kind hs rfl⟩
    obtain ht | ht := ht <;> rw [ht] <;> decide
  | false =>
    obtain ⟨k, hk, hnext⟩ := next_of_parts hempty hs
    have hall : ∀ k ∈ openers, k ∈ specifierEnds := by decide
    exact ⟨k, hall k hk, hnext⟩

/-- A parameter is read as it stands, up to the comma or the parenthesis behind it. -/
theorem listed_param (h : LevelReads names f d) (type : ParameterType) {t : Token}
    (ht : t.kind = .comma ∨ t.kind = .closeParen) (hplain : s.Plain)
    (hs : s.ahead = (paramTree type.1 d.isEmpty (d.parts f)).symbols names ++
      .ofToken names t :: rest) :
    Listed names [paramTree type.1 d.isEmpty (d.parts f)] s (param.after s) := by
  rw [symbols_paramTree, List.append_assoc] at hs
  have hspecifiers := (read_specifiersTree (s := s.opened) type.1 type.2 hs
    fun s' hs' => exists_specifierEnd ht hs').2
  have hs₁ : (specifiers.after s.opened).ahead =
      Tree.symbolsAll names (d.parts f) ++ .ofToken names t :: rest :=
    hspecifiers.ahead_eq hs
  unfold paramTree
  split
  · next hempty =>
    rw [parts_of_isEmpty f hempty] at hs₁
    rw [after_param (next_of_kind hs₁ rfl) ht]
    exact .ofTook (hspecifiers.gather rfl .param).joined hplain
  · next hempty =>
    have hends : EndsDeclarator (.ofToken names t :: rest) := by
      refine endsDeclarator_of_kind ?_ rest
      obtain ht | ht := ht <;> rw [ht] <;> decide
    have hdeclarator := h.took (hplain.opened.took hspecifiers) hs₁ hends
    -- the declarator starts with neither of the two
    obtain ⟨k, hk, hnext⟩ := next_of_parts (Bool.eq_false_iff.2 hempty) hs₁
    have hcomma : k ≠ .comma := fun hkind => absurd (hkind ▸ hk) (by decide)
    have hclose : k ≠ .closeParen := fun hkind => absurd (hkind ▸ hk) (by decide)
    rw [after_param_declarator rfl hnext hcomma hclose]
    have hlisted : Listed names _ s.opened _ :=
      .ofTook (hspecifiers.trans hdeclarator) hplain.opened
    exact ((hlisted.declaring _).gather rfl .param).joined

/-- Parameters are read as they stand, up to the closing parenthesis. -/
def ParametersRead (names : List Text) (f : Expr → Tree) (ps : Parameters) : Prop :=
  ∀ s rest, s.Plain → s.ahead = Tree.symbolsAll names (ps.trees f) ++
    .ofToken names (mark ")") :: rest → Listed names (ps.trees f) s (params.after s)

theorem parametersRead_nil : ParametersRead names f .nil := by
  intro s rest hplain hs
  rw [after_params_of_close (next_of_kind hs rfl)]
  exact .ofTook (.refl s) hplain

theorem parametersRead_ellipsis : ParametersRead names f .ellipsis := by
  intro s rest hplain hs
  have hs : s.ahead = .ofToken names (mark "...") :: .ofToken names (mark ")") :: rest := hs
  have hone : s.view.kindAt 1 ≠ some .comma := by
    rw [State.kindAt_one_of_ahead hs]
    intro hcomma
    have hkind : (mark ")").kind = .comma := Option.some.inj hcomma
    exact absurd hkind (by decide)
  rw [after_params_ellipsis (next_of_kind hs rfl) hone]
  exact .ofTook (.bump hs rfl) hplain

/-- The symbols of a parameter: it starts with its type. -/
theorem exists_symbols_paramTree (f : Expr → Tree) (type : ParameterType) (d : Declarator)
    (names : List Text) : ∃ y ys, (paramTree type.1 d.isEmpty (d.parts f)).symbols names = y :: ys ∧
      y.kind ∈ Specifier.openers := by
  have hne : type.1 ≠ [] := by
    intro hnil
    have htype := type.2
    rw [hnil] at htype
    cases htype
  obtain ⟨y, ys, hsymbols, hy⟩ := exists_symbols_specifiers hne names
  refine ⟨y, ys ++ Tree.symbolsAll names (d.parts f), ?_, hy⟩
  rw [symbols_paramTree, hsymbols, List.cons_append]

theorem parametersRead_cons (type : ParameterType) {ps : Parameters} (h : LevelReads names f d)
    (hrest : ParametersRead names f ps) : ParametersRead names f (.cons type d ps) := by
  intro s rest hplain hs
  obtain ⟨y, ys, hsymbols, hy⟩ := exists_symbols_paramTree f type d names
  have hnext {rest : List Symbol}
      (hs : s.ahead = (paramTree type.1 d.isEmpty (d.parts f)).symbols names ++ rest) :
      s.next = some y.kind := by
    rw [hsymbols] at hs
    exact State.next_of_ahead hs
  have hclose : y.kind ≠ .closeParen := fun hkind => absurd (hkind ▸ hy) (by decide)
  have hellipsis : y.kind ≠ .ellipsis := fun hkind => absurd (hkind ▸ hy) (by decide)
  have hlength {s' : State}
      (h : Listed names [paramTree type.1 d.isEmpty (d.parts f)] s s') :
      s'.ahead.length ≠ s.ahead.length := by
    refine h.length_ne ?_
    simp [hsymbols]
  rw [Parameters.trees] at hs ⊢
  split at hs
  · next hnil =>
    have hs : s.ahead = (paramTree type.1 d.isEmpty (d.parts f)).symbols names ++
        .ofToken names (mark ")") :: rest := by
      simpa using hs
    have hparam := listed_param h type (.inr rfl) hplain hs
    have hs₁ := hparam.ahead_eq hs
    rw [if_pos hnil, after_params (hnext hs) hclose hellipsis (hlength hparam)
      (by rw [next_of_kind hs₁ rfl]; decide)]
    exact hparam
  · next hnil =>
    have hs : s.ahead = (paramTree type.1 d.isEmpty (d.parts f)).symbols names ++
        .ofToken names (mark ",") :: (Tree.symbolsAll names (ps.trees f) ++
          .ofToken names (mark ")") :: rest) := by
      simpa using hs
    have hparam := listed_param h type (.inl rfl) hplain hs
    have hs₁ := hparam.ahead_eq hs
    have hcomma : Listed names [.token (mark ",")] _ _ := .ofTook (.bump hs₁ rfl) hparam.plain
    have hmore := hrest _ _ hcomma.plain (State.ahead_bump_of_ahead hs₁)
    rw [if_neg hnil, after_params_of_comma (hnext hs) hclose hellipsis (hlength hparam)
      (next_of_kind hs₁ rfl)]
    exact hparam.trans (hcomma.trans hmore)

theorem suffixReads_function {ps : Parameters} (h : ParametersRead names f ps) :
    SuffixReads names f (.function ps) := by
  intro s rest hplain hs
  have hs : s.ahead = .ofToken names (mark "(") :: (Tree.symbolsAll names (ps.trees f) ++
      .ofToken names (mark ")") :: rest) := by
    simpa [Suffix.tree] using hs
  have hopen : Took names [.token (mark "(")] s.opened (s.opened.act .bump) := .bump hs rfl
  have hs₁ := State.ahead_bump_of_ahead (s := s.opened) hs
  have hparams := h ((s.opened.act .bump).entered []) rest (hplain.opened.took hopen).entered hs₁
  have hs₂ := hparams.ahead_eq_of_append hs₁
  refine ⟨paramList.after s, ?_, fun isFirst known =>
    ⟨_, congrArg Prod.snd (read_suffixes_params (next_of_kind hs rfl))⟩⟩
  rw [after, read_paramList rfl (next_of_kind hs rfl) (next_of_kind hs₂ rfl)]
  exact (((hopen.trans hparams.closed).snoc hs₂ rfl).gather rfl .paramList).joined

/-- No parameter list starts as a declarator in parentheses does. -/
theorem opensDeclarator_of_params (ps : Parameters)
    (hs : s.ahead = ((Suffix.function ps).tree f).symbols names ++ rest) :
    s.view.opensDeclarator = false := by
  have hs : s.ahead = .ofToken names (mark "(") :: (Tree.symbolsAll names (ps.trees f) ++
      .ofToken names (mark ")") :: rest) := by
    simpa [Suffix.tree] using hs
  have hopens {k : TokenKind} (hk : k ∈ .closeParen :: .ellipsis :: Specifier.openers)
      (hkind : s.view.kindAt 1 = some k) : s.view.opensDeclarator = false := by
    unfold View.opensDeclarator
    rw [hkind]
    simp only [Specifier.openers, tagOpeners, List.mem_cons, List.not_mem_nil, or_false] at hk
    rcases hk with rfl | rfl | rfl | rfl | rfl | rfl <;> rfl
  cases ps with
  | nil => exact hopens List.mem_cons_self (State.kindAt_one_of_ahead hs)
  | ellipsis =>
    exact hopens (List.mem_cons_of_mem _ List.mem_cons_self) (State.kindAt_one_of_ahead hs)
  | cons type d ps =>
    obtain ⟨y, ys, hsymbols, hy⟩ := exists_symbols_paramTree f type d names
    rw [Parameters.trees, Tree.symbolsAll_cons, hsymbols] at hs
    exact hopens (List.mem_cons_of_mem _ (List.mem_cons_of_mem _ hy))
      (State.kindAt_one_of_ahead hs)

/-- A suffix cannot be taken for the core of a declarator. -/
theorem coreless_suffix (suffix : Suffix) (rest : List Symbol) :
    Coreless ((suffix.tree f).symbols names ++ rest) := by
  intro s hs
  cases suffix with
  | array size =>
    have hnext : s.next = some .openBracket := State.next_of_ahead hs
    simp [hnext]
  | function ps =>
    have hnext : s.next = some .openParen := State.next_of_ahead hs
    exact ⟨by simp [hnext], fun _ => opensDeclarator_of_params ps hs⟩

/-! ### All declarators -/

/-- A declarator is read as it stands, with what stands before and behind it. -/
structure Reads (names : List Text) (f : Expr → Tree) (d : Declarator) : Prop where
  core : d.isPointer = false → CoreReads names f d
  level : LevelReads names f d

namespace Reads

theorem ofCore (h : CoreReads names f d) (hpointer : d.isPointer = false) : Reads names f d :=
  ⟨fun _ => h, h.level hpointer⟩

theorem parens (h : Reads names f d) : Reads names f (.parens d) :=
  .ofCore h.level.coreReads_parens rfl

theorem pointer (h : Reads names f d) (qualifiers : List (OneOf Token.qualifiers)) :
    Reads names f (.pointer qualifiers d) :=
  ⟨nofun, h.level.pointer qualifiers⟩

theorem suffixed {suffix : Suffix} (h : Reads names f d) (hsuffix : SuffixReads names f suffix) :
    Reads names f (.suffixed d suffix) := by
  have htight : CoreReads names f d.tight := by
    unfold tight
    split
    · exact h.level.coreReads_parens
    · next hpointer => exact h.core (Bool.eq_false_iff.2 hpointer)
  exact .ofCore (htight.suffixed hsuffix (coreless_suffix suffix)) rfl

end Reads

end Grammar

open Grammar

mutual

/-- **Every declarator is read as it stands.** -/
theorem Declarator.reads {f : Expr → Tree} (hf : ∀ e, (f e).StandsAt 2) (names : List Text)
    (d : Declarator) : Reads names f d := by
  cases d with
  | name w => exact .ofCore (coreReads_name w) rfl
  | empty => exact .ofCore (coreReads_of_isEmpty rfl) rfl
  | parens d => exact (Declarator.reads hf names d).parens
  | pointer qualifiers d => exact (Declarator.reads hf names d).pointer qualifiers
  | suffixed d suffix =>
    exact (Declarator.reads hf names d).suffixed (Suffix.reads hf names suffix)

theorem Suffix.reads {f : Expr → Tree} (hf : ∀ e, (f e).StandsAt 2) (names : List Text)
    (suffix : Suffix) : SuffixReads names f suffix := by
  cases suffix with
  | array size => exact suffixReads_array hf size
  | function ps => exact suffixReads_function (Parameters.reads hf names ps)

theorem Parameters.reads {f : Expr → Tree} (hf : ∀ e, (f e).StandsAt 2) (names : List Text)
    (ps : Parameters) : ParametersRead names f ps := by
  cases ps with
  | nil => exact parametersRead_nil
  | ellipsis => exact parametersRead_ellipsis
  | cons type d ps =>
    exact parametersRead_cons type (Declarator.reads hf names d).level
      (Parameters.reads hf names ps)

end

end Whittle
