import Whittle.Proofs.Declaration.Layout
import Whittle.Proofs.Declaration.Name
import Whittle.Proofs.Declarator.Basic

/-!
# What declarators declare

The placed tree of a declarator is asked what it declares. It declares its name, and the name is
derived into what the first step makes of it, whatever steps follow and however many parentheses
stand in between.

* `Placed.derivation?_stars`, `Placed.derivation?_suffix`, `Placed.derivation?_nested`: what each
  step adds to a derivation.
* `Declarator.derives`: **a declarator derives its name into what the first step does.**
* `Declarator.declares`: **a declarator declares its name.**
-/

namespace Whittle

open Expr

/-! ### Parts of declarators -/

theorem Tree.isInner_placeAll_tokens (start : Nat) (ts : List Token) :
    ∀ c ∈ placeAll start (ts.map .token), c.isInner = false := by
  induction ts generalizing start with
  | nil => simp [placeAll]
  | cons t ts ih =>
    rw [List.map_cons, placeAll]
    exact List.forall_mem_cons.2 ⟨rfl, ih _⟩

namespace Placed

variable {start start' : Nat} {k k' : NodeKind} {l r cs cs' : List Placed}

theorem nestedLevels_append_right (h : ∀ c ∈ r, c.isNode .nestedDeclarator = false) :
    nestedLevels (l ++ r) = nestedLevels l := by
  induction l with
  | nil =>
    have hnone := nestedLevels_append (r := []) h
    simpa [nestedLevels] using hnone
  | cons c l ih =>
    cases hc : c.isNode .nestedDeclarator with
    | false =>
      have hskip (r : List Placed) : nestedLevels (c :: r) = nestedLevels r :=
        nestedLevels_append (l := [c]) (by simpa using hc)
      rw [List.cons_append, hskip, hskip, ih]
    | true =>
      obtain ⟨start, inner, rfl⟩ := exists_of_isNode hc
      rfl

/-- What a declarator derives its name into, by its parts. -/
theorem derivation?_node (start : Nat) (k : NodeKind) (cs : List Placed) :
    (node start k cs).derivation? = ((nestedLevels cs).findSome? levelDerivation?).or
      ((cs.findSome? suffix?).or (if cs.any (·.isToken .star) then some .pointer else none)) := by
  rw [derivation?, declaratorLevels, List.findSome?_append]
  simp [levelDerivation?, hasToken, children]

theorem suffix?_of_not_isInner {c : Placed} (h : c.isInner = false) : c.suffix? = none := by
  cases c with
  | token start t => rfl
  | node start kind children => cases h

/-- Stars derive a name after all else on their level. -/
theorem derivation?_stars (hl : ∀ c ∈ l, c.isInner = false)
    (hstar : l.any (·.isToken .star) = true) :
    (node start k (l ++ cs)).derivation? = (node start' k' cs).derivation?.or (some .pointer) := by
  have hnested : nestedLevels (l ++ cs) = nestedLevels cs :=
    nestedLevels_append fun c hc => not_isNode_of_not_isInner _ (hl c hc)
  have hsuffix : l.findSome? suffix? = none :=
    List.findSome?_eq_none_iff.2 fun c hc => suffix?_of_not_isInner (hl c hc)
  rw [derivation?_node, derivation?_node, hnested, List.findSome?_append, hsuffix, List.any_append,
    hstar, Option.none_or, Bool.true_or, if_pos rfl]
  cases (nestedLevels cs).findSome? levelDerivation? with
  | some e => rfl
  | none =>
    cases cs.findSome? suffix? with
    | some e => rfl
    | none => cases cs.any (·.isToken .star) <;> rfl

theorem isNode_of_suffix? {c : Placed} {e : Derivation} (h : c.suffix? = some e) :
    c.isNode .paramList = true ∨ c.isNode .arraySuffix = true := by
  unfold suffix? at h
  split at h
  · exact .inl rfl
  · exact .inr rfl
  · cases h

/-- A suffix derives a name after all that stands before it, unless stars do. -/
theorem derivation?_suffix {c : Placed} {e : Derivation} (hc : c.suffix? = some e)
    (hcs : cs.any (·.isToken .star) = false) :
    (node start k (cs ++ [c])).derivation? = (node start' k' cs).derivation?.or (some e) := by
  have hkind : c.isNode .nestedDeclarator = false := by
    obtain h | h := isNode_of_suffix? hc <;> simp_all [isNode]
  have hnested : nestedLevels (cs ++ [c]) = nestedLevels cs :=
    nestedLevels_append_right (by simpa using hkind)
  rw [derivation?_node, derivation?_node, hnested, List.findSome?_append, hcs]
  cases (nestedLevels cs).findSome? levelDerivation? with
  | some e => rfl
  | none => cases cs.findSome? suffix? <;> simp [hc]

/-- Parentheses derive what is derived within them. -/
theorem derivation?_nested {o c : Placed} {d : Placed} (ho : o.isNode .declarator = false)
    (hd : d.isNode .declarator = true) :
    (node start k [node start' .nestedDeclarator [o, d, c]]).derivation? = d.derivation? := by
  have hinner : innerLevels [o, d, c] = d.declaratorLevels :=
    innerLevels_append (l := [o]) (by simpa using ho) hd
  rw [derivation?_node, nestedLevels, hinner]
  simp [derivation?, suffix?, isToken, Placed.kind]

theorem declaredName?_congr (hnested : nestedLevels cs = nestedLevels cs')
    (hname : cs.find? (·.isNode .name) = cs'.find? (·.isNode .name)) :
    (node start k cs).declaredName? = (node start' k' cs').declaredName? := by
  unfold declaredName? declaratorLevels
  rw [hnested]
  cases nestedLevels cs' with
  | nil => simp [child?, children, hname]
  | cons level levels => rfl

theorem declaredName?_stars (hl : ∀ c ∈ l, c.isInner = false) :
    (node start k (l ++ cs)).declaredName? = (node start' k' cs).declaredName? := by
  refine declaredName?_congr ?_ ?_
  · exact nestedLevels_append fun c hc => not_isNode_of_not_isInner _ (hl c hc)
  · have hnone : l.find? (·.isNode .name) = none := by
      refine List.find?_eq_none.2 fun c hc => ?_
      simp [not_isNode_of_not_isInner _ (hl c hc)]
    rw [List.find?_append, hnone, Option.none_or]

theorem declaredName?_suffix {c : Placed} {e : Derivation} (hc : c.suffix? = some e) :
    (node start k (cs ++ [c])).declaredName? = (node start' k' cs).declaredName? := by
  have hkind : c.isNode .nestedDeclarator = false ∧ c.isNode .name = false := by
    obtain h | h := isNode_of_suffix? hc <;> simp_all [isNode]
  refine declaredName?_congr (nestedLevels_append_right (by simpa using hkind.1)) ?_
  rw [List.find?_append]
  simp [hkind.2]

end Placed

/-! ### What is derived first -/

theorem sizeAll_of_parts {xs us : List Tree} {ws : List Text} (h : Parts xs ws us) :
    Tree.sizeAll xs = Text.size ws.flatten := by
  rw [Tree.sizeAll_eq, Token.concat, List.flatMap_def, h.words]

/-- What a step derives, with its suffix at a byte. -/
def Step.derivation? (f : Expr → Tree) (start : Nat) : Step → Option Derivation
  | .parens => none
  | .pointer _ => some .pointer
  | .suffix (.array _) => some .array
  | .suffix (.function ps) => some (.function (((Suffix.function ps).tree f).place start))

theorem suffix?_tree (f : Expr → Tree) (start : Nat) (suffix : Suffix) :
    ((suffix.tree f).place start).suffix? = (Step.suffix suffix).derivation? f start := by
  cases suffix <;> rfl

namespace Declarator

variable {f : Expr → Tree} {d : Declarator}

theorem lead_of_first? (h : d.first? = none) : d.lead = d.words := by
  cases d with
  | name w => rfl
  | empty => rfl
  | parens d => rw [lead, if_pos (by simpa [first?] using h)]
  | pointer qualifiers d => simp [first?] at h
  | suffixed d suffix => simp [first?] at h

theorem lead_tight (d : Declarator) (suffix : Suffix) :
    (suffixed d suffix).lead = d.tight.lead := by
  rw [lead, tight]
  split
  · next hpointer =>
    -- stars derive something
    have hfirst : d.first? ≠ none := by
      cases d with
      | pointer qualifiers d => simp [first?]
      | name _ | empty | parens _ | suffixed _ _ => cases hpointer
    rw [lead, if_neg (by simpa using hfirst)]
  · rfl

theorem first?_of_isEmpty (h : d.isEmpty = true) : d.first? = none := by
  induction d with
  | name _ => cases h
  | empty => rfl
  | parens d ih => exact ih h
  | pointer _ _ _ => cases h
  | suffixed _ _ _ => cases h

/-- Parentheses are no derivation. -/
theorem isSome_derivation? (f : Expr → Tree) (start : Nat) (d : Declarator) :
    ∀ step ∈ d.first?, (step.derivation? f start).isSome = true := by
  have hnext {first : Option Step} {last : Step}
      (hfirst : ∀ step ∈ first, (step.derivation? f start).isSome = true)
      (hlast : (last.derivation? f start).isSome = true) :
      ∀ step ∈ first.or (some last), (step.derivation? f start).isSome = true := by
    cases first with
    | none => simpa using hlast
    | some first => exact hfirst
  induction d with
  | name _ => simp [first?]
  | empty => simp [first?]
  | parens d ih => exact ih
  | pointer qualifiers d ih => exact hnext ih rfl
  | suffixed d suffix ih => exact hnext ih (by cases suffix <;> rfl)

/-- One more step derives something only if none did before. -/
theorem bind_first?_or (f : Expr → Tree) (start : Nat) (d : Declarator) (step : Step) :
    (d.first?.or (some step)).bind (·.derivation? f start) =
      (d.first?.bind (·.derivation? f start)).or (step.derivation? f start) := by
  have hsome := isSome_derivation? f start d
  cases hfirst : d.first? with
  | none => rfl
  | some first =>
    obtain ⟨e, he⟩ := Option.isSome_iff_exists.1 (hsome first hfirst)
    simp [he]

/-- Whether the placed tree of a declarator derives what the first step does, with the suffix of
that step where the lead of the declarator ends. -/
def Derives (f : Expr → Tree) (d : Declarator) : Prop := ∀ start,
  (Placed.node start .declarator (Tree.placeAll start (d.parts f))).derivation? =
    d.first?.bind (·.derivation? f (start + Text.size d.lead.flatten))

theorem Derives.parens (h : Derives f d) : Derives f (.parens d) := by
  intro start
  cases hempty : d.isEmpty with
  | true =>
    have hnil : (Declarator.parens d).parts f = [] := parts_of_isEmpty f hempty
    have hfirst : (Declarator.parens d).first? = none := first?_of_isEmpty (d := .parens d) hempty
    rw [hnil, hfirst]
    rfl
  | false =>
    have hinner := h (start + Text.size "(".toList)
    have hfirst : (Declarator.parens d).first? = d.first? := rfl
    rw [parts_parens f hempty, hfirst]
    refine (Placed.derivation?_nested rfl rfl).trans (hinner.trans ?_)
    cases hfirst : d.first? with
    | none => rfl
    | some step =>
      have hlead : (Declarator.parens d).lead = "(".toList :: d.lead := by
        rw [lead, hfirst]
        rfl
      rw [hlead, List.flatten_cons, Text.size_append, Nat.add_assoc]

theorem Derives.pointer (h : Derives f d) (qualifiers : List (OneOf Token.qualifiers)) :
    Derives f (.pointer qualifiers d) := by
  intro start
  let ts := starTokens qualifiers
  have hlead : (Declarator.pointer qualifiers d).lead = ts.map (·.text) ++ d.lead := by
    simp [lead, ts, starTokens, mark, qualifierToken]
  have hsize : Tree.sizeAll (ts.map .token) = Text.size (ts.map (·.text)).flatten := by
    rw [Tree.sizeAll_eq, Tree.leavesAll_map_token, Token.concat, List.flatMap_def]
  rw [parts_pointer, Tree.placeAll_append, hlead, List.flatten_append, Text.size_append, ← Nat.add_assoc,
    ← hsize, Placed.derivation?_stars (Tree.isInner_placeAll_tokens start ts) rfl, h]
  exact (bind_first?_or f _ d (.pointer qualifiers)).symm

/-- Without stars in front no star is a part of a declarator. -/
theorem any_star_parts (hpointer : d.isPointer = false) (start : Nat) :
    (Tree.placeAll start (d.parts f)).any (·.isToken .star) = false := by
  have hsuffix (suffix : Suffix) (start : Nat) :
      ((suffix.tree f).place start).isToken .star = false := by
    cases suffix <;> rfl
  have hnested (xs : List Tree) (start : Nat) :
      ((nestedTree xs).place start).isToken .star = false := rfl
  induction d with
  | name w => rfl
  | empty => rfl
  | parens d _ =>
    rw [parts]
    split <;> rfl
  | pointer qualifiers d _ => cases hpointer
  | suffixed d suffix ih =>
    rw [parts, Tree.placeAll_append, List.any_append]
    split
    · simp [Tree.placeAll, hnested, hsuffix]
    · next hpointer =>
      rw [ih (Bool.eq_false_iff.2 hpointer)]
      simp [Tree.placeAll, hsuffix]

theorem Derives.suffixed (h : Derives f d.tight) (hf : WritesSizes f) (suffix : Suffix) :
    Derives f (.suffixed d suffix) := by
  intro start
  let stop := start + Tree.sizeAll (d.tight.parts f)
  obtain ⟨e, he⟩ : ∃ e, (Step.suffix suffix).derivation? f stop = some e := by
    cases suffix <;> exact ⟨_, rfl⟩
  have hsuffix := (suffix?_tree f stop suffix).trans he
  have hstar := any_star_parts (f := f) (isPointer_tight d) start
  rw [parts_suffixed, Tree.placeAll_append, lead_tight, first?, ← first?_tight, bind_first?_or]
  refine ((Placed.derivation?_suffix hsuffix hstar).trans
    (congrArg (·.or (some e)) (h start))).trans ?_
  cases hfirst : d.tight.first? with
  | none =>
    -- the suffix stands behind all words of the rest
    obtain ⟨us, hus⟩ := d.tight.exists_parts hf
    rw [lead_of_first? hfirst, ← sizeAll_of_parts hus, he]
  | some step =>
    obtain ⟨e', he'⟩ := Option.isSome_iff_exists.1
      (isSome_derivation? f (start + Text.size d.tight.lead.flatten) d.tight step hfirst)
    simp [he']

/-- **A declarator derives its name into what the first step does.** -/
theorem derives (hf : WritesSizes f) (d : Declarator) : Derives f d := by
  induction d using tightInduction with
  | name w => exact fun start => rfl
  | empty => exact fun start => rfl
  | parens d ih => exact ih.parens
  | pointer qualifiers d ih => exact ih.pointer qualifiers
  | suffixed d suffix ih => exact ih.suffixed hf suffix

/-! ### What is declared -/

theorem name?_of_isEmpty (h : d.isEmpty = true) : d.name? = none := by
  induction d with
  | name _ => cases h
  | empty => rfl
  | parens d ih => exact ih h
  | pointer _ _ _ => cases h
  | suffixed _ _ _ => cases h

/-- Whether the placed tree of a declarator declares its name. -/
def Declares (f : Expr → Tree) (d : Declarator) : Prop := ∀ start,
  (Placed.node start .declarator (Tree.placeAll start (d.parts f))).declaredName?.map Leaf.text =
    d.name?.map (·.1)

theorem Declares.parens (h : Declares f d) : Declares f (.parens d) := by
  intro start
  cases hempty : d.isEmpty with
  | true =>
    have hnil : (Declarator.parens d).parts f = [] := parts_of_isEmpty f hempty
    have hname : (Declarator.parens d).name? = none := name?_of_isEmpty (d := .parens d) hempty
    rw [hnil, hname]
    rfl
  | false =>
    have hname : (Declarator.parens d).name? = d.name? := rfl
    rw [parts_parens f hempty, hname]
    refine Eq.trans ?_ (h (start + Text.size "(".toList))
    have hopen : ∀ c ∈ [Placed.token start (mark "(")], c.isNode .declarator = false := by
      simp [Placed.isNode, Placed.kind]
    exact congrArg (Option.map Leaf.text)
      (Placed.declaredName?_of_nested (l := []) (by simp) hopen rfl)

theorem Declares.pointer (h : Declares f d) (qualifiers : List (OneOf Token.qualifiers)) :
    Declares f (.pointer qualifiers d) := by
  intro start
  let ts := starTokens qualifiers
  have hname : (Declarator.pointer qualifiers d).name? = d.name? := rfl
  rw [parts_pointer, Tree.placeAll_append, hname, ← h (start + Tree.sizeAll (ts.map .token)),
    Placed.declaredName?_stars (Tree.isInner_placeAll_tokens start ts)]

theorem Declares.suffixed (h : Declares f d.tight) (suffix : Suffix) :
    Declares f (.suffixed d suffix) := by
  intro start
  let stop := start + Tree.sizeAll (d.tight.parts f)
  obtain ⟨e, he⟩ : ∃ e, ((suffix.tree f).place stop).suffix? = some e := by
    cases suffix <;> exact ⟨_, rfl⟩
  have hname : (Declarator.suffixed d suffix).name? = d.tight.name? := by
    unfold tight
    split <;> rfl
  rw [parts_suffixed, Tree.placeAll_append, hname, ← h start]
  exact congrArg (Option.map Leaf.text) (Placed.declaredName?_suffix he)

/-- **A declarator declares its name.** -/
theorem declares (f : Expr → Tree) (d : Declarator) : Declares f d := by
  induction d using tightInduction with
  | name w => exact fun start => rfl
  | empty => exact fun start => rfl
  | parens d ih => exact ih.parens
  | pointer qualifiers d ih => exact ih.pointer qualifiers
  | suffixed d suffix ih => exact ih.suffixed suffix

end Declarator

end Whittle
