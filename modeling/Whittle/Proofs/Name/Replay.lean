import Whittle.Proofs.Tree.Sketch

/-!
# Scopes read off a sketch

While it reads, the grammar keeps the names of the open scopes. Here the same scopes are read off
the finished sketch, part by part from left to right.

* `Sketch.declared?`, `Sketch.paramNames`: what a declarator declares, and the names in the
  parameter list that belongs to it.
* `Sketch.entriesAll`: the names that some sketches leave behind in the scope they stand in.
* `Sketch.AgreesAll`: **whether names are used as the scopes say**: a name among specifiers is that
  of a type, and a statement in a block does not begin with the name of a type.
-/

namespace Whittle

open Grammar

namespace Grammar.Names

/-- Whether the latest declaration of a name in the innermost scope that has one is a typedef. -/
def isTypedef (scopes : List Names) (name : Nat) : Bool :=
  (scopes.findSome? (·.find? name)).getD false

/-- Scopes after more names were declared in the innermost one. -/
def bring (ns : Names) : List Names → List Names
  | [] => []
  | top :: below => (ns ++ top) :: below

@[simp] theorem bring_nil (scopes : List Names) : bring [] scopes = scopes := by
  cases scopes <;> rfl

theorem bring_bring (ns ms : Names) (scopes : List Names) :
    bring ns (bring ms scopes) = bring (ns ++ ms) scopes := by
  cases scopes with
  | nil => rfl
  | cons top below => simp [bring]

end Grammar.Names

open Names

/-! ### Declarators -/

namespace Sketch

mutual

/-- The levels of a declarator, each by its parts, the innermost first. -/
def levels : Sketch → List (List Sketch)
  | .leaf _ => []
  | .node _ parts => nestedLevels parts ++ [parts]

/-- The levels within the first parentheses among some parts. -/
def nestedLevels : List Sketch → List (List Sketch)
  | [] => []
  | .node .nestedDeclarator inner :: _ => innerLevels inner
  | _ :: xs => nestedLevels xs

/-- The levels of the first declarator among some parts. -/
def innerLevels : List Sketch → List (List Sketch)
  | [] => []
  | x :: xs => if x.isNode .declarator then x.levels else innerLevels xs

end

/-- The number of the name that stands among some parts. -/
def nameOf? (parts : List Sketch) : Option Nat :=
  ((parts.find? (·.isNode .name)).bind (·.symbols.head?)).map (·.name)

/-- Whether a part of a level is an array size or a parameter list. -/
def isSuffix (x : Sketch) : Bool := x.isNode .paramList || x.isNode .arraySuffix

/-- What stands in the parameter list that comes first among the suffixes of a level. -/
def firstParams? (level : List Sketch) : Option (List Sketch) :=
  ((level.find? isSuffix).filter (·.isNode .paramList)).map (·.parts)

/-- The number of the name that a declarator declares. -/
def declared? (x : Sketch) : Option Nat := x.levels.head?.bind nameOf?

/-- What stands in the parameter list of a declarator: the first suffix of the innermost level whose
first suffix is a parameter list. -/
def ownParams? (x : Sketch) : Option (List Sketch) := x.levels.findSome? firstParams?

section Levels

variable {xs ys zs : List Sketch} {x : Sketch}

theorem levels_node (k : NodeKind) (xs : List Sketch) :
    (node k xs).levels = nestedLevels xs ++ [xs] := by
  rw [levels]

/-- Only parentheses nest levels. -/
theorem nestedLevels_cons_of (h : x.isNode .nestedDeclarator = false) :
    nestedLevels (x :: xs) = nestedLevels xs := by
  cases x with
  | leaf => rw [nestedLevels]; simp
  | node k parts =>
    rw [nestedLevels]
    rintro inner heq
    rw [(Sketch.node.inj heq).1] at h
    exact absurd h (by simp [isNode])

theorem nestedLevels_append_left (h : ∀ x ∈ xs, x.isNode .nestedDeclarator = false)
    (ys : List Sketch) : nestedLevels (xs ++ ys) = nestedLevels ys := by
  induction xs with
  | nil => rfl
  | cons x xs ih =>
    obtain ⟨hx, hxs⟩ := List.forall_mem_cons.1 h
    rw [List.cons_append, nestedLevels_cons_of hx, ih hxs]

theorem nestedLevels_append_right (h : ∀ y ∈ ys, y.isNode .nestedDeclarator = false) :
    nestedLevels (xs ++ ys) = nestedLevels xs := by
  induction xs with
  | nil =>
    have hnone := nestedLevels_append_left h ([])
    simpa [nestedLevels] using hnone
  | cons x xs ih =>
    cases hx : x.isNode .nestedDeclarator with
    | false => rw [List.cons_append, nestedLevels_cons_of hx, nestedLevels_cons_of hx, ih]
    | true =>
      cases x with
      | leaf => cases hx
      | node k parts =>
        obtain rfl : k = .nestedDeclarator := by simpa [isNode] using hx
        rw [List.cons_append, nestedLevels, nestedLevels]

theorem innerLevels_append (h : ∀ x ∈ xs, x.isNode .declarator = false)
    (hx : x.isNode .declarator = true) : innerLevels (xs ++ x :: ys) = x.levels := by
  induction xs with
  | nil => simp [innerLevels, hx]
  | cons y xs ih =>
    obtain ⟨hy, hxs⟩ := List.forall_mem_cons.1 h
    simp [innerLevels, hy, ih hxs]

@[simp] theorem firstParams?_array : firstParams? (node .arraySuffix xs :: ys) = none := rfl

@[simp] theorem firstParams?_params : firstParams? (node .paramList xs :: ys) = some xs := rfl

theorem find?_append_of_forall {p : Sketch → Bool} (h : ∀ x ∈ xs, p x = false)
    (h' : ∀ z ∈ zs, p z = false) : (xs ++ (ys ++ zs)).find? p = ys.find? p := by
  have hxs : xs.find? p = none := List.find?_eq_none.2 fun x hx => by simp [h x hx]
  have hzs : zs.find? p = none := List.find?_eq_none.2 fun z hz => by simp [h' z hz]
  rw [List.find?_append, List.find?_append, hxs, hzs, Option.or_none, Option.none_or]

end Levels

end Sketch

/-! ### Scopes -/

/-- What a node does to the scopes. -/
inductive Role where
  | plain
  /-- Has a scope of its own. -/
  | scope
  /-- Declares the name of its declarator, which is that of a type if its group says so. -/
  | member
  /-- Declares the name of its declarator. -/
  | param
  /-- Declares the name of its declarator, and what follows has a scope that starts with the
  parameters. -/
  | definition
  /-- Declares its name when it ends. -/
  | enumerator
deriving DecidableEq

/-- What nodes of a kind do to the scopes. -/
def NodeKind.role : NodeKind → Role
  | .root | .compoundStmt | .forStmt | .paramList => .scope
  | .initDeclarator => .member
  | .param => .param
  | .functionDef => .definition
  | .enumerator => .enumerator
  | _ => .plain

/-- Where parts stand, as far as it matters for their names. -/
inductive Setting where
  | plain
  | specifiers
  | block
  /-- In a group, whose members are typedefs or not. -/
  | group (isTypedef : Bool)
deriving DecidableEq

/-- Whether the members that stand here are typedefs. -/
def Setting.isTypedef : Setting → Bool
  | .group isTypedef => isTypedef
  | _ => false

/-- Whether the specifiers among some parts hold `typedef`. -/
def Sketch.hasTypedef (parts : List Sketch) : Bool :=
  (parts.find? (·.isNode .specifiers)).any (·.parts.any (·.isSymbol .kwTypedef))

/-- Where the parts of a node stand. -/
def Setting.below (kind : NodeKind) (parts : List Sketch) : Setting :=
  match kind with
  | .specifiers => .specifiers
  | .compoundStmt => .block
  | .declGroup => .group (Sketch.hasTypedef parts)
  | _ => .plain

/-- Whether nodes of a kind have nothing to do with names, and their parts stand nowhere special. -/
def NodeKind.isInert (k : NodeKind) : Bool :=
  match k with
  | .specifiers | .compoundStmt | .declGroup | .name => false
  | k => k.role = .plain

theorem NodeKind.role_of_isInert {k : NodeKind} (h : k.isInert = true) : k.role = .plain := by
  cases k <;> first | rfl | cases h

theorem NodeKind.ne_name_of_isInert {k : NodeKind} (h : k.isInert = true) : k ≠ .name := by
  rintro rfl
  cases h

theorem Setting.below_of_isInert {k : NodeKind} (h : k.isInert = true) (parts : List Sketch) :
    below k parts = .plain := by
  cases k <;> first | rfl | cases h

namespace Sketch

/-- The entry for the name that a declarator declares. -/
def own (isTypedef : Bool) (declarator : Sketch) : Names :=
  (declarator.declared?.map (·, isTypedef)).toList

mutual

/-- The names that a sketch leaves behind in the scope it stands in, the latest first. -/
def entries (setting : Setting) : Sketch → Names
  | .leaf _ => []
  | .node kind parts =>
    match kind.role with
    | .scope => []
    | .member => memberEntries setting.isTypedef parts
    | .param => memberEntries false parts
    | .definition => headEntries parts
    | .enumerator => ((nameOf? parts).map (·, false)).toList ++ entriesAll .plain parts
    | .plain => entriesAll (.below kind parts) parts

/-- The names that some sketches leave behind, the latest first. -/
def entriesAll (setting : Setting) : List Sketch → Names
  | [] => []
  | x :: xs => entriesAll setting xs ++ x.entries setting

/-- The names that the parts of a member leave behind. Its own is declared after its declarator. -/
def memberEntries (isTypedef : Bool) : List Sketch → Names
  | [] => []
  | x :: xs =>
    if x.isNode .declarator then entriesAll .plain xs ++ own isTypedef x ++ x.entries .plain
    else memberEntries isTypedef xs ++ x.entries .plain

/-- The names that the parts of a function definition leave behind, up to its declarator. -/
def headEntries : List Sketch → Names
  | [] => []
  | x :: xs =>
    if x.isNode .declarator then own false x ++ x.entries .plain
    else headEntries xs ++ x.entries .plain

end

/-- Whether a node may begin with a symbol: the name that a declarator holds is an identifier, and a
statement in a block does not begin with the name of a type. -/
structure MayBegin (scopes : List Names) (setting : Setting) (kind : NodeKind) (x : Symbol) :
    Prop where
  name : kind = .name → x.kind = .identifier
  statement : setting = .block → kind = .exprStmt → x.kind = .identifier →
    isTypedef scopes x.name = false

/-- The names in the parameter list of a declarator, if it has one. -/
def paramNames? (declarator : Sketch) : Option Names :=
  declarator.ownParams?.map (entriesAll .plain)

mutual

/-- Whether the names in a sketch are used as the scopes around it say. -/
def Agrees (scopes : List Names) (setting : Setting) : Sketch → Prop
  | .leaf x => setting = .specifiers → x.kind = .identifier → isTypedef scopes x.name = true
  | .node kind parts =>
    (∀ x, (symbolsAll parts).head? = some x → MayBegin scopes setting kind x) ∧
    match kind.role with
    | .scope => AgreesAll ([] :: scopes) (.below kind parts) parts
    | .member => MemberAgrees setting.isTypedef scopes parts
    | .param => MemberAgrees false scopes parts
    | .definition => DefinitionAgrees scopes parts
    | .enumerator | .plain => AgreesAll scopes (.below kind parts) parts

/-- Whether the names in some sketches are used as the scopes around them say. -/
def AgreesAll (scopes : List Names) (setting : Setting) : List Sketch → Prop
  | [] => True
  | x :: xs =>
    x.Agrees scopes setting ∧ AgreesAll (bring (x.entries setting) scopes) setting xs

/-- Whether the names in the parts of a member are used as the scopes around them say. -/
def MemberAgrees (isTypedef : Bool) (scopes : List Names) : List Sketch → Prop
  | [] => True
  | x :: xs =>
    x.Agrees scopes .plain ∧
      if x.isNode .declarator then
        AgreesAll (bring (own isTypedef x ++ x.entries .plain) scopes) .plain xs
      else MemberAgrees isTypedef (bring (x.entries .plain) scopes) xs

/-- Whether the names in the parts of a function definition are used as the scopes around them
say. -/
def DefinitionAgrees (scopes : List Names) : List Sketch → Prop
  | [] => True
  | x :: xs =>
    x.Agrees scopes .plain ∧
      if x.isNode .declarator then
        AgreesAll (x.paramNames?.getD [] :: bring (own false x ++ x.entries .plain) scopes) .plain xs
      else DefinitionAgrees (bring (x.entries .plain) scopes) xs

end

/-! ### Equations -/

variable {st st' : Setting} {σ : List Names} {k : NodeKind} {x : Sketch} {xs ys : List Sketch}
  {b : Bool}

@[simp] theorem entries_leaf (x : Symbol) : (leaf x).entries st = [] := by rw [entries]

theorem entries_plain (hk : k.role = .plain) :
    (node k xs).entries st = entriesAll (.below k xs) xs := by
  rw [entries, hk]

theorem entries_scope (hk : k.role = .scope) : (node k xs).entries st = [] := by
  rw [entries, hk]

@[simp] theorem entriesAll_nil : entriesAll st [] = [] := by rw [entriesAll]

@[simp] theorem entriesAll_cons :
    entriesAll st (x :: xs) = entriesAll st xs ++ x.entries st := by
  rw [entriesAll]

@[simp] theorem entriesAll_append :
    entriesAll st (xs ++ ys) = entriesAll st ys ++ entriesAll st xs := by
  induction xs with
  | nil => simp
  | cons x xs ih => simp [ih]

theorem agrees_leaf {x : Symbol} : (leaf x).Agrees σ st ↔
    (st = .specifiers → x.kind = .identifier → isTypedef σ x.name = true) := by
  rw [Agrees]

@[simp] theorem agreesAll_nil : AgreesAll σ st [] := by simp [AgreesAll]

@[simp] theorem agreesAll_cons : AgreesAll σ st (x :: xs) ↔
    x.Agrees σ st ∧ AgreesAll (bring (x.entries st) σ) st xs := by
  rw [AgreesAll]

theorem agreesAll_append : AgreesAll σ st (xs ++ ys) ↔
    AgreesAll σ st xs ∧ AgreesAll (bring (entriesAll st xs) σ) st ys := by
  induction xs generalizing σ with
  | nil => simp
  | cons x xs ih => simp [ih, bring_bring, and_assoc]

/-- Where most nodes stand makes no difference. -/
theorem entries_congr (hk : k.role ≠ .member) :
    (node k xs).entries st = (node k xs).entries st' := by
  cases hr : k.role with
  | member => exact absurd hr hk
  | _ => simp only [entries, hr]

/-- Where most nodes stand makes no difference. -/
theorem agrees_congr (hk : k.role ≠ .member) (he : k ≠ .exprStmt) :
    (node k xs).Agrees σ st ↔ (node k xs).Agrees σ st' := by
  have hbegin (x : Symbol) : MayBegin σ st k x ↔ MayBegin σ st' k x :=
    ⟨fun h => ⟨h.name, fun _ h => absurd h he⟩, fun h => ⟨h.name, fun _ h => absurd h he⟩⟩
  cases hr : k.role with
  | member => exact absurd hr hk
  | _ => simp only [Agrees, hr, hbegin]

/-! ### Members and definitions -/

/-- The parts of a member after its declarator are read with its own name declared. -/
theorem memberEntries_append (h : ∀ x ∈ xs, x.isNode .declarator = false)
    (hx : x.isNode .declarator = true) :
    memberEntries b (xs ++ x :: ys) =
      entriesAll .plain ys ++ own b x ++ entriesAll .plain (xs ++ [x]) := by
  induction xs with
  | nil => simp [memberEntries, hx]
  | cons y xs ih =>
    obtain ⟨hy, hxs⟩ := List.forall_mem_cons.1 h
    simp [memberEntries, hy, ih hxs]

theorem memberAgrees_append (h : ∀ x ∈ xs, x.isNode .declarator = false)
    (hx : x.isNode .declarator = true) :
    MemberAgrees b σ (xs ++ x :: ys) ↔ AgreesAll σ .plain (xs ++ [x]) ∧
      AgreesAll (bring (own b x ++ entriesAll .plain (xs ++ [x])) σ) .plain ys := by
  induction xs generalizing σ with
  | nil => simp [MemberAgrees, hx]
  | cons y xs ih =>
    obtain ⟨hy, hxs⟩ := List.forall_mem_cons.1 h
    simp [MemberAgrees, hy, ih hxs, bring_bring, and_assoc]

/-- A member without a declarator is like any other node. -/
theorem memberEntries_of_forall (h : ∀ x ∈ xs, x.isNode .declarator = false) :
    memberEntries b xs = entriesAll .plain xs := by
  induction xs with
  | nil => simp [memberEntries]
  | cons y xs ih =>
    obtain ⟨hy, hxs⟩ := List.forall_mem_cons.1 h
    simp [memberEntries, hy, ih hxs]

theorem memberAgrees_of_forall (h : ∀ x ∈ xs, x.isNode .declarator = false) :
    MemberAgrees b σ xs ↔ AgreesAll σ .plain xs := by
  induction xs generalizing σ with
  | nil => simp [MemberAgrees]
  | cons y xs ih =>
    obtain ⟨hy, hxs⟩ := List.forall_mem_cons.1 h
    simp [MemberAgrees, hy, ih hxs]

theorem headEntries_append (h : ∀ x ∈ xs, x.isNode .declarator = false)
    (hx : x.isNode .declarator = true) :
    headEntries (xs ++ x :: ys) = own false x ++ entriesAll .plain (xs ++ [x]) := by
  induction xs with
  | nil => simp [headEntries, hx]
  | cons y xs ih =>
    obtain ⟨hy, hxs⟩ := List.forall_mem_cons.1 h
    simp [headEntries, hy, ih hxs]

/-- The parts of a definition after its declarator are read in a scope that starts with the
parameters. -/
theorem definitionAgrees_append (h : ∀ x ∈ xs, x.isNode .declarator = false)
    (hx : x.isNode .declarator = true) :
    DefinitionAgrees σ (xs ++ x :: ys) ↔ AgreesAll σ .plain (xs ++ [x]) ∧
      AgreesAll (x.paramNames?.getD [] ::
        bring (own false x ++ entriesAll .plain (xs ++ [x])) σ) .plain ys := by
  induction xs generalizing σ with
  | nil => simp [DefinitionAgrees, hx]
  | cons y xs ih =>
    obtain ⟨hy, hxs⟩ := List.forall_mem_cons.1 h
    simp [DefinitionAgrees, hy, ih hxs, bring_bring, and_assoc]

end Sketch

end Whittle
