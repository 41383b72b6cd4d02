import Whittle.Proofs.Name.Resolution

/-!
# The walk declares what the inventory lists

The walk over the names of a program and the inventory of its declarations look for declarations
each in a way of their own: the walk goes into the parts of a node in the order in which names come
into scope, the inventory takes the sites of the tree one by one. They meet only where a declaration
counts as used, through the span of its name.

* `Placed.declared`: the names that the walk declares, each with what it stands for.
* `mem_declared_iff`: the walk declares the names of the inventory and no others.
* `pairwise_declared`: it declares none of them twice.
* `declared_agrees`: **walk and inventory agree on what is declared and on what is a variable.**
-/

namespace Whittle

/-- The name that an event declares, and what the name stands for. -/
def Event.declared? : Event → Option (Leaf × Entity)
  | .declares name entity => some (name, entity)
  | _ => none

/-- The names that the walk over a tree declares, in its order, each with what it stands for. -/
def Placed.declared (root : Placed) : List (Leaf × Entity) := root.events.filterMap Event.declared?

/-- The name that a mark declares, and what the name stands for. -/
def Mark.declared? : Mark → Option (Leaf × Entity)
  | .declares s => s.entity?
  | _ => none

theorem Mark.filterMap_events (m : Mark) :
    m.events.filterMap Event.declared? = m.declared?.toList := by
  cases m with
  | opens s => rfl
  | closes => rfl
  | declares s => cases h : s.entity? <;> simp [events, declared?, Event.declared?, h]
  | uses s => cases h : s.node.firstToken? <;> simp [events, declared?, Event.declared?, h]

theorem Mark.exists_of_declared? {m : Mark} {x : Leaf × Entity} (h : m.declared? = some x) :
    ∃ s, m = .declares s ∧ s.entity? = some x := by
  cases m with
  | declares s => exact ⟨s, rfl, h⟩
  | opens s => cases h
  | closes => cases h
  | uses s => cases h

section

variable {t : Text} {x : Leaf × Entity}

theorem declared_parse (t : Text) :
    (parse t).root.declared = t.marks.filterMap Mark.declared? := by
  rw [Placed.declared, events_parse, List.filterMap_flatMap, List.filterMap_eq_flatMap_toList]
  exact List.flatMap_congr fun m _ => m.filterMap_events

/-- **The walk declares the names of the inventory and no others.** -/
theorem mem_declared_iff : x ∈ (parse t).root.declared ↔
    ∃ d ∈ (Inventory.ofTree (parse t).root).declarations, x = (d.name, d.entity) := by
  rw [declared_parse, List.mem_filterMap]
  constructor
  · rintro ⟨m, hm, hdeclared⟩
    obtain ⟨s, rfl, hentity⟩ := Mark.exists_of_declared? hdeclared
    obtain ⟨d, hd, -, hname, hentity'⟩ := exists_declaration hm hentity
    exact ⟨d, hd, by rw [hname, hentity']⟩
  · rintro ⟨d, hd, rfl⟩
    exact ⟨.declares d.site, Inventory.declares_mem_marks hd, Inventory.entity?_of_mem hd⟩

/-- The walk declares no name twice. -/
theorem pairwise_declared (t : Text) :
    (parse t).root.declared.Pairwise fun x y => x.1.span ≠ y.1.span := by
  rw [declared_parse, List.pairwise_filterMap]
  refine List.Pairwise.imp_of_mem ?_ t.pairwise_marks
  intro m m' hm hm' hbefore x hx y hy hspan
  obtain ⟨s, rfl, hentity⟩ := Mark.exists_of_declared? hx
  obtain ⟨s', rfl, hentity'⟩ := Mark.exists_of_declared? hy
  obtain ⟨d, hd, rfl, hname, -⟩ := exists_declaration hm hentity
  obtain ⟨d', hd', rfl, hname', -⟩ := exists_declaration hm' hentity'
  rw [← hname, ← hname'] at hspan
  -- one name would be declared after two points of the tree
  have heq := Inventory.eq_of_name_span_eq (regular_parse t) hd hd' hspan
  have hends := hbefore.place _ _ rfl rfl
  rw [heq] at hends
  exact hends.asymm hends

/-- The inventory lists no name twice. -/
theorem Inventory.pairwise_names (t : Text) :
    (Inventory.ofTree (parse t).root).declarations.Pairwise
      fun d d' => d.name.span ≠ d'.name.span := by
  refine List.Pairwise.imp_of_mem ?_ (pairwise_declarations (regular_parse t).snug)
  intro d d' hd hd' hfollows hspan
  rw [eq_of_name_span_eq (regular_parse t) hd hd' hspan] at hfollows
  exact not_follows_self _ hfollows

/-- Walk and inventory come to the same names, though not in the same order. -/
theorem declared_perm (t : Text) : (parse t).root.declared.Perm
    ((Inventory.ofTree (parse t).root).declarations.map fun d => (d.name, d.entity)) := by
  have hdeclared : (parse t).root.declared.Nodup := (pairwise_declared t).imp fun {x y} hne heq =>
    hne (congrArg (·.1.span) heq)
  have hlisted : ((Inventory.ofTree (parse t).root).declarations.map
      fun d => (d.name, d.entity)).Nodup := by
    refine List.pairwise_map.2 ((Inventory.pairwise_names t).imp ?_)
    intro d d' hne heq
    exact hne (congrArg (fun x : Leaf × Entity => x.1.span) heq)
  refine (List.perm_ext_iff_of_nodup hdeclared hlisted).2 fun x => ?_
  rw [mem_declared_iff, List.mem_map]
  simp only [eq_comm]

/-- What is used is a variable of the inventory. -/
theorem exists_var_of_mem_references {span : Span} (h : span ∈ references (parse t).root) :
    ∃ d ∈ (Inventory.ofTree (parse t).root).declarations, d.kind = .var ∧ d.name.span = span := by
  rw [references_parse, Resolution.references, List.mem_append, List.mem_map] at h
  rcases h with huses | ⟨⟨name, span⟩, hlinked, rfl⟩
  · obtain ⟨r, -, d, hsees, hentity⟩ := (mem_uses_iff t span).1 huses
    obtain ⟨hkind, hspan, -⟩ := Declaration.entity_eq_var.1 hentity
    exact ⟨d, hsees.mem, hkind, hspan⟩
  · obtain ⟨d, hd, hentity, -⟩ := (mem_linked_iff t (name, span)).1 (List.mem_filter.1 hlinked).1
    obtain ⟨hkind, hspan, -⟩ := Declaration.entity_eq_var.1 hentity
    exact ⟨d, hd, hkind, hspan⟩

end

/-- **Walk and inventory agree on what is declared.** The names that the walk declares are those of
the inventory, each once in both. The walk declares a name as a variable just if the inventory lists
it as one, and as something else just if it is a parameter, a function, the name of a type or an
enumerator there. Whatever the walk finds to be used is the name of a variable of the inventory. -/
theorem declared_agrees (t : Text) :
    let root := (parse t).root
    let declarations := (Inventory.ofTree root).declarations
    (root.declared.map (·.1)).Perm (declarations.map (·.name)) ∧
    (root.declared.map (·.1.span)).Nodup ∧
    (declarations.map (·.name.span)).Nodup ∧
    (∀ d ∈ declarations, ∀ entity, (d.name, entity) ∈ root.declared →
      ((∃ linkage, entity = .var d.name.span linkage) ↔ d.kind = .var) ∧
      (entity = .other ↔ d.kind ∈ [.param, .function, .typedefName, .enumerator])) ∧
    ∀ span ∈ references root, ∃ d ∈ declarations, d.kind = .var ∧ d.name.span = span := by
  intro root declarations
  refine ⟨?_, List.pairwise_map.2 (pairwise_declared t),
    List.pairwise_map.2 (Inventory.pairwise_names t), ?_, fun span => exists_var_of_mem_references⟩
  · have hperm := (declared_perm t).map Prod.fst
    rwa [List.map_map] at hperm
  · intro d hd entity hmem
    obtain ⟨d', hd', heq⟩ := mem_declared_iff.1 hmem
    obtain ⟨hname, rfl⟩ := Prod.mk.inj heq
    obtain rfl := Inventory.eq_of_name_span_eq (regular_parse t) hd hd' (congrArg Leaf.span hname)
    unfold Declaration.entity
    cases hkind : d.kind <;> simp

/-- An old-style definition declares its parameter twice, and a declarator in parentheses holds the
name of its member and parameters of its own. -/
theorem declared_agrees_old_style :
    let root := (parse "int f(p) int p; \x7b int (*q)(int z) = q; \x7d".toList).root
    root.declared.length = 5 ∧
    (∃ d ∈ (Inventory.ofTree root).declarations, d.name.text = "q".toList ∧ d.kind = .var ∧
      ∃ linkage, (d.name, Entity.var d.name.span linkage) ∈ root.declared) ∧
    (∃ d ∈ (Inventory.ofTree root).declarations, d.name.text = "z".toList ∧ d.kind = .param ∧
      (d.name, Entity.other) ∈ root.declared) ∧
    ∃ span ∈ references root, ∃ d ∈ (Inventory.ofTree root).declarations,
      d.kind = .var ∧ d.name.span = span := by
  intro root
  obtain ⟨hperm, -, -, hkinds, hused⟩ :=
    declared_agrees "int f(p) int p; \x7b int (*q)(int z) = q; \x7d".toList
  have hlisted : (Inventory.ofTree root).declarations.map (fun d => (d.name.text, d.kind)) =
      [("f".toList, .function), ("p".toList, .param), ("p".toList, .param), ("q".toList, .var),
        ("z".toList, .param)] ∧ references root ≠ [] := by
    decide +kernel
  have hmember (name : Text) (kind : DeclKind)
      (h : (name, kind) ∈ (Inventory.ofTree root).declarations.map fun d => (d.name.text, d.kind)) :
      ∃ d ∈ (Inventory.ofTree root).declarations, d.name.text = name ∧ d.kind = kind ∧
        ∃ entity, (d.name, entity) ∈ root.declared := by
    obtain ⟨d, hd, heq⟩ := List.mem_map.1 h
    obtain ⟨hname, hkind⟩ := Prod.mk.inj heq
    obtain ⟨x, hx, hleaf⟩ := List.mem_map.1 (hperm.mem_iff.2 (List.mem_map_of_mem hd))
    exact ⟨d, hd, hname, hkind, x.2, hleaf ▸ hx⟩
  refine ⟨?_, ?_, ?_, ?_⟩
  · have hlength := hperm.length_eq
    have hfive := congrArg List.length hlisted.1
    rw [List.length_map, List.length_map] at hlength
    rw [List.length_map] at hfive
    exact hlength.trans hfive
  · obtain ⟨d, hd, hname, hkind, entity, hmem⟩ :=
      hmember "q".toList .var (by rw [hlisted.1]; simp)
    obtain ⟨linkage, rfl⟩ := (hkinds d hd entity hmem).1.2 hkind
    exact ⟨d, hd, hname, hkind, linkage, hmem⟩
  · obtain ⟨d, hd, hname, hkind, entity, hmem⟩ :=
      hmember "z".toList .param (by rw [hlisted.1]; simp)
    obtain rfl := (hkinds d hd entity hmem).2.2 (by simp [hkind])
    exact ⟨d, hd, hname, hkind, hmem⟩
  · obtain ⟨span, hspan⟩ := List.exists_mem_of_ne_nil _ hlisted.2
    exact ⟨span, hspan, hused span hspan⟩

end Whittle
