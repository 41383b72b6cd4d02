import Whittle.Proofs.Declaration.Inventory
import Whittle.Removal.Range

/-!
# Where removals lie

* `Declaration.Cut`: the four ways to cut a declaration out: the whole group, the only member of a
  group that defines a tag, the first of several members with the comma after it, or a later one
  with the comma before it.
* `Declaration.cut_of_removal`: there are no other ways.
* `Declaration.removal_start_le_stop`: a removal is a stretch of the text.
-/

namespace Whittle

/-! ### Siblings -/

namespace Site

variable {s : Site} {root p : Placed}

/-- A node and its siblings follow each other. -/
theorem snug_siblings (hroot : root.Snug) (hs : s ∈ root.sites) :
    ∃ first, Placed.SnugFrom first (s.before.reverse ++ s.node :: s.after) := by
  have hsnug := (span_of_mem_subsites (s := ⟨root, []⟩) hroot hs).1
  cases hparent : s.parent? with
  | none =>
    have habove := parent?_eq_none.1 hparent
    exact ⟨s.node.start, by simp [before, after, habove, hsnug]⟩
  | some g =>
    have hg := span_of_mem_subsites (s := ⟨root, []⟩) hroot (mem_sites_of_parent? hs hparent)
    obtain ⟨start, kind, l, r, hnode, habove⟩ := parent?_eq_some.1 hparent
    rw [hnode, Placed.snug_node] at hg
    exact ⟨start, by simpa [before, after, habove] using hg.1⟩

/-- What stands before a node ends before it. -/
theorem stop_le_of_mem_before (hroot : root.Snug) (hs : s ∈ root.sites) (hp : p ∈ s.before) :
    p.start ≤ p.stop ∧ p.stop ≤ s.node.start := by
  obtain ⟨first, hsnug⟩ := snug_siblings hroot hs
  obtain ⟨l, r, hsplit⟩ := List.append_of_mem (List.mem_reverse.2 hp)
  rw [hsplit, List.append_assoc, List.cons_append] at hsnug
  exact ⟨Placed.start_le_stop p (Placed.snugFrom_middle hsnug).2.1,
    Placed.stop_le_of_snugFrom hsnug (by simp)⟩

/-- What stands after a node starts after it. -/
theorem le_start_of_mem_after (hroot : root.Snug) (hs : s ∈ root.sites) (hp : p ∈ s.after) :
    s.node.stop ≤ p.start ∧ p.start ≤ p.stop := by
  obtain ⟨first, hsnug⟩ := snug_siblings hroot hs
  refine ⟨Placed.stop_le_of_snugFrom hsnug hp, Placed.start_le_stop p ?_⟩
  exact (Placed.snugFrom_mem hsnug (by simp [hp])).2.1

theorem startWithBlanks_le (hroot : root.Snug) (hs : s ∈ root.sites) :
    s.startWithBlanks ≤ s.node.start := by
  unfold startWithBlanks
  split
  · rename_i blank rest hbefore
    split
    · obtain ⟨hle, hle'⟩ := stop_le_of_mem_before hroot hs (p := blank) (by simp [hbefore])
      omega
    · exact Nat.le_refl _
  · exact Nat.le_refl _

theorem mem_of_commaBefore? (h : s.commaBefore? = some p) :
    p ∈ s.before ∧ p.isToken .comma = true := by
  obtain ⟨hfind, hcomma⟩ := Option.filter_eq_some_iff.1 h
  exact ⟨List.mem_of_find?_eq_some hfind, hcomma⟩

/-- The comma after a member is the next significant part after it. -/
theorem commaAfter?_eq_some {rest : List Placed} (h : s.commaAfter? = some (p, rest)) :
    (∃ trivia, s.after = trivia ++ p :: rest ∧ ∀ t ∈ trivia, t.isTrivia = true) ∧
      p.isToken .comma = true := by
  unfold commaAfter? at h
  split at h
  · rename_i comma rest' hdrop
    split at h
    · rename_i hcomma
      obtain ⟨rfl, rfl⟩ := Prod.mk.inj (Option.some.inj h)
      refine ⟨⟨s.after.takeWhile (·.isTrivia), ?_, ?_⟩, hcomma⟩
      · rw [← hdrop, List.takeWhile_append_dropWhile]
      · exact List.all_eq_true.1 List.all_takeWhile
    · cases h
  · cases h

/-- The comma after a member, or the blanks after it, stands after the member. -/
theorem last_mem_after {rest : List Placed} (h : s.commaAfter? = some (p, rest)) :
    (rest.head?.filter (·.isToken .whitespace)).getD p ∈ s.after := by
  obtain ⟨⟨trivia, hafter, -⟩, -⟩ := commaAfter?_eq_some h
  rw [hafter]
  cases hfilter : rest.head?.filter (·.isToken .whitespace) with
  | none => simp
  | some blank =>
    have hmem := List.mem_of_head? (Option.filter_eq_some_iff.1 hfilter).1
    simp [hmem]

end Site

/-! ### The ways to cut -/

namespace Declaration

variable {target : Declaration} {group : DeclGroup} {range : Span} {root : Placed}

/-- The ways to cut a declaration out of its group. -/
inductive Cut (target : Declaration) (group : DeclGroup) : Span → Prop
  /-- The whole group. -/
  | group (hsingle : group.isSingle = true) (htag : group.definesTag = false) :
    Cut target group ⟨group.site.startWithBlanks, group.site.node.stop⟩
  /-- The only member of a group that defines a structure, union or enumeration. -/
  | sole (hsingle : group.isSingle = true) (htag : group.definesTag = true) :
    Cut target group ⟨target.site.startWithBlanks, target.site.node.stop⟩
  /-- The first of several members, with the comma after it and the blanks after that. -/
  | first (comma : Placed) (rest : List Placed) (hposition : group.position? target.id = some 0)
      (hcomma : target.site.commaAfter? = some (comma, rest)) :
    Cut target group ⟨target.site.node.start,
      ((rest.head?.filter (·.isToken .whitespace)).getD comma).stop⟩
  /-- A later member, with the comma before it. -/
  | later (comma : Placed) (hposition : group.position? target.id ≠ some 0)
      (hcomma : target.site.commaBefore? = some comma) :
    Cut target group ⟨comma.start, target.site.node.stop⟩

/-- A removal is one of the cuts, and the declaration is a child of its group. -/
theorem cut_of_removal (h : target.removal group = .ok range) :
    target.site.isChildOf group.site = true ∧ Cut target group range := by
  unfold removal at h
  split at h
  · cases h
  rename_i position hposition
  split at h
  · cases h
  rename_i hchild
  refine ⟨by simpa using hchild, ?_⟩
  split at h
  · rename_i hsingle
    obtain rfl := Except.ok.inj h
    cases htag : group.definesTag with
    | false => simpa [htag] using Cut.group hsingle htag
    | true => simpa [htag] using Cut.sole hsingle htag
  split at h
  · rename_i hzero
    split at h
    · cases h
    · rename_i comma rest hcomma
      obtain rfl := Except.ok.inj h
      exact Cut.first comma rest (by rw [hposition, hzero]) hcomma
  · rename_i hzero
    split at h
    · cases h
    · rename_i comma hcomma
      obtain rfl := Except.ok.inj h
      exact Cut.later comma (by simpa [hposition] using hzero) hcomma

/-- **A removal is a stretch of the text.** -/
theorem Cut.start_le_stop (h : Cut target group range) (hroot : root.Snug)
    (htarget : target.site ∈ root.sites) (hgroup : group.site ∈ root.sites) :
    range.start ≤ range.stop := by
  have hle {s : Site} (hs : s ∈ root.sites) : s.node.start ≤ s.node.stop :=
    Placed.start_le_stop _ (Site.span_of_mem_subsites (s := ⟨root, []⟩) hroot hs).1
  cases h with
  | group =>
    exact Nat.le_trans (Site.startWithBlanks_le hroot hgroup) (hle hgroup)
  | sole =>
    exact Nat.le_trans (Site.startWithBlanks_le hroot htarget) (hle htarget)
  | first comma rest _ hcomma =>
    obtain ⟨hstart, hstop⟩ :=
      Site.le_start_of_mem_after hroot htarget (Site.last_mem_after hcomma)
    exact Nat.le_trans (hle htarget) (Nat.le_trans hstart hstop)
  | later comma _ hcomma =>
    obtain ⟨hstart, hstop⟩ :=
      Site.stop_le_of_mem_before hroot htarget (Site.mem_of_commaBefore? hcomma).1
    exact Nat.le_trans hstart (Nat.le_trans hstop (hle htarget))

end Declaration

end Whittle
