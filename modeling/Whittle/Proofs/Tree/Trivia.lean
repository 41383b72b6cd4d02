import Whittle.Proofs.Tree.Shape

/-!
# Where trivia settle

A node starts only where the trivia ahead have settled, so that it does not begin with trivia
itself. This is a property of skeletons, and weaving carries it over to trees.

* `Skeleton.clearAfter`: whether the next token after a skeleton is known to be significant.
* `Skeleton.Settled`: every node of a skeleton starts where the next token is significant.
* `Tree.Trimmed`: no node of a tree begins with trivia.
* `Skeleton.trimmed_weaveAll`: **weaving tokens into settled skeletons gives trimmed trees.**
* `Tree.Clustered`: trivia that follow each other in the text are neighbours in a tree.
* `Skeleton.clustered_weaveAll`: **weaving keeps trivia together**, since where some settle all of
  them do.
-/

namespace Whittle

namespace Skeleton

mutual

/-- Whether the next token after a skeleton is known to be significant, given whether the next one
before it is. -/
def clearAfter (clear : Bool) : Skeleton → Bool
  | .leaf _ => false
  | .slot => true
  | .node _ children => clearAfterAll clear children

/-- Whether the next token after some skeletons is known to be significant. -/
def clearAfterAll (clear : Bool) : List Skeleton → Bool
  | [] => clear
  | s :: ss => clearAfterAll (s.clearAfter clear) ss

end

mutual

/-- Whether every node of a skeleton starts where the next token is significant. -/
def Settled (clear : Bool) : Skeleton → Prop
  | .leaf _ => True
  | .slot => True
  | .node _ children => clear = true ∧ SettledAll clear children

/-- Whether every node of some skeletons starts where the next token is significant. -/
def SettledAll (clear : Bool) : List Skeleton → Prop
  | [] => True
  | s :: ss => s.Settled clear ∧ SettledAll (s.clearAfter clear) ss

end

@[simp] theorem settledAll_nil {clear : Bool} : SettledAll clear [] := by simp [SettledAll]

@[simp] theorem settledAll_cons {clear : Bool} {s : Skeleton} {ss : List Skeleton} :
    SettledAll clear (s :: ss) ↔ s.Settled clear ∧ SettledAll (s.clearAfter clear) ss := by
  rw [SettledAll]

@[simp] theorem settled_leaf {clear : Bool} {x : Grammar.Symbol} : (leaf x).Settled clear := by
  simp [Settled]

@[simp] theorem settled_slot {clear : Bool} : slot.Settled clear := by simp [Settled]

@[simp] theorem settled_node {clear : Bool} {k : NodeKind} {ss : List Skeleton} :
    (node k ss).Settled clear ↔ clear = true ∧ SettledAll clear ss := by
  rw [Settled]

@[simp] theorem clearAfter_slot (clear : Bool) : slot.clearAfter clear = true := by
  rw [clearAfter]

theorem settledAll_append {clear : Bool} {ss rs : List Skeleton} :
    SettledAll clear (ss ++ rs) ↔
      SettledAll clear ss ∧ SettledAll (clearAfterAll clear ss) rs := by
  induction ss generalizing clear with
  | nil => simp [clearAfterAll]
  | cons s ss ih => simp [clearAfterAll, ih, and_assoc]

mutual

theorem clearAfter_of_clear (s : Skeleton) (h : s.clearAfter false = true) :
    s.clearAfter true = true := by
  cases s with
  | leaf x => simp [clearAfter] at h
  | slot => rw [clearAfter]
  | node k ss =>
    rw [clearAfter] at h ⊢
    exact clearAfterAll_of_clear ss h

theorem clearAfterAll_of_clear (ss : List Skeleton) (h : clearAfterAll false ss = true) :
    clearAfterAll true ss = true := by
  cases ss with
  | nil => rfl
  | cons s ss =>
    rw [clearAfterAll] at h ⊢
    cases hs : s.clearAfter false with
    | true =>
      rw [hs] at h
      rwa [clearAfter_of_clear s hs]
    | false =>
      rw [hs] at h
      cases hs' : s.clearAfter true with
      | true => exact clearAfterAll_of_clear ss h
      | false => exact h

end

/-- What is settled without knowing of the next token is settled. -/
theorem SettledAll.mono {clear : Bool} {ss : List Skeleton} (h : SettledAll false ss) :
    SettledAll clear ss := by
  induction ss generalizing clear with
  | nil => simp
  | cons s ss ih =>
    rw [settledAll_cons] at h ⊢
    cases clear with
    | false => exact h
    | true =>
      refine ⟨?_, ?_⟩
      · cases s with
        | leaf x => simp
        | slot => simp
        | node k ss => simp at h
      · cases hs : s.clearAfter false with
        | true => rw [clearAfter_of_clear s hs, ← hs]; exact h.2
        | false => rw [hs] at h; exact ih h.2

end Skeleton

/-! ### Trimmed trees -/

namespace Token

/-- Whether the next of some tokens, if there is one, is significant. -/
def ClearAhead (ts : List Token) : Prop := ∀ t, ts.head? = some t → t.isTrivia = false

theorem clearAhead_dropWhile (ts : List Token) : ClearAhead (ts.dropWhile (·.isTrivia)) := by
  intro t ht
  have h := List.head?_dropWhile_not (·.isTrivia) ts
  rw [ht] at h
  simpa using h

theorem ClearAhead.of_append {ts us : List Token} (h : ClearAhead (ts ++ us)) : ClearAhead ts := by
  intro t ht
  refine h t ?_
  rw [List.head?_append, ht]
  rfl

end Token

namespace Tree

mutual

/-- Whether no node of a tree begins with trivia. -/
def Trimmed : Tree → Prop
  | .token _ => True
  | .node _ children => Token.ClearAhead (leavesAll children) ∧ TrimmedAll children

/-- Whether no node of some trees begins with trivia. -/
def TrimmedAll : List Tree → Prop
  | [] => True
  | t :: ts => t.Trimmed ∧ TrimmedAll ts

end

theorem trimmedAll_append {ts us : List Tree} :
    TrimmedAll (ts ++ us) ↔ TrimmedAll ts ∧ TrimmedAll us := by
  induction ts with
  | nil => simp [TrimmedAll]
  | cons t ts ih => simp [TrimmedAll, ih, and_assoc]

theorem trimmedAll_map_token (ts : List Token) : TrimmedAll (ts.map .token) := by
  induction ts with
  | nil => simp [TrimmedAll]
  | cons t ts ih => simp [TrimmedAll, Trimmed, ih]

end Tree

namespace Skeleton

open Token

mutual

theorem trimmed_weave (s : Skeleton) (clear : Bool) (ts : List Token) (h : s.Settled clear)
    (hclear : clear = true → ClearAhead ts) :
    Tree.TrimmedAll (s.weave ts).1 ∧ (s.clearAfter clear = true → ClearAhead (s.weave ts).2) := by
  cases s with
  | leaf x => exact ⟨by rw [weave]; exact Tree.trimmedAll_map_token _, by simp [clearAfter]⟩
  | slot =>
    rw [weave]
    exact ⟨Tree.trimmedAll_map_token _, fun _ => clearAhead_dropWhile ts⟩
  | node k ss =>
    obtain ⟨hstart, hss⟩ := settled_node.1 h
    obtain ⟨htrees, hrest⟩ := trimmed_weaveAll ss clear ts hss hclear
    simp only [weave, Tree.TrimmedAll, Tree.Trimmed, clearAfter, and_true]
    refine ⟨⟨?_, htrees⟩, hrest⟩
    -- the node takes the next tokens, and the first of them is significant
    have hleaves := leaves_weaveAll ss ts
    exact ClearAhead.of_append (hleaves ▸ hclear hstart)

/-- **Weaving tokens into settled skeletons gives trimmed trees.** -/
theorem trimmed_weaveAll (ss : List Skeleton) (clear : Bool) (ts : List Token)
    (h : SettledAll clear ss) (hclear : clear = true → ClearAhead ts) :
    Tree.TrimmedAll (weaveAll ss ts).1 ∧
      (clearAfterAll clear ss = true → ClearAhead (weaveAll ss ts).2) := by
  cases ss with
  | nil => exact ⟨by simp [weaveAll, Tree.TrimmedAll], hclear⟩
  | cons s ss =>
    obtain ⟨hs, hss⟩ := settledAll_cons.1 h
    obtain ⟨hfirst, hrest⟩ := trimmed_weave s clear ts hs hclear
    obtain ⟨htrees, hrest'⟩ := trimmed_weaveAll ss _ (s.weave ts).2 hss hrest
    simp only [weaveAll, clearAfterAll, Tree.trimmedAll_append]
    exact ⟨⟨hfirst, htrees⟩, hrest'⟩

end

end Skeleton

/-! ### Trivia that stay together -/

namespace Tree

/-- Whether trivia among some trees that follow other trivia directly stand beside them. -/
def Adjoining (ts : List Tree) : Prop :=
  ∀ l w r v, ts = l ++ .token w :: r → w.isTrivia = true → (leavesAll l).getLast? = some v →
    v.isTrivia = true → ∃ l', l = l' ++ [.token v]

mutual

/-- Whether trivia that follow each other in the text are neighbours in a tree. -/
def Clustered : Tree → Prop
  | .token _ => True
  | .node _ children => Adjoining children ∧ ClusteredAll children

/-- Whether trivia that follow each other in the text are neighbours in each of some trees. -/
def ClusteredAll : List Tree → Prop
  | [] => True
  | t :: ts => t.Clustered ∧ ClusteredAll ts

end

theorem clusteredAll_append {ts us : List Tree} :
    ClusteredAll (ts ++ us) ↔ ClusteredAll ts ∧ ClusteredAll us := by
  induction ts with
  | nil => simp [ClusteredAll]
  | cons t ts ih => simp [ClusteredAll, ih, and_assoc]

theorem ClusteredAll.of_mem {t : Tree} {ts : List Tree} (h : ClusteredAll ts) (ht : t ∈ ts) :
    t.Clustered := by
  induction ts with
  | nil => cases ht
  | cons u ts ih =>
    rw [ClusteredAll] at h
    obtain rfl | ht := List.mem_cons.1 ht
    · exact h.1
    · exact ih h.2 ht

theorem clusteredAll_map_token (ts : List Token) : ClusteredAll (ts.map .token) := by
  induction ts with
  | nil => simp [ClusteredAll]
  | cons t ts ih => simp [ClusteredAll, Clustered, ih]

/-- Among tokens only, what follows another token stands beside it. -/
theorem adjoining_map_token (ts : List Token) : Adjoining (ts.map .token) := by
  intro l w r v hsplit _ hlast _
  obtain ⟨us, vs, -, rfl, -⟩ := List.map_eq_append_iff.1 hsplit
  rw [leavesAll_map_token] at hlast
  obtain ⟨us', rfl⟩ := List.getLast?_eq_some_iff.1 hlast
  exact ⟨us'.map .token, by simp⟩

/-- Whether the next of some tokens is significant if the last token of some trees is not. -/
def Sealed (ts : List Tree) (rest : List Token) : Prop :=
  ∀ v, (leavesAll ts).getLast? = some v → v.isTrivia = true → Token.ClearAhead rest

/-- Trees stay adjoining when more of them follow, if those before are sealed. -/
theorem Adjoining.append {ts us : List Tree} {rest : List Token} (ht : Adjoining ts)
    (hu : Adjoining us) (hsealed : Sealed ts (leavesAll us ++ rest)) : Adjoining (ts ++ us) := by
  intro l w r v hsplit hw hlast hv
  obtain ⟨m, rfl, hm⟩ | ⟨m, rfl, hm⟩ := List.append_eq_append_iff.1 hsplit
  · -- the trivia are among the later trees
    rw [leavesAll_append] at hlast
    cases hleaves : (leavesAll m).getLast? with
    | some v' =>
      rw [List.getLast?_append, hleaves, Option.some_or, Option.some.injEq] at hlast
      subst hlast
      obtain ⟨l', rfl⟩ := hu m w r v' hm hw hleaves hv
      exact ⟨ts ++ l', by simp⟩
    | none =>
      -- they would be the next token after the earlier trees, which are sealed
      rw [List.getLast?_append, hleaves, Option.none_or] at hlast
      have hclear := hsealed v hlast hv w (by
        rw [hm, leavesAll_append, List.getLast?_eq_none_iff.1 hleaves]
        simp [leavesAll, leaves])
      rw [hw] at hclear
      cases hclear
  · cases m with
    | nil =>
      rw [List.nil_append] at hm
      rw [List.append_nil] at hsealed
      have hclear := hsealed v hlast hv w (by simp [← hm, leavesAll, leaves])
      rw [hw] at hclear
      cases hclear
    | cons x m =>
      rw [List.cons_append, List.cons.injEq] at hm
      obtain ⟨rfl, rfl⟩ := hm
      exact ht l w m v rfl hw hlast hv

theorem Sealed.append {ts us : List Tree} {rest : List Token}
    (ht : Sealed ts (leavesAll us ++ rest)) (hu : Sealed us rest) : Sealed (ts ++ us) rest := by
  intro v hlast hv
  rw [leavesAll_append, List.getLast?_append] at hlast
  cases hleaves : (leavesAll us).getLast? with
  | some v' =>
    rw [hleaves, Option.some_or, Option.some.injEq] at hlast
    subst hlast
    exact hu v' hleaves hv
  | none =>
    rw [hleaves, Option.none_or] at hlast
    have hclear := ht v hlast hv
    rwa [List.getLast?_eq_none_iff.1 hleaves, List.nil_append] at hclear

end Tree

namespace Skeleton

open Token Tree

mutual

theorem clustered_weave (s : Skeleton) (ts : List Token) :
    Adjoining (s.weave ts).1 ∧ ClusteredAll (s.weave ts).1 ∧ Sealed (s.weave ts).1 (s.weave ts).2 := by
  cases s with
  | leaf x =>
    rw [weave]
    refine ⟨adjoining_map_token _, clusteredAll_map_token _, fun v hlast hv => ?_⟩
    -- the last token is significant, unless there is none left
    rw [leavesAll_map_token] at hlast
    cases hrest : ts.dropWhile (·.isTrivia) with
    | nil =>
      intro u hu
      simp at hu
    | cons u rest =>
      have hu := clearAhead_dropWhile ts u (by rw [hrest]; rfl)
      rw [hrest, List.take_succ_cons, List.take_zero, List.getLast?_concat,
        Option.some.injEq] at hlast
      rw [← hlast, hu] at hv
      cases hv
  | slot =>
    rw [weave]
    exact ⟨adjoining_map_token _, clusteredAll_map_token _, fun _ _ _ => clearAhead_dropWhile ts⟩
  | node k ss =>
    obtain ⟨hadjoining, hclustered, hsealed⟩ := clustered_weaveAll ss ts
    simp only [weave, ClusteredAll, Clustered, and_true]
    refine ⟨fun l w r v hsplit => ?_, ⟨hadjoining, hclustered⟩, ?_⟩
    · cases l <;> simp at hsplit
    · intro v hlast
      exact hsealed v (by simpa [leavesAll, leaves] using hlast)

/-- **Weaving keeps trivia together.** -/
theorem clustered_weaveAll (ss : List Skeleton) (ts : List Token) :
    Adjoining (weaveAll ss ts).1 ∧ ClusteredAll (weaveAll ss ts).1 ∧
      Sealed (weaveAll ss ts).1 (weaveAll ss ts).2 := by
  cases ss with
  | nil =>
    refine ⟨fun l w r v hsplit => ?_, by simp [weaveAll, ClusteredAll], fun v hlast => ?_⟩
    · simp [weaveAll] at hsplit
    · simp [weaveAll, leavesAll] at hlast
  | cons s ss =>
    obtain ⟨hadjoining, hclustered, hsealed⟩ := clustered_weave s ts
    obtain ⟨hadjoining', hclustered', hsealed'⟩ := clustered_weaveAll ss (s.weave ts).2
    rw [← leaves_weaveAll ss (s.weave ts).2] at hsealed
    exact ⟨hadjoining.append hadjoining' hsealed, clusteredAll_append.2 ⟨hclustered, hclustered'⟩,
      hsealed.append hsealed'⟩

end

end Skeleton

end Whittle
