import Whittle.Proofs.Removal.Patch

/-!
# The order of requests

What becomes of a text does not depend on the order in which its edits are asked for, as long as no
two of them are empty and at the same place.

* `Patch.answerAll`: a patch that is asked for some edits and refuses none.
* `Patch.Compatible`: requests that are in nobody's way. It does not matter in which order they come.
* `Patch.answerAll_eq_ok`: **a patch refuses none of some requests just if they are compatible.**
* `Edit.eq_of_sorted`: edits that are told apart by their spans can be sorted in one way only.
* `Patch.answerAll_perm`: **in every other order the same requests are taken, and the same text comes
  of them.**
-/

namespace Whittle

namespace Patch

/-- A patch after some requests, one after the other, if it refuses none of them. -/
def answerAll (p : Patch) (rs : List Request) : Except EditError Patch :=
  rs.foldlM (fun p r => r.answer p) p

/-- Whether requests lie within the text of a patch and keep clear of its edits and of each other. -/
structure Compatible (p : Patch) (rs : List Request) : Prop where
  within : ∀ r ∈ rs, r.span.Within p.text
  aside : ∀ r ∈ rs, ∀ e ∈ p.edits, ¬e.span.Clash r.span
  clear : rs.Pairwise fun r r' => ¬r.span.Clash r'.span

variable {p q : Patch} {r : Request} {rs rs' : List Request}

theorem compatible_nil (p : Patch) : p.Compatible [] := ⟨by simp, by simp, .nil⟩

theorem Compatible.perm (h : p.Compatible rs) (hperm : rs'.Perm rs) : p.Compatible rs' where
  within r hr := h.within r (hperm.mem_iff.1 hr)
  aside r hr := h.aside r (hperm.mem_iff.1 hr)
  clear := (hperm.pairwise_iff fun hclear hclash => hclear hclash.symm).2 h.clear

/-- The first request is taken, and the others are compatible with the patch that it leaves. -/
theorem compatible_cons : p.Compatible (r :: rs) ↔ r.span.Within p.text ∧
    (∀ e ∈ p.edits, ¬e.span.Clash r.span) ∧
    Compatible { p with edits := Edit.insert r.edit p.edits } rs := by
  have hmem (e : Edit) : e ∈ Edit.insert r.edit p.edits ↔ e = r.edit ∨ e ∈ p.edits := by
    rw [(Edit.insert_perm r.edit p.edits).mem_iff, List.mem_cons]
  constructor
  · intro h
    obtain ⟨hwithin, hwithins⟩ := List.forall_mem_cons.1 h.within
    obtain ⟨haside, hasides⟩ := List.forall_mem_cons.1 h.aside
    obtain ⟨hclear, hclears⟩ := List.pairwise_cons.1 h.clear
    refine ⟨hwithin, haside, hwithins, fun r' hr' e he => ?_, hclears⟩
    obtain rfl | he := (hmem e).1 he
    · exact hclear r' hr'
    · exact hasides r' hr' e he
  · rintro ⟨hwithin, haside, hrest⟩
    refine ⟨List.forall_mem_cons.2 ⟨hwithin, hrest.within⟩, List.forall_mem_cons.2 ⟨haside, ?_⟩,
      List.pairwise_cons.2 ⟨fun r' hr' => ?_, hrest.clear⟩⟩
    · exact fun r' hr' e he => hrest.aside r' hr' e ((hmem e).2 (.inr he))
    · exact hrest.aside r' hr' r.edit ((hmem _).2 (.inl rfl))

/-- **A patch refuses none of some requests just if they are compatible with it**, and then their
edits are added to those it had. -/
theorem answerAll_eq_ok (hp : p.Sound) (hrs : ∀ r ∈ rs, r.span.start ≤ r.span.stop) :
    ((∃ q, p.answerAll rs = .ok q) ↔ p.Compatible rs) ∧
      ∀ q, p.answerAll rs = .ok q →
        q.Sound ∧ q.text = p.text ∧ q.edits.Perm (rs.map (·.edit) ++ p.edits) := by
  induction rs generalizing p with
  | nil =>
    refine ⟨⟨fun _ => compatible_nil p, fun _ => ⟨p, rfl⟩⟩, fun q hq => ?_⟩
    obtain rfl : p = q := Except.ok.inj hq
    exact ⟨hp, rfl, .refl _⟩
  | cons r rs ih =>
    obtain ⟨hr, hrs⟩ := List.forall_mem_cons.1 hrs
    have hsound := hp.request hr
    have hfirst : p.answerAll (r :: rs) = r.answer p >>= fun p => p.answerAll rs := rfl
    -- a refusal ends it
    have refused {err : EditError} (hanswer : r.answer p = .error err)
        (hnot : ¬p.Compatible (r :: rs)) :
        ((∃ q, p.answerAll (r :: rs) = .ok q) ↔ p.Compatible (r :: rs)) ∧
          ∀ q, p.answerAll (r :: rs) = .ok q → q.Sound ∧ q.text = p.text ∧
            q.edits.Perm ((r :: rs).map (·.edit) ++ p.edits) := by
      have hnone (q : Patch) : p.answerAll (r :: rs) ≠ .ok q := by
        rw [hfirst, hanswer]
        exact nofun
      exact ⟨⟨fun ⟨q, hq⟩ => absurd hq (hnone q), fun h => absurd h hnot⟩,
        fun q hq => absurd hq (hnone q)⟩
    obtain ⟨hnot, hanswer⟩ | ⟨-, ⟨e, he, hclash⟩, hanswer⟩ | ⟨hwithin, hclear, hanswer⟩ :=
      answer_cases hp hr
    · exact refused hanswer fun h => hnot (h.within r List.mem_cons_self)
    · exact refused hanswer fun h => h.aside r List.mem_cons_self e he hclash
    · rw [request, hanswer] at hsound
      obtain ⟨hiff, hafter⟩ := ih hsound hrs
      have hrest : p.answerAll (r :: rs) =
          answerAll { p with edits := Edit.insert r.edit p.edits } rs := by
        rw [hfirst, hanswer]
        rfl
      rw [hrest]
      refine ⟨?_, fun q hq => ?_⟩
      · rw [hiff, compatible_cons]
        exact ⟨fun h => ⟨hwithin, hclear, h⟩, fun h => h.2.2⟩
      · obtain ⟨hq, htext, hperm⟩ := hafter q hq
        refine ⟨hq, htext, hperm.trans ?_⟩
        exact ((Edit.insert_perm r.edit p.edits).append_left _).trans List.perm_middle

end Patch

/-! ### Sorting -/

namespace Edit

/-- Whether two edits are not both empty and at the same place. -/
def Apart (e f : Edit) : Prop := ¬(e.span = f.span ∧ e.span.start = e.span.stop)

instance (e f : Edit) : Decidable (e.Apart f) := inferInstanceAs (Decidable (¬_))

theorem Apart.symm {e f : Edit} (h : e.Apart f) : f.Apart e := by
  rintro ⟨hspan, hempty⟩
  exact h ⟨hspan.symm, by rw [← hspan]; exact hempty⟩

/-- Edits that keep clear of each other, no two of them empty and at the same place, have spans of
their own. -/
theorem span_ne {e f : Edit} (he : e.span.start ≤ e.span.stop) (hclear : ¬e.span.Clash f.span)
    (hapart : e.Apart f) : e.span ≠ f.span := by
  intro hspan
  rw [← hspan, Span.clash_iff he he] at hclear
  exact hapart ⟨hspan, by omega⟩

theorem eq_span_of_isBefore {e f : Edit} (h : e.isBefore f = true) (h' : f.isBefore e = true) :
    e.span = f.span := by
  rw [isBefore_iff] at h h'
  have hstart : e.span.start = f.span.start := by omega
  have hstop : e.span.stop = f.span.stop := by omega
  exact congrArg₂ Span.mk hstart hstop

/-- **Edits with spans of their own can be sorted in one way only.** -/
theorem eq_of_sorted {es fs : List Edit} (hspans : es.Pairwise fun e f => e.span ≠ f.span)
    (hes : es.Pairwise (·.isBefore ·)) (hfs : fs.Pairwise (·.isBefore ·)) (hperm : es.Perm fs) :
    es = fs := by
  have hsymm : Std.Symm fun e f : Edit => e.span ≠ f.span := ⟨fun _ _ h => h.symm⟩
  refine hperm.eq_of_pairwise (fun e f he hf hef hfe => ?_) hes hfs
  by_contra hne
  exact hspans.forall he (hperm.mem_iff.2 hf) hne (eq_span_of_isBefore hef hfe)

end Edit

/-! ### Any order -/

namespace Patch

/-- **The order of requests does not matter.** If a patch refuses none of some requests, no two of
which are empty and at the same place, it refuses none of them in any other order, and the same text
comes of it: that of carrying out the edits in whatever way they are sorted. -/
theorem answerAll_perm (t : Text) {p : Patch} {rs rs' : List Request}
    (hrs : ∀ r ∈ rs, r.span.start ≤ r.span.stop)
    (hapart : rs.Pairwise fun r r' => r.edit.Apart r'.edit)
    (h : (ofText t).answerAll rs = .ok p) (hperm : rs'.Perm rs) :
    (∃ p', (ofText t).answerAll rs' = .ok p' ∧ p'.apply = p.apply) ∧
      ∀ es : List Edit, es.Perm (rs.map (·.edit)) → es.Pairwise (·.isBefore ·) →
        Edit.applyFrom 0 t es = p.apply := by
  have hrs' : ∀ r ∈ rs', r.span.start ≤ r.span.stop := fun r hr => hrs r (hperm.mem_iff.1 hr)
  obtain ⟨hiff, hafter⟩ := answerAll_eq_ok (sound_ofText t) hrs
  obtain ⟨hiff', hafter'⟩ := answerAll_eq_ok (sound_ofText t) hrs'
  have hcompatible := hiff.1 ⟨p, h⟩
  obtain ⟨hp, htext, hedits⟩ := hafter p h
  rw [ofText, List.append_nil] at hedits
  -- the edits have spans of their own, so that there is one way to sort them
  have hspans : (rs.map (·.edit)).Pairwise fun e f => e.span ≠ f.span := by
    rw [List.pairwise_map]
    exact (hcompatible.clear.and hapart).imp_of_mem fun hr _ h =>
      Edit.span_ne (hrs _ hr) h.1 h.2
  have hunique {es : List Edit} (hes : es.Perm (rs.map (·.edit)))
      (hsorted : es.Pairwise (·.isBefore ·)) : es = p.edits := by
    refine Edit.eq_of_sorted ?_ hsorted hp.sorted (hes.trans hedits.symm)
    exact (hes.pairwise_iff fun h => h.symm).2 hspans
  refine ⟨?_, fun es hes hsorted => ?_⟩
  · obtain ⟨p', hp'⟩ := hiff'.2 (hcompatible.perm hperm)
    obtain ⟨hsound, htext', hedits'⟩ := hafter' p' hp'
    rw [ofText, List.append_nil] at hedits'
    refine ⟨p', hp', ?_⟩
    rw [apply, apply, htext, htext', hunique (hedits'.trans (hperm.map _)) hsound.sorted]
  · rw [hunique hes hsorted, apply, htext]
    rfl

/-- An edit with empty ones at both its borders, asked for from the last to the first. -/
theorem answerAll_perm_borders :
    let t : Text := "abcdef".toList
    let rs : List Request := [.remove ⟨2, 4⟩, .replace ⟨4, 4⟩ ['z'], .replace ⟨2, 2⟩ ['x']]
    (∀ r ∈ rs, r.span.start ≤ r.span.stop) ∧ rs.Pairwise (fun r r' => r.edit.Apart r'.edit) ∧
      ∃ p p', (ofText t).answerAll rs = .ok p ∧ p.apply = "abxzef".toList ∧
        (ofText t).answerAll rs.reverse = .ok p' ∧ p'.apply = p.apply := by
  intro t rs
  have hrs : ∀ r ∈ rs, r.span.start ≤ r.span.stop := by decide
  have hapart : rs.Pairwise (fun r r' => r.edit.Apart r'.edit) := by decide
  have hok : (ofText t).answerAll rs =
      .ok ⟨t, [⟨⟨2, 2⟩, ['x']⟩, ⟨⟨2, 4⟩, []⟩, ⟨⟨4, 4⟩, ['z']⟩]⟩ := rfl
  obtain ⟨p', hp', happly⟩ := (answerAll_perm t hrs hapart hok rs.reverse_perm).1
  exact ⟨hrs, hapart, _, p', hok, rfl, hp', happly⟩

end Patch

end Whittle
