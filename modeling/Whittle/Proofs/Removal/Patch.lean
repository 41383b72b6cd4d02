import Whittle.Proofs.Removal.Safety

/-!
# What patches come to

A patch is asked for one edit after the other. It takes those that keep clear of the edits it has,
in whatever order they come, and then carries out all it has taken in one sweep over the text.

* `Span.Within`, `Span.Clash`: a span is one of a text; two spans are in each other's way.
* `Patch.Sound`: the edits of a patch stand in order and keep clear of each other. A request keeps
  this up (`Sound.request`), and so do all of them (`Sound.requestAll`).
* `Edit.Interleaves`: a text becomes another one when edits are carried out; the gaps between them
  stay. The sweep does that (`Edit.interleaves_applyFrom`).
* `Patch.requestAll_exact`: **a patch refuses just the requests that are in the way, and carries out
  each of the others once.**
-/

namespace Whittle

/-! ### Spans that are in each other's way -/

namespace Span

/-- Whether a span reaches from one place between the characters of a text to another. -/
def Within (s : Span) (t : Text) : Prop :=
  ∃ before inside after, t = before ++ inside ++ after ∧
    s = ⟨before.size, Text.size (before ++ inside)⟩

/-- Whether a byte lies in a span. -/
def Holds (s : Span) (k : Nat) : Prop := s.start ≤ k ∧ k < s.stop

instance (s : Span) (k : Nat) : Decidable (s.Holds k) := inferInstanceAs (Decidable (_ ∧ _))

/-- Whether a span is empty and lies strictly inside another one. -/
def Pricks (s u : Span) : Prop := s.start = s.stop ∧ u.start < s.start ∧ s.start < u.stop

/-- Whether two spans share a byte, or one of them is empty and lies strictly inside the other. -/
def Clash (s u : Span) : Prop := (∃ k, s.Holds k ∧ u.Holds k) ∨ s.Pricks u ∨ u.Pricks s

variable {s u : Span} {t : Text}

theorem Within.start_le_stop (h : s.Within t) : s.start ≤ s.stop := by
  obtain ⟨before, inside, after, -, rfl⟩ := h
  simp

theorem Clash.symm (h : s.Clash u) : u.Clash s := by
  obtain ⟨k, hs, hu⟩ | h | h := h
  · exact .inl ⟨k, hu, hs⟩
  · exact .inr (.inr h)
  · exact .inr (.inl h)

theorem clash_iff (hs : s.start ≤ s.stop) (hu : u.start ≤ u.stop) :
    s.Clash u ↔ u.start < s.stop ∧ s.start < u.stop := by
  constructor
  · rintro (⟨k, ⟨h₁, h₂⟩, h₃, h₄⟩ | ⟨h₁, h₂, h₃⟩ | ⟨h₁, h₂, h₃⟩) <;> omega
  · rintro ⟨h, h'⟩
    by_cases hempty : s.start = s.stop
    · exact .inr (.inl ⟨hempty, by omega, h'⟩)
    · by_cases hempty' : u.start = u.stop
      · exact .inr (.inr ⟨hempty', by omega, h⟩)
      · -- neither is empty, and the later start is a byte of both
        exact .inl ⟨max s.start u.start, ⟨by omega, by omega⟩, by omega, by omega⟩

/-- A span that is in nobody's way and does not come earlier stands further on. -/
theorem stop_le_start (hs : s.start ≤ s.stop) (hu : u.start ≤ u.stop) (h : ¬s.Clash u)
    (horder : s.start < u.start ∨ s.start = u.start ∧ s.stop ≤ u.stop) : s.stop ≤ u.start := by
  rw [clash_iff hs hu] at h
  omega

end Span

namespace Edit

variable {e f : Edit} {es : List Edit}

theorem isBefore_iff : e.isBefore f = true ↔ e.span.start < f.span.start ∨
    e.span.start = f.span.start ∧ e.span.stop ≤ f.span.stop := by
  simp [isBefore]

theorem overlaps_iff {s : Span} (he : e.span.start ≤ e.span.stop) (hs : s.start ≤ s.stop) :
    e.overlaps s = true ↔ e.span.Clash s := by
  rw [Span.clash_iff he hs, overlaps, Bool.and_eq_true, decide_eq_true_eq, decide_eq_true_eq]

theorem insert_perm (e : Edit) (es : List Edit) : (insert e es).Perm (e :: es) := by
  induction es with
  | nil => rfl
  | cons f es ih =>
    unfold insert
    split
    · exact (ih.cons f).trans (.swap e f es)
    · rfl

theorem insert_sorted (h : es.Pairwise (·.isBefore ·)) : (insert e es).Pairwise (·.isBefore ·) := by
  induction es with
  | nil => exact List.pairwise_singleton _ e
  | cons f es ih =>
    obtain ⟨hf, hes⟩ := List.pairwise_cons.1 h
    unfold insert
    split
    case isTrue hfe =>
      refine List.pairwise_cons.2 ⟨fun g hg => ?_, ih hes⟩
      obtain rfl | hg := List.mem_cons.1 ((insert_perm e es).mem_iff.1 hg)
      · exact hfe
      · exact hf g hg
    case isFalse hfe =>
      -- what does not come before the new edit comes after it, and so does all that follows
      refine List.pairwise_cons.2 ⟨fun g hg => ?_, h⟩
      have hef : e.isBefore f = true := by
        rw [isBefore_iff] at hfe ⊢
        omega
      obtain rfl | hg := List.mem_cons.1 hg
      · exact hef
      · have hfg := hf g hg
        rw [isBefore_iff] at hef hfg ⊢
        omega

end Edit

theorem Patch.fits_iff {p : Patch} {s : Span} (hs : s.start ≤ s.stop) :
    p.fits s = true ↔ s.Within p.text := by
  simp only [fits, Bool.and_eq_true, decide_eq_true_eq]
  constructor
  · rintro ⟨⟨-, hstart⟩, hstop⟩
    obtain ⟨before, inside, after, htext, hspan, -⟩ := Text.without_of_isBoundary hstart hstop hs
    exact ⟨before, inside, after, htext, hspan⟩
  · rintro ⟨before, inside, after, htext, rfl⟩
    have hstop := Text.isBoundary_size (before ++ inside) after
    rw [← htext] at hstop
    refine ⟨⟨Text.le_size_of_isBoundary hstop, ?_⟩, hstop⟩
    rw [htext, List.append_assoc]
    exact Text.isBoundary_size before (inside ++ after)

/-! ### Requests -/

/-- What a patch can be asked for. -/
inductive Request where
  | replace (span : Span) (replacement : Text)
  | remove (span : Span)

namespace Request

/-- The edit that is asked for. -/
def edit : Request → Edit
  | replace span replacement => ⟨span, replacement⟩
  | remove span => ⟨span, []⟩

/-- The span that is to be edited. -/
def span (r : Request) : Span := r.edit.span

/-- The answer of a patch: itself with the edit, or why that is refused. -/
def answer (p : Patch) : Request → Except EditError Patch
  | replace span replacement => p.replace span replacement
  | remove span => p.remove span

theorem answer_eq (p : Patch) (r : Request) :
    r.answer p = p.replace r.edit.span r.edit.replacement := by
  cases r <;> rfl

end Request

namespace Patch

/-- A patch after a request. It stays as it is if it refuses. -/
def request (p : Patch) (r : Request) : Patch :=
  match r.answer p with
  | .ok q => q
  | .error _ => p

/-- A patch after some requests, one after the other. -/
def requestAll (p : Patch) (rs : List Request) : Patch := rs.foldl request p

/-- The edits that a patch takes when it gets some requests, one after the other. -/
def taken (p : Patch) : List Request → List Edit
  | [] => []
  | r :: rs =>
    match r.answer p with
    | .ok q => r.edit :: taken q rs
    | .error _ => taken p rs

/-- Whether the edits of a patch lie within its text, stand in order and keep clear of each
other. -/
structure Sound (p : Patch) : Prop where
  within : ∀ e ∈ p.edits, e.span.Within p.text
  sorted : p.edits.Pairwise (·.isBefore ·)
  clear : p.edits.Pairwise fun e f => ¬e.span.Clash f.span

theorem sound_ofText (t : Text) : (ofText t).Sound :=
  ⟨fun _ he => absurd he List.not_mem_nil, .nil, .nil⟩

variable {p q : Patch} {r : Request} {rs : List Request}

/-- What a request can come to. -/
theorem answer_cases (hp : p.Sound) (hr : r.span.start ≤ r.span.stop) :
    (¬r.span.Within p.text ∧ r.answer p = .error (.outOfBounds r.span p.text.size)) ∨
    (r.span.Within p.text ∧ (∃ e ∈ p.edits, e.span.Clash r.span) ∧
      r.answer p = .error (.overlap r.span)) ∨
    (r.span.Within p.text ∧ (∀ e ∈ p.edits, ¬e.span.Clash r.span) ∧
      r.answer p = .ok { p with edits := Edit.insert r.edit p.edits }) := by
  have hclash : p.edits.any (·.overlaps r.span) = true ↔ ∃ e ∈ p.edits, e.span.Clash r.span := by
    rw [List.any_eq_true]
    refine exists_congr fun e => and_congr_right fun he => ?_
    exact Edit.overlaps_iff (hp.within e he).start_le_stop hr
  rw [Request.answer_eq, replace, ← Request.span]
  by_cases hfits : p.fits r.span = true
  · have hwithin := (fits_iff hr).1 hfits
    rw [if_neg (by simp [hfits])]
    by_cases hany : p.edits.any (·.overlaps r.span) = true
    · rw [if_pos hany]
      exact .inr (.inl ⟨hwithin, hclash.1 hany, rfl⟩)
    · rw [if_neg hany]
      exact .inr (.inr ⟨hwithin, fun e he hc => hany (hclash.2 ⟨e, he, hc⟩), rfl⟩)
  · rw [if_pos (by simpa using hfits)]
    exact .inl ⟨fun hwithin => hfits ((fits_iff hr).2 hwithin), rfl⟩

theorem request_of_error {err : EditError} (h : r.answer p = .error err) : p.request r = p := by
  rw [request, h]

/-- A request keeps the edits in order and clear of each other. -/
theorem Sound.request (hp : p.Sound) (hr : r.span.start ≤ r.span.stop) : (p.request r).Sound := by
  obtain ⟨-, hanswer⟩ | ⟨-, -, hanswer⟩ | ⟨hwithin, hclear, hanswer⟩ := answer_cases hp hr
  · rwa [request_of_error hanswer]
  · rwa [request_of_error hanswer]
  · rw [Patch.request, hanswer]
    have hperm := Edit.insert_perm r.edit p.edits
    refine ⟨fun e he => ?_, Edit.insert_sorted hp.sorted, ?_⟩
    · obtain rfl | he := List.mem_cons.1 (hperm.mem_iff.1 he)
      · exact hwithin
      · exact hp.within e he
    · refine (hperm.pairwise_iff fun h hc => h hc.symm).2 (List.pairwise_cons.2 ⟨?_, hp.clear⟩)
      exact fun e he hc => hclear e he hc.symm

/-- So do all requests. -/
theorem Sound.requestAll (hp : p.Sound) (hrs : ∀ r ∈ rs, r.span.start ≤ r.span.stop) :
    (p.requestAll rs).Sound := by
  induction rs generalizing p with
  | nil => exact hp
  | cons r rs ih =>
    have hr := hrs r List.mem_cons_self
    exact ih (hp.request hr) fun r' h => hrs r' (List.mem_cons_of_mem _ h)

/-- The edits of a patch are those it had and those it has taken, and its text is the same. -/
theorem requestAll_perm (hp : p.Sound) (hrs : ∀ r ∈ rs, r.span.start ≤ r.span.stop) :
    (p.requestAll rs).text = p.text ∧ (p.requestAll rs).edits.Perm (p.taken rs ++ p.edits) := by
  induction rs generalizing p with
  | nil => exact ⟨rfl, .refl _⟩
  | cons r rs ih =>
    have hr := hrs r List.mem_cons_self
    obtain ⟨htext, hperm⟩ := ih (hp.request hr) fun r' h => hrs r' (List.mem_cons_of_mem _ h)
    change ((p.request r).requestAll rs).text = p.text ∧
      ((p.request r).requestAll rs).edits.Perm _
    unfold taken
    obtain ⟨-, hanswer⟩ | ⟨-, -, hanswer⟩ | ⟨-, -, hanswer⟩ := answer_cases hp hr
    · rw [request_of_error hanswer] at htext hperm ⊢
      rw [hanswer]
      exact ⟨htext, hperm⟩
    · rw [request_of_error hanswer] at htext hperm ⊢
      rw [hanswer]
      exact ⟨htext, hperm⟩
    · simp only [request, hanswer] at htext hperm ⊢
      refine ⟨htext, hperm.trans ?_⟩
      exact ((Edit.insert_perm r.edit p.edits).append_left _).trans List.perm_middle

end Patch

/-! ### Carrying out edits -/

namespace Edit

/-- Whether the part of a text that starts at byte `pos` becomes another text when edits are
carried out: the gaps between them stay, and each replacement stands where its span was. -/
inductive Interleaves : Nat → Text → List Edit → Text → Prop
  | nil (pos : Nat) (rest : Text) : Interleaves pos rest [] rest
  | cons {pos : Nat} {e : Edit} {es : List Edit} (gap old : Text) {rest out : Text}
      (hstart : e.span.start = pos + gap.size) (hstop : e.span.stop = e.span.start + old.size)
      (h : Interleaves e.span.stop rest es out) :
      Interleaves pos (gap ++ old ++ rest) (e :: es) (gap ++ e.replacement ++ out)

/-- Edits that follow each other are all carried out by the sweep. -/
theorem interleaves_applyFrom {es : List Edit} {before rest : Text}
    (hwithin : ∀ e ∈ es, e.span.Within (before ++ rest))
    (hstarts : ∀ e ∈ es, before.size ≤ e.span.start)
    (hchain : es.Pairwise fun e f => e.span.stop ≤ f.span.start) :
    Interleaves before.size rest es (applyFrom before.size rest es) := by
  induction es generalizing before rest with
  | nil => exact .nil _ _
  | cons e es ih =>
    obtain ⟨hnext, hchain⟩ := List.pairwise_cons.1 hchain
    have hle := hstarts e List.mem_cons_self
    obtain ⟨x, old, after, htext, hspan⟩ := hwithin e List.mem_cons_self
    have hstart : e.span.start = x.size := by rw [hspan]
    have hstop : e.span.stop = Text.size (x ++ old) := by rw [hspan]
    -- the sweep stands before the span, so a gap reaches from where it stands to the span
    obtain ⟨gap, rfl⟩ : ∃ gap, x = before ++ gap := by
      rw [List.append_assoc] at htext
      exact Text.exists_append_of_size_le htext (by omega)
    obtain rfl : rest = gap ++ old ++ after := by
      simpa [List.append_assoc] using htext
    have hupTo : Text.upTo (e.span.start - before.size) (gap ++ old ++ after) = gap := by
      rw [hstart, Text.size_append, Nat.add_sub_cancel_left, List.append_assoc,
        Text.upTo_size_append]
    have hafter : Text.after (e.span.stop - before.size) (gap ++ old ++ after) = after := by
      rw [hstop, List.append_assoc, Text.size_append, Nat.add_sub_cancel_left,
        Text.after_size_append]
    rw [applyFrom, if_pos hle, hupTo, hafter]
    refine .cons gap old (by rw [hstart, Text.size_append])
      (by rw [hstop, hstart, Text.size_append]) ?_
    rw [hstop]
    refine ih (fun f hf => ?_) (fun f hf => hstop ▸ hnext f hf) hchain
    simpa [List.append_assoc] using hwithin f (List.mem_cons_of_mem _ hf)

/-- The number of bytes from `pos` on, `n` of them, that some edit covers. -/
def covered (pos n : Nat) (es : List Edit) : Nat :=
  (List.range' pos n).countP fun k => es.any fun e => decide (e.span.Holds k)

theorem covered_add (pos m n : Nat) (es : List Edit) :
    covered pos (m + n) es = covered pos m es + covered (pos + m) n es := by
  rw [covered, ← List.range'_append_1, List.countP_append]
  rfl

variable {pos n : Nat} {e : Edit} {es : List Edit} {rest out : Text}

theorem covered_eq_zero (h : ∀ e ∈ es, pos + n ≤ e.span.start) : covered pos n es = 0 := by
  rw [covered, List.countP_eq_zero]
  intro k hk hany
  obtain ⟨e, he, hholds⟩ := List.any_eq_true.1 hany
  have hstart := h e he
  have hk := List.mem_range'_1.1 hk
  have hholds := (of_decide_eq_true hholds).1
  omega

theorem covered_eq_size (h : e.span = ⟨pos, pos + n⟩) : covered pos n (e :: es) = n := by
  have hall : ∀ k ∈ List.range' pos n, ((e :: es).any fun f => decide (f.span.Holds k)) = true := by
    intro k hk
    refine List.any_eq_true.2 ⟨e, List.mem_cons_self, decide_eq_true ?_⟩
    rw [h]
    exact List.mem_range'_1.1 hk
  rw [covered, List.countP_eq_length.2 hall, List.length_range']

theorem covered_cons_of_stop_le (h : e.span.stop ≤ pos) :
    covered pos n (e :: es) = covered pos n es := by
  refine List.countP_congr fun k hk => ?_
  have hk := (List.mem_range'_1.1 hk).1
  have hnot : ¬e.span.Holds k := fun hholds => by
    have := hholds.2
    omega
  simp [hnot]

theorem covered_le (pos n : Nat) (es : List Edit) : covered pos n es ≤ n := by
  have h := List.countP_le_length (p := fun k => es.any fun e => decide (e.span.Holds k))
    (l := List.range' pos n)
  rwa [List.length_range'] at h

theorem covered_perm {es' : List Edit} (h : es.Perm es') : covered pos n es = covered pos n es' := by
  refine List.countP_congr fun k _ => ?_
  simp only [List.any_eq_true, h.mem_iff]

/-- The size of all replacements of some edits. -/
def inserted : List Edit → Nat
  | [] => 0
  | e :: es => e.replacement.size + inserted es

theorem inserted_perm {es' : List Edit} (h : es.Perm es') : inserted es = inserted es' := by
  induction h with
  | nil => rfl
  | cons e _ ih => rw [inserted, inserted, ih]
  | swap e f es => exact Nat.add_left_comm ..
  | trans _ _ ih ih' => exact ih.trans ih'

namespace Interleaves

theorem le_start (h : Interleaves pos rest es out) : ∀ e ∈ es, pos ≤ e.span.start := by
  induction h with
  | nil => exact fun _ he => absurd he List.not_mem_nil
  | cons gap old hstart hstop h ih =>
    intro f hf
    obtain rfl | hf := List.mem_cons.1 hf
    · omega
    · have := ih f hf
      omega

/-- The bytes that are covered go, and those of the replacements come. -/
theorem size_add (h : Interleaves pos rest es out) : out.size + covered pos rest.size es =
    rest.size + inserted es := by
  induction h with
  | nil pos rest => simp [covered_eq_zero, inserted]
  | @cons pos e es gap old rest out hstart hstop h ih =>
    have hgap : covered pos gap.size (e :: es) = 0 := by
      refine covered_eq_zero fun f hf => ?_
      obtain rfl | hf := List.mem_cons.1 hf
      · exact Nat.le_of_eq hstart.symm
      · have := h.le_start f hf
        omega
    have hold : covered (pos + gap.size) old.size (e :: es) = old.size := by
      refine covered_eq_size ?_
      rw [← hstart, ← hstop]
    have hrest : covered (pos + (gap.size + old.size)) rest.size (e :: es) =
        covered e.span.stop rest.size es := by
      rw [← Nat.add_assoc, ← hstart, ← hstop]
      exact covered_cons_of_stop_le (Nat.le_refl _)
    simp only [Text.size_append, inserted]
    rw [covered_add, covered_add, hgap, hold, hrest]
    omega

end Interleaves

end Edit

namespace Patch

variable {p : Patch}

/-- Edits that stand in order and keep clear of each other follow each other. -/
theorem pairwise_stop_le {es : List Edit} {t : Text} (hwithin : ∀ e ∈ es, e.span.Within t)
    (hsorted : es.Pairwise (·.isBefore ·)) (hclear : es.Pairwise fun e f => ¬e.span.Clash f.span) :
    es.Pairwise fun e f => e.span.stop ≤ f.span.start := by
  refine (hsorted.and hclear).imp_of_mem fun he hf h => ?_
  exact Span.stop_le_start (hwithin _ he).start_le_stop (hwithin _ hf).start_le_stop h.2
    (Edit.isBefore_iff.1 h.1)

theorem Sound.interleaves (hp : p.Sound) : Edit.Interleaves 0 p.text p.edits p.apply :=
  @Edit.interleaves_applyFrom p.edits [] p.text hp.within (fun _ _ => Nat.zero_le _)
    (pairwise_stop_le hp.within hp.sorted hp.clear)

/-- **A patch refuses just the requests that are in the way, and carries out each of the others
once.** -/
theorem requestAll_exact (t : Text) (rs : List Request)
    (hrs : ∀ r ∈ rs, r.span.start ≤ r.span.stop) :
    (∀ r : Request, r.span.start ≤ r.span.stop →
      (r.answer ((ofText t).requestAll rs) = .error (.outOfBounds r.span t.size) ↔
        ¬r.span.Within t) ∧
      (r.answer ((ofText t).requestAll rs) = .error (.overlap r.span) ↔
        r.span.Within t ∧ ∃ e ∈ (ofText t).taken rs, e.span.Clash r.span) ∧
      (∀ err, r.answer ((ofText t).requestAll rs) = .error err →
        (err = .outOfBounds r.span t.size ∨ err = .overlap r.span) ∧
        ((ofText t).requestAll (rs ++ [r])).apply = ((ofText t).requestAll rs).apply)) ∧
    (∀ es : List Edit, es.Perm ((ofText t).taken rs) → es.Pairwise (·.isBefore ·) →
      es.IsChain fun e f => e.span.stop ≤ f.span.start) ∧
    (∃ es : List Edit, es.Perm ((ofText t).taken rs) ∧ es.Pairwise (·.isBefore ·) ∧
      Edit.Interleaves 0 t es ((ofText t).requestAll rs).apply) ∧
    ((ofText t).requestAll rs).apply.size = t.size - Edit.covered 0 t.size ((ofText t).taken rs) +
      Edit.inserted ((ofText t).taken rs) := by
  have hsound := (sound_ofText t).requestAll hrs
  obtain ⟨htext, hperm⟩ := requestAll_perm (sound_ofText t) hrs
  rw [ofText, List.append_nil, ← ofText] at hperm
  change ((ofText t).requestAll rs).text = t at htext
  generalize hq : (ofText t).requestAll rs = q at hsound htext hperm ⊢
  have hinterleaves := hsound.interleaves
  rw [htext] at hinterleaves
  refine ⟨fun r hr => ?_, fun es hes hsorted => ?_, ⟨q.edits, hperm, hsound.sorted, hinterleaves⟩, ?_⟩
  · have happend : (ofText t).requestAll (rs ++ [r]) = q.request r := by
      rw [← hq, requestAll, requestAll, List.foldl_append]
      rfl
    have hcases := answer_cases hsound hr
    simp only [htext, hperm.mem_iff] at hcases
    rw [happend]
    refine ⟨?_, ?_, fun err herr => ⟨?_, by rw [request_of_error herr]⟩⟩
    · grind
    · grind
    · grind
  · have hes' := hes.trans hperm.symm
    have hwithin : ∀ e ∈ es, e.span.Within t := fun e he =>
      htext ▸ hsound.within e (hes'.mem_iff.1 he)
    have hclear := (hes'.pairwise_iff fun h hc => h hc.symm).2 hsound.clear
    exact (pairwise_stop_le hwithin hsorted hclear).isChain
  · have hsize := hinterleaves.size_add
    rw [Edit.covered_perm hperm, Edit.inserted_perm hperm] at hsize
    have hle := Edit.covered_le 0 t.size ((ofText t).taken rs)
    omega

/-- Empty edits are taken at the borders of another edit, and refused inside it. -/
theorem requestAll_exact_borders :
    let t : Text := "abcdef".toList
    let rs : List Request := [.remove ⟨2, 4⟩, .replace ⟨4, 4⟩ ['z'], .replace ⟨3, 3⟩ ['y'],
      .replace ⟨2, 2⟩ ['x']]
    (∀ r ∈ rs, r.span.start ≤ r.span.stop) ∧
      ((ofText t).taken rs).map (·.span) = [⟨2, 4⟩, ⟨4, 4⟩, ⟨2, 2⟩] ∧
      ((ofText t).requestAll rs).apply = "abxzef".toList ∧
      (∃ es : List Edit, es.Perm ((ofText t).taken rs) ∧ es.Pairwise (·.isBefore ·) ∧
        Edit.Interleaves 0 t es ((ofText t).requestAll rs).apply) ∧
      ((ofText t).requestAll rs).apply.size = t.size - Edit.covered 0 t.size ((ofText t).taken rs) +
        Edit.inserted ((ofText t).taken rs) := by
  intro t rs
  have hrs : ∀ r ∈ rs, r.span.start ≤ r.span.stop := by decide
  exact ⟨hrs, by decide +kernel, by decide +kernel, (requestAll_exact t rs hrs).2.2⟩

end Patch

end Whittle
