import Whittle.Token.Basic

/-!
# Words with brackets

* `Bracketed`: words in which each bracket is closed after a word of this kind.
* `Bracketed.scan`: a word read with the brackets still to be closed.
* `Bracketed.of_scan`: **a word that leaves nothing to be closed has its brackets matched.**
-/

namespace Whittle

/-- **Words in which brackets are matched**: each is closed by its partner after a word of this
kind. -/
inductive Bracketed (pairs : List (TokenKind × TokenKind)) : List TokenKind → Prop
  | nil : Bracketed pairs []
  | other {k : TokenKind} {w : List TokenKind} (hk : ∀ p ∈ pairs, k ≠ p.1 ∧ k ≠ p.2)
      (hw : Bracketed pairs w) : Bracketed pairs (k :: w)
  | pair {o c : TokenKind} {inner rest : List TokenKind} (hp : (o, c) ∈ pairs)
      (hinner : Bracketed pairs inner) (hrest : Bracketed pairs rest) :
      Bracketed pairs (o :: (inner ++ c :: rest))

/-- Parentheses. -/
def parentheses : List (TokenKind × TokenKind) := [(.openParen, .closeParen)]

/-- Parentheses, brackets and braces. -/
def brackets : List (TokenKind × TokenKind) :=
  parentheses ++ [(.openBracket, .closeBracket), (.openBrace, .closeBrace)]

namespace Bracketed

variable {pairs : List (TokenKind × TokenKind)} {k : TokenKind} {u w st st' : List TokenKind}

theorem append (hu : Bracketed pairs u) (hw : Bracketed pairs w) :
    Bracketed pairs (u ++ w) := by
  induction hu with
  | nil => exact hw
  | other hk _ ih => exact .other hk ih
  | @pair o c inner rest hp hinner _ _ ih =>
    have hword : o :: (inner ++ c :: rest) ++ w = o :: (inner ++ c :: (rest ++ w)) := by simp
    rw [hword]
    exact .pair hp hinner ih

/-- The brackets still to be closed after a token, the next one first. A bracket that closes what is
not open fits nowhere. -/
def step (pairs : List (TokenKind × TokenKind)) (st : List TokenKind) (k : TokenKind) :
    Option (List TokenKind) :=
  match pairs.lookup k with
  | some c => some (c :: st)
  | none =>
    if pairs.any (·.2 = k) then if st.head? = some k then some st.tail else none else some st

/-- The brackets still to be closed after a word. -/
def scan (pairs : List (TokenKind × TokenKind)) (st : List TokenKind) :
    List TokenKind → Option (List TokenKind)
  | [] => some st
  | k :: w => (step pairs st k).bind fun st' => scan pairs st' w

theorem scan_append (u w : List TokenKind) :
    scan pairs st (u ++ w) = (scan pairs st u).bind fun st' => scan pairs st' w := by
  induction u generalizing st with
  | nil => rfl
  | cons k u ih => simp [scan, ih, Option.bind_assoc]

/-- **What a token does**: it opens a bracket, closes the one to be closed next, or is none. -/
theorem step_eq_some (h : step pairs st k = some st') :
    (∃ c, (k, c) ∈ pairs ∧ st' = c :: st) ∨ st = k :: st' ∨
      (∀ p ∈ pairs, k ≠ p.1 ∧ k ≠ p.2) ∧ st' = st := by
  unfold step at h
  split at h
  · next c hlookup =>
    obtain ⟨l, r, hpairs, -⟩ := List.lookup_eq_some_iff.1 hlookup
    exact .inl ⟨c, by simp [hpairs], (Option.some.inj h).symm⟩
  · next hlookup =>
    have hopen : ∀ p ∈ pairs, k ≠ p.1 := by
      rintro p hp rfl
      exact absurd (List.lookup_eq_none_iff.1 hlookup p hp) (by simp)
    split at h
    · split at h
      · next hhead =>
        obtain ⟨st'', rfl⟩ := List.head?_eq_some_iff.1 hhead
        obtain rfl := Option.some.inj h
        exact .inr (.inl rfl)
      · cases h
    · next hclose =>
      refine .inr (.inr ⟨fun p hp => ⟨hopen p hp, ?_⟩, (Option.some.inj h).symm⟩)
      rintro rfl
      exact hclose (List.any_eq_true.2 ⟨p, hp, by simp⟩)

/-- What is to be closed later does not matter to what a word opens and closes itself. -/
theorem scan_frame (h : scan pairs st w = some st') (rest : List TokenKind) :
    scan pairs (st ++ rest) w = some (st' ++ rest) := by
  induction w generalizing st with
  | nil =>
    obtain rfl := Option.some.inj h
    rfl
  | cons k w ih =>
    obtain ⟨mid, hstep, hscan⟩ := Option.bind_eq_some_iff.1 h
    have hstep' : step pairs (st ++ rest) k = some (mid ++ rest) := by
      unfold step at hstep ⊢
      split at hstep
      · obtain rfl := Option.some.inj hstep
        rfl
      · split at hstep
        · split at hstep
          · next hclose hhead =>
            obtain ⟨st'', rfl⟩ := List.head?_eq_some_iff.1 hhead
            obtain rfl := Option.some.inj hstep
            simp [hclose]
          · cases hstep
        · next hclose =>
          obtain rfl := Option.some.inj hstep
          rw [if_neg hclose]
    rw [scan, hstep']
    exact ih hscan

/-- Words that close some brackets one after the other, each after a word in which brackets are
matched. -/
def Closing (pairs : List (TokenKind × TokenKind)) : List TokenKind → List TokenKind → Prop
  | [], w => Bracketed pairs w
  | c :: st, w =>
    ∃ inner rest, w = inner ++ c :: rest ∧ Bracketed pairs inner ∧ Closing pairs st rest

theorem Closing.prepend (hu : Bracketed pairs u) (hw : Closing pairs st w) :
    Closing pairs st (u ++ w) := by
  cases st with
  | nil => exact hu.append hw
  | cons c st =>
    obtain ⟨inner, rest, rfl, hinner, hrest⟩ := hw
    exact ⟨u ++ inner, rest, by simp, hu.append hinner, hrest⟩

theorem closing_of_scan (h : scan pairs st w = some []) : Closing pairs st w := by
  induction w generalizing st with
  | nil =>
    obtain rfl := Option.some.inj h
    exact .nil
  | cons k w ih =>
    obtain ⟨st', hstep, hscan⟩ := Option.bind_eq_some_iff.1 h
    have hclosing := ih hscan
    rcases step_eq_some hstep with ⟨c, hpair, rfl⟩ | rfl | ⟨hother, rfl⟩
    · -- the bracket is closed later, after a matched word
      obtain ⟨inner, rest, rfl, hinner, hrest⟩ := hclosing
      have hword : k :: (inner ++ c :: rest) = (k :: (inner ++ c :: [])) ++ rest := by simp
      rw [hword]
      exact hrest.prepend (.pair hpair hinner .nil)
    · exact ⟨[], w, rfl, .nil, hclosing⟩
    · exact hclosing.prepend (.other hother .nil)

/-- **A word that leaves nothing to be closed has its brackets matched.** -/
theorem of_scan (h : scan pairs [] w = some []) : Bracketed pairs w := closing_of_scan h

end Bracketed

end Whittle
