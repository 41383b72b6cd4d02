import Whittle.Proofs.Tree.Leaves

/-!
# Where tokens end

A token is read by looking at most one character ahead. The runs are put here as questions to the
first character and to the next one, and the words of a text as what stands up to the first
character that belongs to no word.

* `blankRun_cons`, `directiveRun_cons`, `commentRun_cons`, `quotedRun_cons`: the runs, one character
  at a time.
* `exists_word`: a text is a word and what follows it.
* `extent_le`: a token takes no more than there is.
* `Name`: the spellings of identifiers.
* `extent_eq_identifier`: **an identifier is a name that the text does not continue.**
-/

namespace Whittle

namespace Token

variable {c : Char} {t w r : Text}

/-! ### Classes of characters -/

theorem isWordChar_of_isWordStart (h : isWordStart c = true) : isWordChar c = true := by
  simp only [isWordStart, isWordChar, Char.isAlphanum, Bool.or_eq_true] at h ⊢
  obtain (h | h) | h := h
  · exact .inl (.inl (.inl h))
  · exact .inl (.inr h)
  · exact .inr h

/-- The characters that start words are no blanks. -/
theorem isBlank_of_isWordStart (h : isWordStart c = true) : isBlank c = false := by
  rw [← Bool.not_eq_true]
  intro hblank
  simp only [isBlank, Bool.or_eq_true, beq_iff_eq] at hblank
  rcases hblank with ((((rfl | rfl) | rfl) | rfl) | rfl) | rfl <;> exact absurd h (by decide)

/-- The characters that start words are no digits. -/
theorem isDigit_of_isWordStart (h : isWordStart c = true) : c.isDigit = false := by
  rw [← Bool.not_eq_true]
  intro hdigit
  have hle : c.toNat ≤ 57 :=
    UInt32.le_iff_toNat_le.1 (of_decide_eq_true (Bool.and_eq_true_iff.1 hdigit).2)
  have hge : 48 ≤ c.toNat :=
    UInt32.le_iff_toNat_le.1 (of_decide_eq_true (Bool.and_eq_true_iff.1 hdigit).1)
  simp only [isWordStart, Bool.or_eq_true, beq_iff_eq] at h
  rcases h with (h | rfl) | rfl
  · -- letters come after the digits
    obtain h | h := Bool.or_eq_true_iff.1 h
    · have hletter : 65 ≤ c.toNat := UInt32.le_iff_toNat_le.1 (of_decide_eq_true h).1
      omega
    · have hletter : 97 ≤ c.toNat :=
        UInt32.le_iff_toNat_le.1 (of_decide_eq_true (Bool.and_eq_true_iff.1 h).1)
      omega
  · exact absurd hle (by decide)
  · exact absurd hge (by decide)

theorem ne_of_isWordStart (h : isWordStart c = true) {k : Char} (hk : isWordStart k = false) :
    c ≠ k := by
  rintro rfl
  rw [hk] at h
  cases h

/-! ### Runs, one character at a time -/

theorem blankRun_cons (c : Char) (t : Text) : blankRun (c :: t) =
    if isBlank c = true then 1 + blankRun t
    else if c = '\\' ∧ t.head? = some '\n' then 2 + blankRun t.tail
    else 0 := by
  by_cases hpair : c = '\\' ∧ t.head? = some '\n'
  · obtain ⟨rfl, hnext⟩ := hpair
    obtain ⟨t', rfl⟩ := List.head?_eq_some_iff.1 hnext
    simp [blankRun, isBlank]
  · rw [if_neg hpair, blankRun]
    rintro t' rfl rfl
    exact hpair ⟨rfl, rfl⟩

/-- Blanks are counted from any place in them on. -/
theorem blankRun_of_blank (h : isBlank c = true ∨ c = '\\' ∧ t.head? = some '\n') :
    blankRun (c :: t) = 1 + blankRun t := by
  obtain h | ⟨rfl, h⟩ := h
  · have hne : c ≠ '\\' := by
      rintro rfl
      exact absurd h (by decide)
    simp [blankRun, hne, h]
  · obtain ⟨t', rfl⟩ := List.head?_eq_some_iff.1 h
    simp [blankRun, isBlank]
    omega

theorem directiveRun_cons (c : Char) (t : Text) : directiveRun (c :: t) =
    if c = '\\' ∧ t.head? = some '\n' then 2 + directiveRun t.tail
    else if c = '\n' then 0
    else 1 + directiveRun t := by
  by_cases hpair : c = '\\' ∧ t.head? = some '\n'
  · obtain ⟨rfl, hnext⟩ := hpair
    obtain ⟨t', rfl⟩ := List.head?_eq_some_iff.1 hnext
    simp [directiveRun]
  · rw [if_neg hpair, directiveRun]
    rintro t' rfl rfl
    exact hpair ⟨rfl, rfl⟩

theorem commentRun_cons (c : Char) (t : Text) : commentRun (c :: t) =
    if c = '*' ∧ t.head? = some '/' then 2 else 1 + commentRun t := by
  by_cases hpair : c = '*' ∧ t.head? = some '/'
  · obtain ⟨rfl, hnext⟩ := hpair
    obtain ⟨t', rfl⟩ := List.head?_eq_some_iff.1 hnext
    simp [commentRun]
  · rw [if_neg hpair, commentRun]
    rintro t' rfl rfl
    exact hpair ⟨rfl, rfl⟩

theorem quotedRun_cons (quote c : Char) (t : Text) : quotedRun quote (c :: t) =
    if c = '\\' then if t = [] then 1 else 2 + quotedRun quote t.tail
    else if c = '\n' then 0
    else if c = quote then 1
    else 1 + quotedRun quote t := by
  by_cases hslash : c = '\\'
  · subst hslash
    cases t with
    | nil => simp [quotedRun]
    | cons k t => simp [quotedRun]
  · rw [if_neg hslash, quotedRun]
    · exact fun h => absurd h hslash
    · exact fun _ _ h => absurd h hslash

/-! ### No run takes more than there is -/

theorem blankRun_le (t : Text) : blankRun t ≤ t.length := by
  fun_induction blankRun t <;> simp only [List.length_cons, List.length_nil] <;> omega

theorem lineRun_le (t : Text) : lineRun t ≤ t.length := by
  fun_induction lineRun t <;> simp only [List.length_cons, List.length_nil] <;> omega

theorem commentRun_le (t : Text) : commentRun t ≤ t.length := by
  fun_induction commentRun t <;> simp only [List.length_cons, List.length_nil] <;> omega

theorem directiveRun_le (t : Text) : directiveRun t ≤ t.length := by
  fun_induction directiveRun t <;> simp only [List.length_cons, List.length_nil] <;> omega

theorem quotedRun_le (q : Char) (t : Text) : quotedRun q t ≤ t.length := by
  fun_induction quotedRun q t <;> simp only [List.length_cons, List.length_nil] <;> omega

theorem numberRun_le (e : Bool) (t : Text) : numberRun e t ≤ t.length := by
  fun_induction numberRun e t <;> simp only [List.length_cons, List.length_nil] <;> omega

/-! ### Words -/

/-- A word ends before a character that belongs to none. -/
theorem wordRun_append (hw : w.all isWordChar = true) (hr : r.head?.any isWordChar = false) :
    wordRun (w ++ r) = w.length := by
  induction w with
  | nil =>
    cases r with
    | nil => rfl
    | cons c r =>
      rw [List.head?_cons, Option.any_some] at hr
      simp [wordRun, hr]
  | cons c w ih =>
    rw [List.all_cons, Bool.and_eq_true] at hw
    rw [List.cons_append, wordRun, if_pos hw.1, ih hw.2, List.length_cons, Nat.add_comm]

/-- A text is a word, which may be empty, and what follows it. -/
theorem exists_word (t : Text) :
    ∃ w r, t = w ++ r ∧ w.all isWordChar = true ∧ r.head?.any isWordChar = false := by
  induction t with
  | nil => exact ⟨[], [], rfl, rfl, rfl⟩
  | cons c t ih =>
    by_cases hc : isWordChar c = true
    · obtain ⟨w, r, rfl, hw, hr⟩ := ih
      exact ⟨c :: w, r, rfl, by rw [List.all_cons, hc, hw]; rfl, hr⟩
    · exact ⟨[], c :: t, rfl, rfl, by simpa using hc⟩

/-- The literal that a word marks, if a quote stands after it. -/
def markedLiteral (word r : Text) : Option (TokenKind × Nat) :=
  if r.head? = some '\x22' ∧ isOneOf stringMarkers word = true then
    some (.string, 1 + quotedRun '\x22' r.tail)
  else if r.head? = some '\x27' ∧ isOneOf characterMarkers word = true then
    some (.character, 1 + quotedRun '\x27' r.tail)
  else none

theorem markedLiteral_cons (word : Text) (q : Char) (r : Text) : markedLiteral word (q :: r) =
    if q = '\x22' ∧ isOneOf stringMarkers word = true then
      some (.string, 1 + quotedRun '\x22' r)
    else if q = '\x27' ∧ isOneOf characterMarkers word = true then
      some (.character, 1 + quotedRun '\x27' r)
    else none := by
  simp [markedLiteral]

/-- A word is a literal if it marks one, and a word by itself otherwise. -/
theorem wordExtent_append (c : Char) (hw : w.all isWordChar = true)
    (hr : r.head?.any isWordChar = false) : wordExtent c (w ++ r) =
      match markedLiteral (c :: w) r with
      | some (kind, n) => (kind, w.length + n)
      | none => (wordKind (c :: w), w.length) := by
  unfold wordExtent markedLiteral
  simp only [wordRun_append hw hr, List.take_left, List.drop_left]
  cases r with
  | nil => simp
  | cons q r =>
    by_cases hstring : q = '\x22'
    · subst hstring
      by_cases hmarker : isOneOf stringMarkers (c :: w) = true
      · simp [hmarker, Nat.add_assoc]
      · simp [hmarker]
    · by_cases hcharacter : q = '\x27'
      · subst hcharacter
        by_cases hmarker : isOneOf characterMarkers (c :: w) = true
        · simp [hmarker, Nat.add_assoc]
        · simp [hmarker]
      · simp [hstring, hcharacter]

theorem markedLiteral_le {word : Text} {kind : TokenKind} {n : Nat}
    (h : markedLiteral word r = some (kind, n)) : n ≤ r.length := by
  cases r with
  | nil => simp [markedLiteral] at h
  | cons q r =>
    rw [markedLiteral_cons] at h
    have hstring := quotedRun_le '\x22' r
    have hcharacter := quotedRun_le '\x27' r
    rw [List.length_cons]
    split at h
    · have := (Prod.mk.inj (Option.some.inj h)).2
      omega
    · split at h
      · have := (Prod.mk.inj (Option.some.inj h)).2
        omega
      · cases h

theorem wordExtent_le (c : Char) (t : Text) : (wordExtent c t).2 ≤ t.length := by
  obtain ⟨w, r, rfl, hw, hr⟩ := exists_word t
  rw [wordExtent_append c hw hr, List.length_append]
  cases hmarked : markedLiteral (c :: w) r with
  | none => exact Nat.le_add_right _ _
  | some e =>
    have hle := markedLiteral_le hmarked
    exact Nat.add_le_add_left hle _

/-- A token takes no more than there is. -/
theorem extent_le (lineStart : Bool) (c : Char) (t : Text) :
    (extent lineStart c t).2 ≤ t.length := by
  unfold extent
  split
  · exact blankRun_le t
  split
  · exact lineRun_le t
  split
  · next hcomment =>
    have hle := commentRun_le t.tail
    cases t with
    | nil => simp at hcomment
    | cons k t =>
      rw [List.tail_cons] at hle
      simp only [List.tail_cons, List.length_cons]
      omega
  split
  · exact directiveRun_le t
  split
  · exact quotedRun_le c t
  split
  · exact quotedRun_le c t
  split
  · exact numberRun_le false t
  split
  · exact wordExtent_le c t
  · unfold markAt
    cases hfind : marks.find? (·.1.toList.isPrefixOf (c :: t)) with
    | none => exact Nat.zero_le _
    | some m =>
      have hprefix := List.find?_some hfind
      rw [List.isPrefixOf_iff_prefix] at hprefix
      have hle := hprefix.length_le
      rw [List.length_cons] at hle
      simp only [Option.map_some]
      omega
/-- A word is read at any character that may start one. -/
theorem extent_word (lineStart : Bool) (hc : isWordStart c = true) (t : Text) :
    extent lineStart c t = wordExtent c t := by
  have hne {k : Char} (hk : isWordStart k = false) : (c == k) = false :=
    beq_eq_false_iff_ne.2 (ne_of_isWordStart hc hk)
  unfold extent
  simp only [isBlank_of_isWordStart hc, isDigit_of_isWordStart hc,
    hne (k := '\\') (by decide), hne (k := '/') (by decide), hne (k := '#') (by decide),
    hne (k := '\x22') (by decide), hne (k := '\x27') (by decide), hne (k := '.') (by decide), hc,
    Bool.false_and, Bool.or_self, Bool.false_eq_true, if_false, if_true]

/-! ### Names -/

/-- Whether a text is spelled as an identifier and is no reserved word. -/
def isName : Text → Bool
  | [] => false
  | c :: cs => isWordStart c && cs.all isWordChar && wordKind (c :: cs) = .identifier

theorem isName_cons : isName (c :: w) = true ↔
    isWordStart c = true ∧ w.all isWordChar = true ∧ wordKind (c :: w) = .identifier := by
  simp [isName, and_assoc]

/-- The markers of character literals also mark strings. -/
theorem isOneOf_stringMarkers (h : isOneOf stringMarkers w = false) :
    isOneOf characterMarkers w = false := by
  simp only [isOneOf, stringMarkers, characterMarkers, List.any_cons, List.any_nil,
    Bool.or_eq_false_iff] at h ⊢
  exact ⟨h.1, h.2.1, h.2.2.1, trivial⟩

/-- The kind of a token that starts with no character of a word is not that of an identifier. -/
theorem extent_ne_identifier (lineStart : Bool) (hc : isWordStart c = false) (t : Text) :
    (extent lineStart c t).1 ≠ .identifier := by
  have hmarks : ∀ m ∈ marks, m.2 ≠ .identifier := by decide
  unfold extent
  rw [hc]
  split
  · simp
  split
  · simp
  split
  · simp
  split
  · simp
  split
  · simp
  split
  · simp
  split
  · simp
  · simp only [Bool.false_eq_true, if_false]
    unfold markAt
    cases hfind : marks.find? (·.1.toList.isPrefixOf (c :: t)) with
    | none => simp
    | some m =>
      have hm := hmarks m (List.mem_of_find?_eq_some hfind)
      simpa using hm

/-- A marked literal takes the quote at least, and is no identifier. -/
theorem markedLiteral_eq_some {word : Text} {kind : TokenKind} {n : Nat}
    (h : markedLiteral word r = some (kind, n)) : kind ≠ .identifier ∧ 0 < n := by
  unfold markedLiteral at h
  split at h
  · obtain ⟨rfl, rfl⟩ := Prod.mk.inj (Option.some.inj h)
    exact ⟨by decide, by omega⟩
  · split at h
    · obtain ⟨rfl, rfl⟩ := Prod.mk.inj (Option.some.inj h)
      exact ⟨by decide, by omega⟩
    · cases h

/-- **An identifier is a name that the text does not continue**, neither as a word nor as a literal
that the name marks. -/
theorem extent_eq_identifier (lineStart : Bool) :
    extent lineStart c (w ++ r) = (.identifier, w.length) ↔
      isName (c :: w) = true ∧ r.head?.any isWordChar = false ∧ markedLiteral (c :: w) r = none := by
  rw [isName_cons]
  by_cases hc : isWordStart c = true
  · rw [extent_word lineStart hc]
    constructor
    · intro h
      obtain ⟨v, s, hsplit, hv, hs⟩ := exists_word (w ++ r)
      rw [hsplit, wordExtent_append c hv hs] at h
      cases hmarked : markedLiteral (c :: v) s with
      | some e =>
        rw [hmarked] at h
        exact absurd (Prod.mk.inj h).1 (markedLiteral_eq_some hmarked).1
      | none =>
        rw [hmarked] at h
        obtain ⟨hkind, hlength⟩ := Prod.mk.inj h
        obtain ⟨rfl, rfl⟩ := List.append_inj hsplit hlength.symm
        exact ⟨⟨hc, hv, hkind⟩, hs, hmarked⟩
    · rintro ⟨⟨-, hw, hkind⟩, hr, hmarked⟩
      rw [wordExtent_append c hw hr, hmarked]
      simp only [hkind]
  · have hno := extent_ne_identifier lineStart (Bool.eq_false_iff.2 hc) (w ++ r)
    constructor
    · intro h
      rw [h] at hno
      exact absurd rfl hno
    · exact fun h => absurd h.1.1 hc

/-- A token of another kind is no name. -/
theorem isName_of_extent {lineStart : Bool} {kind : TokenKind}
    (h : extent lineStart c (w ++ r) = (kind, w.length)) (hkind : kind ≠ .identifier) :
    isName (c :: w) = false := by
  rw [← Bool.not_eq_true, isName_cons]
  rintro ⟨hc, hw, hname⟩
  obtain ⟨v, s, rfl, hv, hs⟩ := exists_word r
  have hwv : (w ++ v).all isWordChar = true := by rw [List.all_append, hw, hv]; rfl
  rw [extent_word lineStart hc, ← List.append_assoc, wordExtent_append c hwv hs] at h
  cases hmarked : markedLiteral (c :: (w ++ v)) s with
  | some e =>
    rw [hmarked] at h
    have hpos := (markedLiteral_eq_some hmarked).2
    have hlength := (Prod.mk.inj h).2
    rw [List.length_append] at hlength
    omega
  | none =>
    rw [hmarked] at h
    obtain ⟨hkind', hlength⟩ := Prod.mk.inj h
    rw [List.length_append, Nat.add_eq_left, List.length_eq_zero_iff] at hlength
    subst hlength
    rw [List.append_nil, hname] at hkind'
    exact hkind hkind'.symm

end Token

/-- The spelling of an identifier. -/
def Name := { w : Text // Token.isName w = true }

end Whittle
