import Whittle.Proofs.Token.Extent

/-!
# Renaming identifiers

A renaming replaces each identifier by another one, and different ones by different ones. The text
that comes out is split at the same places: whether a token ends before an identifier does not
depend on how the identifier is spelled.

* `Renaming`: an injective map of names that keeps away from the markers of literals.
* `Alike`: texts that differ in the spelling of names only, as far as a token before them can see.
* `extent_alike`: **a token ends at the same place before texts that are alike.**
* `tokens_rename`: **a renamed text has the renamed tokens.**
-/

namespace Whittle

/-- A way to rename identifiers. Different names stay different. A new name marks no literal, so that
it may stand before a quote, and it starts with `$` where the old one does, so that it may stand
after a number. -/
structure Renaming where
  apply : Name → Name
  injective : ∀ v w, apply v = apply w → v = w
  not_marker : ∀ w, Token.isOneOf Token.stringMarkers (apply w).1 = false
  keeps_dollar : ∀ w : Name, w.1.head? = some '$' → (apply w).1.head? = some '$'

namespace Renaming

variable (ρ : Renaming)

/-- A word with its name replaced, if it is one. -/
def word (w : Text) : Text := if h : Token.isName w = true then (ρ.apply ⟨w, h⟩).1 else w

/-- A token with its name replaced, if it is an identifier. -/
def token (k : Token) : Token :=
  if k.kind = .identifier then ⟨.identifier, ρ.word k.text⟩ else k

/-- A text with all its identifiers replaced. -/
def text (t : Text) : Text := Token.concat ((tokens t).map ρ.token)

theorem isName_word (w : Text) : Token.isName (ρ.word w) = Token.isName w := by
  unfold word
  split
  · next h => rw [h, (ρ.apply ⟨w, h⟩).2]
  · rfl

theorem word_injective (v w : Text) (h : ρ.word v = ρ.word w) : v = w := by
  have hname : Token.isName v = Token.isName w := by
    rw [← ρ.isName_word v, ← ρ.isName_word w, h]
  unfold word at h
  by_cases hv : Token.isName v = true
  · have hw : Token.isName w = true := by rw [← hname, hv]
    rw [dif_pos hv, dif_pos hw] at h
    exact congrArg Subtype.val (ρ.injective _ _ (Subtype.ext h))
  · have hw : ¬ Token.isName w = true := by rwa [← hname]
    rwa [dif_neg hv, dif_neg hw] at h

/-- The new name of an identifier. -/
theorem exists_word_eq {c : Char} {cs : Text} (h : Token.isName (c :: cs) = true) :
    ∃ c' cs', ρ.word (c :: cs) = c' :: cs' ∧ Token.isName (c' :: cs') = true ∧
      Token.isOneOf Token.stringMarkers (c' :: cs') = false ∧ (c = '$' → c' = '$') := by
  have hword : ρ.word (c :: cs) = (ρ.apply ⟨c :: cs, h⟩).1 := dif_pos h
  have hname := (ρ.apply ⟨c :: cs, h⟩).2
  have hmarker := ρ.not_marker ⟨c :: cs, h⟩
  have hdollar := ρ.keeps_dollar ⟨c :: cs, h⟩
  cases hnew : (ρ.apply ⟨c :: cs, h⟩).1 with
  | nil =>
    rw [hnew] at hname
    cases hname
  | cons c' cs' =>
    rw [hnew] at hword hname hmarker hdollar
    refine ⟨c', cs', hword, hname, hmarker, fun hc => ?_⟩
    exact Option.some.inj (hdollar (congrArg some hc))

@[simp] theorem kind_token (k : Token) : (ρ.token k).kind = k.kind := by
  unfold token
  split
  · next h => rw [h]
  · rfl

@[simp] theorem isTrivia_token (k : Token) : (ρ.token k).isTrivia = k.isTrivia := by
  rw [Token.isTrivia, Token.isTrivia, kind_token]

end Renaming

namespace Token

/-! ### Texts that are alike -/

/-- Texts that differ in the spelling of names only, up to the first name that they differ in. -/
inductive Alike : Text → Text → Prop where
  | nil : Alike [] []
  | same (c : Char) {r r' : Text} : Alike r r' → Alike (c :: r) (c :: r')
  | word {c c' : Char} {r r' : Text} : isWordStart c = true → isWordStart c' = true →
      (c = '$' → c' = '$') → Alike (c :: r) (c' :: r')

namespace Alike

variable {r r' : Text}

theorem refl (r : Text) : Alike r r := by
  induction r with
  | nil => exact .nil
  | cons c r ih => exact .same c ih

theorem append (x : Text) (h : Alike r r') : Alike (x ++ r) (x ++ r') := by
  induction x with
  | nil => exact h
  | cons c x ih => exact .same c ih

/-- A peek for a character that starts no word sees the same. -/
theorem head? (h : Alike r r') {k : Char} (hk : isWordStart k = false) :
    r'.head? = some k ↔ r.head? = some k := by
  cases h with
  | nil => rfl
  | same c _ => rfl
  | word hc hc' _ =>
    rw [List.head?_cons, List.head?_cons, Option.some_inj, Option.some_inj]
    constructor
    · rintro rfl
      rw [hk] at hc'
      cases hc'
    · rintro rfl
      rw [hk] at hc
      cases hc

theorem eq_nil (h : Alike r r') : r' = [] ↔ r = [] := by
  cases h <;> simp

/-- What stands after a character that starts no word is alike too. -/
theorem tail (h : Alike r r') {k : Char} (hk : isWordStart k = false) (hr : r.head? = some k) :
    Alike r.tail r'.tail := by
  cases h with
  | nil => exact .nil
  | same c h => exact h
  | word hc _ _ => exact absurd (Option.some.inj hr) (ne_of_isWordStart hc hk)

theorem any_head? (h : Alike r r') {p : Char → Bool} (hp : ∀ k, isWordStart k = true → p k = false) :
    r'.head?.any p = r.head?.any p := by
  cases h with
  | nil => rfl
  | same c _ => rfl
  | word hc hc' _ =>
    rw [List.head?_cons, List.head?_cons, Option.any_some, Option.any_some, hp _ hc, hp _ hc']

/-- A word that ends before one text ends before the other. -/
theorem any_isWordChar (h : Alike r r') : r'.head?.any isWordChar = r.head?.any isWordChar := by
  cases h with
  | nil => rfl
  | same c _ => rfl
  | word hc hc' _ =>
    rw [List.head?_cons, List.head?_cons, Option.any_some, Option.any_some,
      isWordChar_of_isWordStart hc, isWordChar_of_isWordStart hc']

theorem isPrefixOf (h : Alike r r') {m : Text} (hm : ∀ k ∈ m, isWordStart k = false) :
    m.isPrefixOf r' = m.isPrefixOf r := by
  induction m generalizing r r' with
  | nil => simp
  | cons k m ih =>
    have hk := hm k List.mem_cons_self
    cases h with
    | nil => rfl
    | same c h => rw [List.isPrefixOf, List.isPrefixOf, ih h fun j hj => hm j (List.mem_cons_of_mem k hj)]
    | word hc hc' _ =>
      have hne {c : Char} (hc : isWordStart c = true) : (k == c) = false := by
        rw [beq_eq_false_iff_ne]
        rintro rfl
        rw [hk] at hc
        cases hc
      rw [List.isPrefixOf, List.isPrefixOf, hne hc, hne hc', Bool.false_and, Bool.false_and]

/-- No mark holds a character that starts a word. -/
theorem markAt (h : Alike r r') : Token.markAt r' = Token.markAt r := by
  have hall : (marks.all fun m => m.1.toList.all fun k => !isWordStart k) = true := by decide
  have hmarks (m : String × TokenKind) (hm : m ∈ marks) : ∀ k ∈ m.1.toList, isWordStart k = false := by
    simpa using List.all_eq_true.1 hall m hm
  have hfind (ms : List (String × TokenKind)) (hms : ms ⊆ marks) :
      ms.find? (·.1.toList.isPrefixOf r') = ms.find? (·.1.toList.isPrefixOf r) := by
    induction ms with
    | nil => rfl
    | cons m ms ih =>
      have hm := h.isPrefixOf (hmarks m (hms List.mem_cons_self))
      rw [List.find?_cons, List.find?_cons, hm, ih fun x hx => hms (List.mem_cons_of_mem m hx)]
  rw [Token.markAt, Token.markAt, hfind marks (List.Subset.refl marks)]

end Alike

/-! ### Runs before texts that are alike -/

section

variable {r r' : Text}

theorem lineRun_alike (h : Alike r r') {cs : Text} (hrun : lineRun (cs ++ r) = cs.length) :
    lineRun (cs ++ r') = cs.length := by
  have hzero (t : Text) : lineRun t = 0 ↔ t = [] ∨ t.head? = some '\n' := by
    cases t with
    | nil => simp [lineRun]
    | cons c t => by_cases hc : c = '\n' <;> simp [lineRun, hc]
  induction cs with
  | nil =>
    rw [List.nil_append, List.length_nil, hzero] at hrun ⊢
    rwa [h.eq_nil, h.head? (by decide)]
  | cons c cs ih =>
    rw [List.cons_append, lineRun, List.length_cons] at hrun ⊢
    by_cases hc : c = '\n'
    · rw [if_pos hc] at hrun
      omega
    · rw [if_neg hc] at hrun ⊢
      rw [ih (by omega)]
      omega

theorem commentRun_alike (h : Alike r r') {cs : Text} (hrun : commentRun (cs ++ r) = cs.length) :
    commentRun (cs ++ r') = cs.length := by
  have hzero (t : Text) : commentRun t = 0 ↔ t = [] := by
    cases t with
    | nil => simp [commentRun]
    | cons c t =>
      rw [commentRun_cons]
      split
      · simp
      · simp
  induction cs with
  | nil =>
    rw [List.nil_append, List.length_nil, hzero] at hrun ⊢
    rwa [h.eq_nil]
  | cons c cs ih =>
    have hnext := (h.append cs).head? (k := '/') (by decide)
    rw [List.cons_append, commentRun_cons, List.length_cons] at hrun ⊢
    simp only [hnext]
    by_cases hend : c = '*' ∧ (cs ++ r).head? = some '/'
    · rwa [if_pos hend] at hrun ⊢
    · rw [if_neg hend] at hrun ⊢
      rw [ih (by omega)]
      omega

/-- Blanks that end before one text end before the other. The claim is for one character less too,
as a backslash takes the newline after it. -/
theorem blankRun_alike (h : Alike r r') :
    ∀ cs : Text, blankRun (cs ++ r) = cs.length → blankRun (cs ++ r') = cs.length
  | [], hrun => by
    have hzero (t : Text) : blankRun t = 0 ↔ t.head?.any isBlank = false ∧
        ¬ (t.head? = some '\\' ∧ t.tail.head? = some '\n') := by
      cases t with
      | nil => simp [blankRun]
      | cons c t => by_cases hc : isBlank c = true <;> simp [blankRun_cons, hc]
    rw [List.nil_append, List.length_nil, hzero] at hrun ⊢
    rw [h.any_head? fun k => isBlank_of_isWordStart, h.head? (by decide)]
    refine ⟨hrun.1, fun hpair => hrun.2 ⟨hpair.1, ?_⟩⟩
    rw [← (h.tail (by decide) hpair.1).head? (by decide)]
    exact hpair.2
  | c :: cs, hrun => by
    have hnext := (h.append cs).head? (k := '\n') (by decide)
    rw [List.cons_append, blankRun_cons, List.length_cons] at hrun ⊢
    simp only [hnext]
    by_cases hblank : isBlank c = true
    · rw [if_pos hblank] at hrun ⊢
      rw [blankRun_alike h cs (by omega)]
      omega
    · rw [if_neg hblank] at hrun ⊢
      by_cases hpair : c = '\\' ∧ (cs ++ r).head? = some '\n'
      · rw [if_pos hpair] at hrun ⊢
        cases cs with
        | nil =>
          rw [List.length_nil] at hrun
          omega
        | cons k cs =>
          rw [List.cons_append, List.tail_cons, List.length_cons] at hrun ⊢
          rw [blankRun_alike h cs (by omega)]
          omega
      · rw [if_neg hpair] at hrun
        omega

theorem directiveRun_alike (h : Alike r r') :
    ∀ cs : Text, directiveRun (cs ++ r) = cs.length → directiveRun (cs ++ r') = cs.length
  | [], hrun => by
    have hzero (t : Text) : directiveRun t = 0 ↔ t = [] ∨ t.head? = some '\n' := by
      cases t with
      | nil => simp [directiveRun]
      | cons c t =>
        by_cases hc : c = '\n'
        · simp [directiveRun_cons, hc]
        · rw [directiveRun_cons]
          split <;> simp [hc]
    rw [List.nil_append, List.length_nil, hzero] at hrun ⊢
    rwa [h.eq_nil, h.head? (by decide)]
  | c :: cs, hrun => by
    have hnext := (h.append cs).head? (k := '\n') (by decide)
    rw [List.cons_append, directiveRun_cons, List.length_cons] at hrun ⊢
    simp only [hnext]
    by_cases hpair : c = '\\' ∧ (cs ++ r).head? = some '\n'
    · rw [if_pos hpair] at hrun ⊢
      cases cs with
      | nil =>
        rw [List.length_nil] at hrun
        omega
      | cons k cs =>
        rw [List.cons_append, List.tail_cons, List.length_cons] at hrun ⊢
        rw [directiveRun_alike h cs (by omega)]
        omega
    · rw [if_neg hpair] at hrun ⊢
      by_cases hc : c = '\n'
      · rw [if_pos hc] at hrun
        omega
      · rw [if_neg hc] at hrun ⊢
        rw [directiveRun_alike h cs (by omega)]
        omega

theorem quotedRun_alike (h : Alike r r') (quote : Char) :
    ∀ cs : Text, quotedRun quote (cs ++ r) = cs.length → quotedRun quote (cs ++ r') = cs.length
  | [], hrun => by
    have hzero (t : Text) : quotedRun quote t = 0 ↔ t = [] ∨ t.head? = some '\n' := by
      cases t with
      | nil => simp [quotedRun]
      | cons c t =>
        by_cases hc : c = '\n'
        · simp [quotedRun_cons, hc]
        · rw [quotedRun_cons]
          split
          · split <;> simp [hc]
          · split <;> simp [hc]
    rw [List.nil_append, List.length_nil, hzero] at hrun ⊢
    rwa [h.eq_nil, h.head? (by decide)]
  | c :: cs, hrun => by
    have hend := (h.append cs).eq_nil
    rw [List.cons_append, quotedRun_cons, List.length_cons] at hrun ⊢
    simp only [hend]
    by_cases hslash : c = '\\'
    · rw [if_pos hslash] at hrun ⊢
      by_cases hlast : cs ++ r = []
      · rwa [if_pos hlast] at hrun ⊢
      · rw [if_neg hlast] at hrun ⊢
        cases cs with
        | nil =>
          rw [List.length_nil] at hrun
          omega
        | cons k cs =>
          rw [List.cons_append, List.tail_cons, List.length_cons] at hrun ⊢
          rw [quotedRun_alike h quote cs (by omega)]
          omega
    · rw [if_neg hslash] at hrun ⊢
      by_cases hc : c = '\n'
      · rw [if_pos hc] at hrun
        omega
      · rw [if_neg hc] at hrun ⊢
        by_cases hquote : c = quote
        · rwa [if_pos hquote] at hrun ⊢
        · rw [if_neg hquote] at hrun ⊢
          rw [quotedRun_alike h quote cs (by omega)]
          omega

/-- A number ends before one text if it ends before another that it goes on into whenever it goes on
into the first. -/
theorem numberRun_congr (h : ∀ e, numberRun e r = 0 → numberRun e r' = 0) {cs : Text} {e : Bool}
    (hrun : numberRun e (cs ++ r) = cs.length) : numberRun e (cs ++ r') = cs.length := by
  induction cs generalizing e with
  | nil => exact h e hrun
  | cons c cs ih =>
    rw [List.cons_append, numberRun, List.length_cons] at hrun ⊢
    by_cases hc : isNumberChar c = true
    · rw [if_pos hc] at hrun ⊢
      rw [ih (by omega)]
      omega
    · rw [if_neg hc] at hrun ⊢
      by_cases hsign : (e && (c == '+' || c == '-')) = true
      · rw [if_pos hsign] at hrun ⊢
        rw [ih (by omega)]
        omega
      · rw [if_neg hsign] at hrun
        omega

theorem numberRun_alike (h : Alike r r') (e : Bool) (hrun : numberRun e r = 0) :
    numberRun e r' = 0 := by
  cases h with
  | nil => rfl
  | same c _ =>
    rw [numberRun] at hrun ⊢
    split at hrun
    · omega
    · split at hrun
      · omega
      · next hc hsign => rw [if_neg hc, if_neg hsign]
  | @word c c' s s' hc hc' hdollar =>
    -- of the characters that start words, only the dollar sign is none of numbers
    have hc'' : c' = '$' := by
      refine hdollar ?_
      rw [numberRun] at hrun
      by_cases hnumber : isNumberChar c = true
      · rw [if_pos hnumber] at hrun
        omega
      · simp only [isWordStart, isNumberChar, Char.isAlphanum, Bool.or_eq_true, beq_iff_eq] at hc hnumber
        grind
    subst hc''
    cases e <;> simp [numberRun, isNumberChar, Char.isAlphanum]

/-! ### Tokens before texts that are alike -/

theorem markedLiteral_eq_none (h : Alike r r') {word : Text} (hnone : markedLiteral word r = none) :
    markedLiteral word r' = none := by
  unfold markedLiteral at hnone ⊢
  simp only [h.head? (k := '\x22') (by decide), h.head? (k := '\x27') (by decide)]
  by_cases hstring : r.head? = some '\x22' ∧ isOneOf stringMarkers word = true
  · rw [if_pos hstring] at hnone
    cases hnone
  · rw [if_neg hstring] at hnone ⊢
    by_cases hcharacter : r.head? = some '\x27' ∧ isOneOf characterMarkers word = true
    · rw [if_pos hcharacter] at hnone
      cases hnone
    · rw [if_neg hcharacter]

theorem markedLiteral_alike (h : Alike r r') {word cs : Text} {kind : TokenKind}
    (hsome : markedLiteral word (cs ++ r) = some (kind, cs.length)) :
    markedLiteral word (cs ++ r') = some (kind, cs.length) := by
  cases cs with
  | nil => exact absurd (markedLiteral_eq_some hsome).2 (Nat.lt_irrefl 0)
  | cons q cs =>
    rw [List.cons_append, markedLiteral_cons, List.length_cons] at hsome ⊢
    by_cases hstring : q = '\x22' ∧ isOneOf stringMarkers word = true
    · rw [if_pos hstring] at hsome ⊢
      obtain ⟨hkind, hlength⟩ := Prod.mk.inj (Option.some.inj hsome)
      rw [quotedRun_alike h _ cs (by omega), hkind, Nat.add_comm]
    · rw [if_neg hstring] at hsome ⊢
      by_cases hcharacter : q = '\x27' ∧ isOneOf characterMarkers word = true
      · rw [if_pos hcharacter] at hsome ⊢
        obtain ⟨hkind, hlength⟩ := Prod.mk.inj (Option.some.inj hsome)
        rw [quotedRun_alike h _ cs (by omega), hkind, Nat.add_comm]
      · rw [if_neg hcharacter] at hsome
        cases hsome

/-- A reserved word or a marked literal ends at the same place. -/
theorem wordExtent_alike (h : Alike r r') {c : Char} {cs : Text} {kind : TokenKind}
    (hext : wordExtent c (cs ++ r) = (kind, cs.length)) :
    wordExtent c (cs ++ r') = (kind, cs.length) := by
  obtain ⟨w, s, hsplit, hw, hs⟩ := exists_word (cs ++ r)
  rw [hsplit, wordExtent_append c hw hs] at hext
  cases hmarked : markedLiteral (c :: w) s with
  | none =>
    rw [hmarked] at hext
    obtain ⟨hkind, hlength⟩ := Prod.mk.inj hext
    obtain ⟨rfl, rfl⟩ := List.append_inj hsplit hlength.symm
    have hr' : r'.head?.any isWordChar = false := by rw [h.any_isWordChar, hs]
    rw [wordExtent_append c hw hr', markedLiteral_eq_none h hmarked]
    exact hext
  | some e =>
    -- the token goes beyond the word, through the quote
    rw [hmarked] at hext
    obtain ⟨hkind, hlength⟩ := Prod.mk.inj hext
    have hpos := (markedLiteral_eq_some hmarked).2
    obtain ⟨v, rfl, rfl⟩ : ∃ v, cs = w ++ v ∧ s = v ++ r := by
      obtain ⟨v, hv, hs'⟩ | ⟨v, hv, hs'⟩ := List.append_eq_append_iff.1 hsplit
      · rw [hv, List.length_append] at hlength
        omega
      · exact ⟨v, hv, hs'⟩
    obtain ⟨kind', n⟩ := e
    rw [List.length_append, Nat.add_left_cancel_iff] at hlength
    subst hkind hlength
    have hs' : (v ++ r').head?.any isWordChar = false := by
      rw [(h.append v).any_isWordChar, hs]
    rw [List.append_assoc, wordExtent_append c hw hs', markedLiteral_alike h hmarked,
      List.length_append]

/-- **A token ends at the same place before texts that are alike.** -/
theorem extent_alike (h : Alike r r') {lineStart : Bool} {c : Char} {cs : Text} {kind : TokenKind}
    (hext : extent lineStart c (cs ++ r) = (kind, cs.length)) :
    extent lineStart c (cs ++ r') = (kind, cs.length) := by
  have hahead := h.append cs
  have hpeek {k : Char} (hk : isWordStart k = false) :
      ((cs ++ r').head? == some k) = ((cs ++ r).head? == some k) := by
    rw [Bool.eq_iff_iff, beq_iff_eq, beq_iff_eq, hahead.head? hk]
  have hdigit : (cs ++ r').head?.any Char.isDigit = (cs ++ r).head?.any Char.isDigit :=
    hahead.any_head? fun k => isDigit_of_isWordStart
  have hmark := (hahead.append [c]).markAt
  rw [List.singleton_append, List.singleton_append] at hmark
  unfold extent at hext ⊢
  rw [hpeek (by decide), hpeek (by decide), hpeek (by decide), hdigit, hmark]
  -- both sides now ask the same questions in the same order
  split at hext
  · next hcond =>
    obtain ⟨hk, hlength⟩ := Prod.mk.inj hext
    rw [if_pos hcond, blankRun_alike h cs hlength, hk]
  next hblank =>
  rw [if_neg hblank]
  split at hext
  · next hcond =>
    obtain ⟨hk, hlength⟩ := Prod.mk.inj hext
    rw [if_pos hcond, lineRun_alike h hlength, hk]
  next hline =>
  rw [if_neg hline]
  split at hext
  · next hcond =>
    obtain ⟨hk, hlength⟩ := Prod.mk.inj hext
    rw [if_pos hcond]
    cases cs with
    | nil =>
      rw [List.length_nil] at hlength
      omega
    | cons k cs =>
      rw [List.cons_append, List.tail_cons, List.length_cons] at hlength ⊢
      rw [commentRun_alike h (by omega), hk, Nat.add_comm]
  next hcomment =>
  rw [if_neg hcomment]
  split at hext
  · next hcond =>
    obtain ⟨hk, hlength⟩ := Prod.mk.inj hext
    rw [if_pos hcond, directiveRun_alike h cs hlength, hk]
  next hdirective =>
  rw [if_neg hdirective]
  split at hext
  · next hcond =>
    obtain ⟨hk, hlength⟩ := Prod.mk.inj hext
    rw [if_pos hcond, quotedRun_alike h c cs hlength, hk]
  next hstring =>
  rw [if_neg hstring]
  split at hext
  · next hcond =>
    obtain ⟨hk, hlength⟩ := Prod.mk.inj hext
    rw [if_pos hcond, quotedRun_alike h c cs hlength, hk]
  next hcharacter =>
  rw [if_neg hcharacter]
  split at hext
  · next hcond =>
    obtain ⟨hk, hlength⟩ := Prod.mk.inj hext
    rw [if_pos hcond, numberRun_congr (fun e => numberRun_alike h e) hlength, hk]
  next hnumber =>
  rw [if_neg hnumber]
  split at hext
  · next hcond => rw [if_pos hcond, wordExtent_alike h hext]
  · next hcond => rwa [if_neg hcond]

end

/-! ### Renamed texts -/

/-- The tokens of a text come out again when their text is split. -/
theorem split_concat_tokens (t : Text) : split true (concat (tokens t)) = tokens t := by
  rw [concat_tokens]
  rfl

/-- Tokens come out again when their text is split if the first one does and the others do. -/
theorem split_concat_cons {lineStart : Bool} {k : Token} {ks : List Token} {c : Char} {cs : Text}
    (hk : k.text = c :: cs) : split lineStart (concat (k :: ks)) = k :: ks ↔
      extent lineStart c (cs ++ concat ks) = (k.kind, cs.length) ∧
        split (k.endsAtLineStart lineStart) (concat ks) = ks := by
  obtain ⟨kind, text⟩ := k
  obtain rfl : text = c :: cs := hk
  have hconcat : concat (⟨kind, c :: cs⟩ :: ks) = c :: (cs ++ concat ks) := rfl
  rw [hconcat, split]
  simp only [List.cons.injEq, Token.mk.injEq, true_and]
  constructor
  · rintro ⟨⟨hkind, htake⟩, hsplit⟩
    have hle := extent_le lineStart c (cs ++ concat ks)
    have hlength : (extent lineStart c (cs ++ concat ks)).2 = cs.length := by
      have h := congrArg List.length htake
      rwa [List.length_take, Nat.min_eq_left hle] at h
    rw [htake, hkind, hlength, List.drop_left] at hsplit
    exact ⟨Prod.ext hkind hlength, hsplit⟩
  · rintro ⟨hext, hsplit⟩
    rw [hext]
    simp only [List.take_left, List.drop_left, hsplit, and_self]

theorem exists_cons_of_split {lineStart : Bool} {k : Token} {ks : List Token} {t : Text}
    (h : split lineStart t = k :: ks) : ∃ c cs, k.text = c :: cs := by
  cases t with
  | nil => simp [split] at h
  | cons c t =>
    rw [split] at h
    obtain ⟨rfl, -⟩ := List.cons.inj h
    exact ⟨c, _, rfl⟩

/-- **The identifiers of a text are its tokens that are names.** -/
theorem kind_eq_identifier {lineStart : Bool} {ks : List Token}
    (h : split lineStart (concat ks) = ks) :
    ∀ k ∈ ks, k.kind = .identifier ↔ isName k.text = true := by
  induction ks generalizing lineStart with
  | nil => simp
  | cons k ks ih =>
    obtain ⟨c, cs, hk⟩ := exists_cons_of_split h
    obtain ⟨hext, hsplit⟩ := (split_concat_cons hk).1 h
    intro j hj
    obtain rfl | hj := List.mem_cons.1 hj
    · rw [hk]
      constructor
      · intro hkind
        rw [hkind, extent_eq_identifier] at hext
        exact hext.1
      · intro hname
        by_contra hkind
        rw [isName_of_extent hext hkind] at hname
        cases hname
    · exact ih hsplit j hj

/-- Renaming changes a text into one that is alike. -/
theorem alike_rename (ρ : Renaming) {lineStart : Bool} {ks : List Token}
    (h : split lineStart (concat ks) = ks) : Alike (concat ks) (concat (ks.map ρ.token)) := by
  induction ks generalizing lineStart with
  | nil => exact .nil
  | cons k ks ih =>
    obtain ⟨c, cs, hk⟩ := exists_cons_of_split h
    obtain ⟨hext, hsplit⟩ := (split_concat_cons hk).1 h
    by_cases hkind : k.kind = .identifier
    · rw [hkind, extent_eq_identifier] at hext
      obtain ⟨c', cs', hnew, hname, -, hdollar⟩ := ρ.exists_word_eq hext.1
      have hrenamed : (ρ.token k).text = c' :: cs' := by
        rw [Renaming.token, if_pos hkind, hk, hnew]
      have hconcat (j : Token) (js : List Token) : concat (j :: js) = j.text ++ concat js := rfl
      rw [List.map_cons, hconcat, hconcat, hk, hrenamed]
      exact .word (isName_cons.1 hext.1).1 (isName_cons.1 hname).1 hdollar
    · have hsame : ρ.token k = k := by rw [Renaming.token, if_neg hkind]
      have hconcat (js : List Token) : concat (k :: js) = k.text ++ concat js := rfl
      rw [List.map_cons, hsame, hconcat, hconcat]
      exact (ih hsplit).append k.text

theorem split_rename (ρ : Renaming) {lineStart : Bool} {ks : List Token}
    (h : split lineStart (concat ks) = ks) :
    split lineStart (concat (ks.map ρ.token)) = ks.map ρ.token := by
  induction ks generalizing lineStart with
  | nil => simpa using h
  | cons k ks ih =>
    obtain ⟨c, cs, hk⟩ := exists_cons_of_split h
    obtain ⟨hext, hsplit⟩ := (split_concat_cons hk).1 h
    have halike := alike_rename ρ hsplit
    rw [List.map_cons]
    by_cases hkind : k.kind = .identifier
    · rw [hkind, extent_eq_identifier] at hext
      obtain ⟨hname, hend, -⟩ := hext
      obtain ⟨c', cs', hnew, hname', hmarker, -⟩ := ρ.exists_word_eq hname
      have hrenamed : ρ.token k = ⟨.identifier, c' :: cs'⟩ := by
        rw [Renaming.token, if_pos hkind, hk, hnew]
      have hliteral : markedLiteral (c' :: cs') (concat (ks.map ρ.token)) = none := by
        simp [markedLiteral, hmarker, isOneOf_stringMarkers hmarker]
      have hflag (w : Text) : (⟨.identifier, w⟩ : Token).endsAtLineStart lineStart =
          k.endsAtLineStart lineStart := by simp [endsAtLineStart, hkind]
      rw [hrenamed, split_concat_cons rfl, hflag, extent_eq_identifier, halike.any_isWordChar]
      exact ⟨⟨hname', hend, hliteral⟩, ih hsplit⟩
    · have hsame : ρ.token k = k := by rw [Renaming.token, if_neg hkind]
      rw [hsame, split_concat_cons hk]
      exact ⟨extent_alike halike hext, ih hsplit⟩

end Token

/-- **A renamed text has the renamed tokens.** -/
theorem tokens_rename (ρ : Renaming) (t : Text) : tokens (ρ.text t) = (tokens t).map ρ.token :=
  Token.split_rename ρ (Token.split_concat_tokens t)

end Whittle
