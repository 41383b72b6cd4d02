import Whittle.Proofs.Token.Renaming

/-!
# Tokens with blanks between them

A token that no character after it could belong to is read as itself before a blank. Tokens of that
sort, written with one blank between any two of them, come out again when the text is split.

* `Token.Solid`: a token that is read as itself before a blank and at the end of a text.
* `Token.solid_name`, `Token.solid_number`, `Token.solid_reserved`, `Token.solid_mark`: names,
  numbers, reserved words and marks are solid.
* `Token.significant_tokens_spaced`: **the tokens of a text of solid tokens with blanks between
  them are these tokens.**
-/

namespace Whittle

namespace Token

variable {c : Char} {t w r : Text} {lineStart : Bool}

/-! ### Solid tokens -/

/-- Whether a text is at its end or goes on with a blank. -/
def Spaced (r : Text) : Prop := r = [] ∨ ∃ r', r = ' ' :: r'

/-- Whether a token is significant and is read as itself before a blank and at the end of a text. -/
structure Solid (k : Token) : Prop where
  significant : k.isTrivia = false
  reads : ∃ c cs, k.text = c :: cs ∧
    ∀ lineStart r, Spaced r → extent lineStart c (cs ++ r) = (k.kind, cs.length)

theorem Spaced.any_isWordChar (h : Spaced r) : r.head?.any isWordChar = false := by
  obtain rfl | ⟨r, rfl⟩ := h
  · rfl
  · rw [List.head?_cons, Option.any_some]
    decide

/-- A word ends before a blank. -/
theorem extent_word_spaced (hc : isWordStart c = true) (hw : w.all isWordChar = true)
    (hr : Spaced r) : extent lineStart c (w ++ r) = (wordKind (c :: w), w.length) := by
  have hmarked : markedLiteral (c :: w) r = none := by
    obtain rfl | ⟨r, rfl⟩ := hr <;> simp [markedLiteral]
  rw [extent_word lineStart hc, wordExtent_append c hw hr.any_isWordChar, hmarked]

theorem solid_name (w : Name) : Solid ⟨.identifier, w.1⟩ := by
  obtain ⟨w, hname⟩ := w
  cases w with
  | nil => cases hname
  | cons c w =>
    obtain ⟨hc, hw, hkind⟩ := isName_cons.1 hname
    refine ⟨rfl, c, w, rfl, fun _ r hr => ?_⟩
    rw [extent_word_spaced hc hw hr, hkind]

/-- Whether a text is a word of a kind. -/
def isWordOf (kind : TokenKind) : Text → Bool
  | [] => false
  | c :: w => isWordStart c && w.all isWordChar && wordKind (c :: w) = kind && !kind.isTrivia

/-- Reserved words are words. -/
theorem reserved_words : (reserved.all fun m => isWordOf m.2 m.1.toList) = true := by
  decide +kernel

theorem solid_reserved {m : String × TokenKind} (hm : m ∈ reserved) : Solid ⟨m.2, m.1.toList⟩ := by
  have hword := List.all_eq_true.1 reserved_words m hm
  cases htext : m.1.toList with
  | nil => simp [htext, isWordOf] at hword
  | cons c w =>
    simp only [htext, isWordOf, Bool.and_eq_true, decide_eq_true_eq, Bool.not_eq_true'] at hword
    obtain ⟨⟨⟨hc, hw⟩, hkind⟩, hsig⟩ := hword
    refine ⟨hsig, c, w, rfl, fun _ r hr => ?_⟩
    rw [extent_word_spaced hc hw hr, hkind]

/-! ### Numbers -/

/-- Whether a text is spelled as a number. -/
def isNumber : Text → Bool
  | [] => false
  | c :: cs => (c.isDigit || (c == '.' && cs.head?.any Char.isDigit)) &&
      numberRun false cs = cs.length

/-- A number starts with none of the characters that start trivia, strings and characters. -/
theorem extent_number (hc : (c.isDigit || (c == '.' && t.head?.any Char.isDigit)) = true) :
    extent lineStart c t = (.number, numberRun false t) := by
  have hne {k : Char} (hk : k.isDigit = false) (hdot : k ≠ '.') : (c == k) = false := by
    rw [beq_eq_false_iff_ne]
    rintro rfl
    simp [hk, hdot] at hc
  have hblank : isBlank c = false := by
    simp [isBlank, hne (k := ' ') (by decide) (by decide), hne (k := '\t') (by decide) (by decide),
      hne (k := '\n') (by decide) (by decide), hne (k := '\r') (by decide) (by decide),
      hne (k := '\x0b') (by decide) (by decide), hne (k := '\x0c') (by decide) (by decide)]
  unfold extent
  simp only [hblank, hne (k := '\\') (by decide) (by decide),
    hne (k := '/') (by decide) (by decide), hne (k := '#') (by decide) (by decide),
    hne (k := '\x22') (by decide) (by decide), hne (k := '\x27') (by decide) (by decide), hc,
    Bool.false_and, Bool.or_self, Bool.false_eq_true, if_false, if_true]

theorem solid_number (hw : isNumber w = true) : Solid ⟨.number, w⟩ := by
  cases w with
  | nil => cases hw
  | cons c w =>
    obtain ⟨hc, hrun⟩ := Bool.and_eq_true_iff.1 hw
    refine ⟨rfl, c, w, rfl, fun _ r hr => ?_⟩
    have hc' : (c.isDigit || (c == '.' && (w ++ r).head?.any Char.isDigit)) = true := by
      cases w with
      | nil =>
        have hdigit : c.isDigit = true := by simpa using hc
        rw [hdigit, Bool.true_or]
      | cons k w => exact hc
    have hend : ∀ e, numberRun e [] = 0 → numberRun e r = 0 := by
      intro e _
      have hblank : isNumberChar ' ' = false := by decide
      obtain rfl | ⟨r, rfl⟩ := hr <;> simp [numberRun, hblank]
    rw [extent_number hc', numberRun_congr hend (by simpa using hrun)]

/-! ### Marks -/

/-- A blank ends a mark. -/
theorem isPrefixOf_spaced {m : Text} (hm : ' ' ∉ m) (hr : Spaced r) :
    m.isPrefixOf (t ++ r) = m.isPrefixOf t := by
  induction m generalizing t with
  | nil => simp
  | cons k m ih =>
    have hk : k ≠ ' ' := fun h => hm (h ▸ List.mem_cons_self)
    have hm' : ' ' ∉ m := fun h => hm (List.mem_cons_of_mem k h)
    cases t with
    | nil => obtain rfl | ⟨r, rfl⟩ := hr <;> simp [List.isPrefixOf, hk]
    | cons c t => rw [List.cons_append, List.isPrefixOf, List.isPrefixOf, ih hm']

theorem markAt_spaced (hr : Spaced r) : markAt (t ++ r) = markAt t := by
  have hblank : ∀ m ∈ marks, ' ' ∉ m.1.toList := by decide
  have hfind (ms : List (String × TokenKind)) (hms : ∀ m ∈ ms, ' ' ∉ m.1.toList) :
      ms.find? (·.1.toList.isPrefixOf (t ++ r)) = ms.find? (·.1.toList.isPrefixOf t) := by
    induction ms with
    | nil => rfl
    | cons m ms ih =>
      obtain ⟨hm, hrest⟩ := List.forall_mem_cons.1 hms
      rw [List.find?_cons, List.find?_cons, isPrefixOf_spaced hm hr, ih hrest]
  rw [markAt, hfind marks hblank, markAt]

/-- Whether a text is a mark of a kind, the longest one it starts with, and starts no token of
another sort. -/
def isMarkOf (kind : TokenKind) : Text → Bool
  | [] => false
  | c :: cs => markAt (c :: cs) = some (kind, cs.length + 1) && !kind.isTrivia &&
      !(isBlank c || c == '\\' || c == '#' || c == '\x22' || c == '\x27' || c.isDigit ||
        isWordStart c || (c == '/' && (cs.head? == some '/' || cs.head? == some '*')) ||
        (c == '.' && cs.head?.any Char.isDigit))

theorem marks_read : (marks.all fun m => isMarkOf m.2 m.1.toList) = true := by
  decide +kernel

theorem solid_mark {m : String × TokenKind} (hm : m ∈ marks) : Solid ⟨m.2, m.1.toList⟩ := by
  have hread := List.all_eq_true.1 marks_read m hm
  cases htext : m.1.toList with
  | nil => simp [htext, isMarkOf] at hread
  | cons c cs =>
    simp only [htext, isMarkOf, Bool.and_eq_true, decide_eq_true_eq, Bool.not_eq_true',
      Bool.or_eq_false_iff] at hread
    obtain ⟨⟨hmark, hsig⟩, ⟨hstart, hcomment⟩, hdot⟩ := hread
    obtain ⟨⟨⟨⟨⟨⟨hblank, hslash⟩, hhash⟩, hquote⟩, hapostrophe⟩, hdigit⟩, hword⟩ := hstart
    refine ⟨hsig, c, cs, rfl, fun lineStart r hr => ?_⟩
    -- a blank after the mark starts no comment and no fraction
    have hhead {k : Char} (hk : k ≠ ' ') :
        ((cs ++ r).head? == some k) = (cs.head? == some k) := by
      cases cs with
      | nil => obtain rfl | ⟨r, rfl⟩ := hr <;> simp [hk.symm]
      | cons _ _ => rfl
    have hfraction : (cs ++ r).head?.any Char.isDigit = cs.head?.any Char.isDigit := by
      cases cs with
      | nil => obtain rfl | ⟨r, rfl⟩ := hr <;> rfl
      | cons _ _ => rfl
    rw [Bool.and_or_distrib_left, Bool.or_eq_false_iff] at hcomment
    have hmark' : markAt (c :: (cs ++ r)) = some (m.2, cs.length + 1) := by
      rw [← List.cons_append, markAt_spaced hr, hmark]
    unfold extent
    simp only [hblank, hslash, hhash, hquote, hapostrophe, hdigit, hword,
      hhead (k := '/') (by decide), hhead (k := '*') (by decide), hfraction, hcomment.1, hcomment.2,
      hdot, hmark', Bool.false_and, Bool.or_self, Bool.false_eq_true, if_false, Nat.add_sub_cancel]

/-! ### Texts of tokens with blanks between them -/

/-- The blank between two tokens. -/
def blank : Token := ⟨.whitespace, [' ']⟩

/-- A solid token does not start with blanks. -/
theorem Solid.blankRun {k : Token} (hk : Solid k) {r : Text} (hr : Spaced r) :
    Token.blankRun (k.text ++ r) = 0 := by
  obtain ⟨hsig, c, cs, htext, hreads⟩ := hk
  have hext := hreads false r hr
  rw [htext, List.cons_append, blankRun_cons]
  unfold extent at hext
  split at hext
  · -- a token that starts with a blank is trivia
    rw [isTrivia, ← (Prod.mk.inj hext).1] at hsig
    cases hsig
  · next hblank =>
    simp only [Bool.or_eq_true, Bool.and_eq_true, beq_iff_eq, not_or] at hblank
    rw [if_neg hblank.1, if_neg hblank.2]

/-- The texts of some tokens with blanks between them. -/
theorem concat_intersperse (ks : List Token) :
    concat (ks.intersperse blank) = [' '].intercalate (ks.map (·.text)) := by
  induction ks with
  | nil => rfl
  | cons k ks ih =>
    cases ks with
    | nil => simp [concat]
    | cons k' ks =>
      rw [List.map_cons, List.map_cons, List.intercalate_cons_cons, List.intersperse_cons_cons,
        ← List.map_cons, ← ih]
      simp [concat, blank]

theorem spaced_concat (ks : List Token) : Spaced (concat (blank :: ks)) := .inr ⟨_, rfl⟩

/-- Solid tokens with blanks between them come out again when their text is split. -/
theorem split_intersperse {ks : List Token} (h : ∀ k ∈ ks, Solid k) (lineStart : Bool) :
    split lineStart (concat (ks.intersperse blank)) = ks.intersperse blank := by
  induction ks generalizing lineStart with
  | nil => rw [List.intersperse_nil, concat, List.flatMap_nil, split]
  | cons k ks ih =>
    have hk := h k List.mem_cons_self
    obtain ⟨c, cs, htext, hreads⟩ := hk.reads
    have hrest := fun b => ih (fun k hk => h k (List.mem_cons_of_mem _ hk)) b
    cases ks with
    | nil =>
      rw [List.intersperse_singleton, split_concat_cons htext]
      exact ⟨hreads _ _ (.inl rfl), by rw [concat, List.flatMap_nil, split]⟩
    | cons k' ks =>
      have hk' := h k' (by simp)
      -- the next token stands alone or before another blank
      have hnext : ∃ ms, (k' :: ks).intersperse blank = k' :: ms ∧ Spaced (concat ms) := by
        cases ks with
        | nil => exact ⟨[], rfl, .inl rfl⟩
        | cons k'' ks => exact ⟨_, rfl, spaced_concat _⟩
      obtain ⟨ms, hms, hspaced⟩ := hnext
      have hblank : extent (k.endsAtLineStart lineStart) ' ' (concat (k' :: ms)) =
          (.whitespace, 0) := by
        have hrun : Token.blankRun (concat (k' :: ms)) = 0 := hk'.blankRun hspaced
        have hspace : isBlank ' ' = true := by decide
        unfold extent
        rw [hspace, hrun]
        rfl
      rw [List.intersperse_cons_cons, split_concat_cons htext]
      refine ⟨hreads _ _ (spaced_concat _), ?_⟩
      have htext' : blank.text = ' ' :: [] := rfl
      rw [split_concat_cons htext', hrest]
      rw [hms]
      exact ⟨hblank, rfl⟩

theorem significant_intersperse {ks : List Token} (h : ∀ k ∈ ks, Solid k) :
    Token.significant (ks.intersperse blank) = ks := by
  induction ks with
  | nil => rfl
  | cons k ks ih =>
    have hk : k.isTrivia = false := (h k List.mem_cons_self).significant
    have hblank : blank.isTrivia = true := rfl
    have hrest := ih fun k hk => h k (List.mem_cons_of_mem _ hk)
    cases ks with
    | nil => simp [hk]
    | cons k' ks => simp only [List.intersperse_cons_cons, significant_cons, hk, hblank, hrest,
        Bool.false_eq_true, if_false, if_true]

/-- **The significant tokens of a text that is written with solid tokens and blanks between them
are these tokens.** -/
theorem significant_tokens_spaced {ks : List Token} (h : ∀ k ∈ ks, Solid k) :
    Token.significant (tokens ([' '].intercalate (ks.map (·.text)))) = ks := by
  rw [← concat_intersperse, tokens, split_intersperse h, significant_intersperse h]

end Token

/-- The spelling of a number. -/
def Numeral := { w : Text // Token.isNumber w = true }

end Whittle
