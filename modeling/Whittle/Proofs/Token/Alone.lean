import Whittle.Proofs.Token.Lines
import Whittle.Proofs.Token.Spacing

/-!
# Tokens by themselves

Where a token ends is found by looking at what comes after it. Here the text is cut at that place:
the run is then stopped by the end of the text, and it is just as long.

* `Token.blankRun_take`, `Token.lineRun_take`, `Token.commentRun_take`, `Token.directiveRun_take`,
  `Token.quotedRun_take`, `Token.numberRun_take`: each run on the text that is cut where it ends.
* `Token.extent_take`: a token is read again from its own text, if it is no `#` inside a line.
* `tokens_self_contained`: **a token by itself is split into itself, a stray `#` apart.**
-/

namespace Whittle

namespace Token

variable {c d : Char} {cs t r : Text} {k : Token} {kind : TokenKind} {n : Nat} {lineStart : Bool}

/-! ### Runs on a text that is cut where they end -/

/-- A text that is cut short starts as before, if anything is left of it. -/
theorem head?_of_take (h : (t.take n).head? = some d) : t.head? = some d := by
  rw [List.head?_take] at h
  split at h
  · cases h
  · exact h

theorem blankRun_take (t : Text) : blankRun (t.take (blankRun t)) = blankRun t := by
  fun_induction blankRun t with
  | case1 cs ih =>
    rw [Nat.add_comm, List.take_succ_cons, List.take_succ_cons, blankRun, ih, Nat.add_comm]
  | case2 c cs _ hc ih =>
    rw [Nat.add_comm, List.take_succ_cons, blankRun_of_blank (.inl hc), ih, Nat.add_comm]
  | case3 => rfl
  | case4 => rfl

theorem lineRun_take (t : Text) : lineRun (t.take (lineRun t)) = lineRun t := by
  fun_induction lineRun t with
  | case1 => rfl
  | case2 => rfl
  | case3 c cs hc ih => rw [Nat.add_comm, List.take_succ_cons, lineRun, if_neg hc, ih, Nat.add_comm]

theorem commentRun_take (t : Text) : commentRun (t.take (commentRun t)) = commentRun t := by
  fun_induction commentRun t with
  | case1 cs => rfl
  | case2 c cs hend ih =>
    -- a `*/` in what is left would have stood in the whole text
    have hopen : ¬ (c = '*' ∧ (cs.take (commentRun cs)).head? = some '/') := by
      rintro ⟨rfl, hnext⟩
      obtain ⟨cs', rfl⟩ := List.head?_eq_some_iff.1 (head?_of_take hnext)
      exact hend cs' rfl rfl
    rw [Nat.add_comm, List.take_succ_cons, commentRun_cons, if_neg hopen, ih, Nat.add_comm]
  | case3 => rfl

theorem directiveRun_take (t : Text) : directiveRun (t.take (directiveRun t)) = directiveRun t := by
  fun_induction directiveRun t with
  | case1 cs ih =>
    rw [Nat.add_comm, List.take_succ_cons, List.take_succ_cons, directiveRun, ih, Nat.add_comm]
  | case2 => rfl
  | case3 c cs hpair hc ih =>
    have hsingle : ¬ (c = '\\' ∧ (cs.take (directiveRun cs)).head? = some '\n') := by
      rintro ⟨rfl, hnext⟩
      obtain ⟨cs', rfl⟩ := List.head?_eq_some_iff.1 (head?_of_take hnext)
      exact hpair cs' rfl rfl
    rw [Nat.add_comm, List.take_succ_cons, directiveRun_cons, if_neg hsingle, if_neg hc, ih,
      Nat.add_comm]
  | case4 => rfl

theorem quotedRun_take (quote : Char) (t : Text) :
    quotedRun quote (t.take (quotedRun quote t)) = quotedRun quote t := by
  fun_induction quotedRun quote t with
  | case1 => rfl
  | case2 => rfl
  | case3 c cs ih =>
    rw [Nat.add_comm, List.take_succ_cons, List.take_succ_cons, quotedRun, ih, Nat.add_comm]
  | case4 => rfl
  | case5 cs _ _ hnewline => simp [quotedRun_cons, hnewline]
  | case6 c cs hlast hpair hnewline hquote ih =>
    have hslash : c ≠ '\\' := by
      rintro rfl
      cases cs with
      | nil => exact hlast rfl rfl
      | cons d cs => exact hpair d cs rfl rfl
    rw [Nat.add_comm, List.take_succ_cons, quotedRun_cons, if_neg hslash, if_neg hnewline,
      if_neg hquote, ih, Nat.add_comm]

theorem numberRun_take (e : Bool) (t : Text) :
    numberRun e (t.take (numberRun e t)) = numberRun e t := by
  fun_induction numberRun e t with
  | case1 => rfl
  | case2 e c cs hc ih =>
    rw [Nat.add_comm, List.take_succ_cons, numberRun, if_pos hc, ih, Nat.add_comm]
  | case3 e c cs hc hsign ih =>
    rw [Nat.add_comm, List.take_succ_cons, numberRun, if_neg hc, if_pos hsign, ih, Nat.add_comm]
  | case4 => rfl

/-! ### Words and marks -/

/-- A marked literal is read again from the text that is cut where it ends. -/
theorem markedLiteral_take {word : Text} (h : markedLiteral word r = some (kind, n)) :
    markedLiteral word (r.take n) = some (kind, n) := by
  cases r with
  | nil => simp [markedLiteral] at h
  | cons q r =>
    rw [markedLiteral_cons] at h
    split at h
    · next hstring =>
      obtain ⟨rfl, rfl⟩ := Prod.mk.inj (Option.some.inj h)
      rw [Nat.add_comm, List.take_succ_cons, markedLiteral_cons, if_pos hstring, quotedRun_take,
        Nat.add_comm]
    next hstring =>
    split at h
    · next hcharacter =>
      obtain ⟨rfl, rfl⟩ := Prod.mk.inj (Option.some.inj h)
      rw [Nat.add_comm, List.take_succ_cons, markedLiteral_cons, if_neg hstring, if_pos hcharacter,
        quotedRun_take, Nat.add_comm]
    · cases h

theorem wordExtent_take (h : wordExtent c t = (kind, n)) :
    wordExtent c (t.take n) = (kind, n) := by
  obtain ⟨w, r, rfl, hw, hr⟩ := exists_word t
  rw [wordExtent_append c hw hr] at h
  cases hmarked : markedLiteral (c :: w) r with
  | none =>
    rw [hmarked] at h
    obtain ⟨rfl, rfl⟩ := Prod.mk.inj h
    -- a marker at the end of a text marks nothing
    have hliteral : markedLiteral (c :: w) [] = none := by simp [markedLiteral]
    have hword := wordExtent_append c hw (r := []) rfl
    rw [List.append_nil, hliteral] at hword
    rw [List.take_left, hword]
  | some e =>
    obtain ⟨kind', m⟩ := e
    rw [hmarked] at h
    obtain ⟨rfl, rfl⟩ := Prod.mk.inj h
    have hend : (r.take m).head?.any isWordChar = false := by
      cases hhead : (r.take m).head? with
      | none => rfl
      | some q => rwa [head?_of_take hhead] at hr
    rw [List.take_length_add_append, wordExtent_append c hw hend, markedLiteral_take hmarked]

/-- A mark is read from its own text. -/
theorem extent_mark (h : markAt (c :: t) = some (kind, n)) :
    extent lineStart c (t.take (n - 1)) = (kind, n - 1) := by
  obtain ⟨m, hfind, heq⟩ := Option.map_eq_some_iff.1 h
  obtain ⟨rfl, rfl⟩ := Prod.mk.inj heq
  obtain ⟨d, ds, htext, hreads⟩ := (solid_mark (List.mem_of_find?_eq_some hfind)).reads
  have htext' : m.1.toList = d :: ds := htext
  have hprefix : d :: ds <+: c :: t := by
    rw [← htext']
    simpa using List.find?_some hfind
  obtain ⟨rfl, r, rfl⟩ := List.cons_prefix_cons.1 hprefix
  have hext := hreads lineStart [] (.inl rfl)
  rw [List.append_nil] at hext
  rw [htext', List.length_cons, Nat.add_sub_cancel, List.take_left, hext]

/-- Where a text starts with no mark, its first character is none. -/
theorem markAt_singleton (h : markAt (c :: t) = none) : markAt [c] = none := by
  rw [markAt, Option.map_eq_none_iff, List.find?_eq_none] at h ⊢
  intro m hm hprefix
  refine h m hm ?_
  rw [List.isPrefixOf_iff_prefix] at hprefix ⊢
  exact hprefix.trans ⟨t, rfl⟩

/-! ### What a token starts with -/

theorem extent_blank (h : isBlank c = true ∨ c = '\\' ∧ t.head? = some '\n') :
    extent lineStart c t = (.whitespace, blankRun t) := by
  rw [extent, if_pos (by simpa using h)]

theorem extent_line (t : Text) :
    extent lineStart '/' ('/' :: t) = (.comment, lineRun ('/' :: t)) := rfl

theorem extent_block (t : Text) :
    extent lineStart '/' ('*' :: t) = (.comment, 1 + commentRun t) := rfl

theorem extent_directive (t : Text) : extent true '#' t = (.directive, directiveRun t) := rfl

/-- Inside a line a `#` is a token of one character. -/
theorem extent_sharp (t : Text) : extent false '#' t = (.stray, 0) := rfl

theorem extent_string (t : Text) :
    extent lineStart '\x22' t = (.string, quotedRun '\x22' t) := rfl

theorem extent_character (t : Text) :
    extent lineStart '\x27' t = (.character, quotedRun '\x27' t) := rfl

/-- The digit after a dot belongs to the number. -/
theorem starts_number_take (h : (c.isDigit || (c == '.' && t.head?.any Char.isDigit)) = true) :
    (c.isDigit || (c == '.' && (t.take (numberRun false t)).head?.any Char.isDigit)) = true := by
  cases t with
  | nil => exact h
  | cons d t =>
    by_cases hd : d.isDigit = true
    · have hnumber : isNumberChar d = true := by simp [isNumberChar, Char.isAlphanum, hd]
      rwa [numberRun, if_pos hnumber, Nat.add_comm, List.take_succ_cons]
    · have hc : c.isDigit = true := by simpa [hd] using h
      rw [hc, Bool.true_or]

/-! ### Tokens cut out of their text -/

/-- **A token is read again from the text that is cut where it ends**, at the start of a line. Only
a `#` inside a line would be another token there. -/
theorem extent_take (hsharp : c = '#' → lineStart = true) (h : extent lineStart c t = (kind, n)) :
    extent true c (t.take n) = (kind, n) := by
  unfold extent at h
  split at h
  · next hblank =>
    obtain ⟨rfl, rfl⟩ := Prod.mk.inj h
    rw [extent_blank, blankRun_take]
    rw [Bool.or_eq_true, Bool.and_eq_true, beq_iff_eq, beq_iff_eq] at hblank
    refine hblank.imp_right fun hpair => ⟨hpair.1, ?_⟩
    -- the newline after a backslash is a blank, so it is not cut off
    obtain ⟨t, rfl⟩ := List.head?_eq_some_iff.1 hpair.2
    rw [blankRun_of_blank (.inl rfl), Nat.add_comm]
    rfl
  next hblank =>
  split at h
  · next hline =>
    obtain ⟨rfl, rfl⟩ := Prod.mk.inj h
    obtain ⟨rfl, hnext⟩ : c = '/' ∧ t.head? = some '/' := by simpa using hline
    obtain ⟨t, rfl⟩ := List.head?_eq_some_iff.1 hnext
    have htake := lineRun_take ('/' :: t)
    have hrun : lineRun ('/' :: t) = lineRun t + 1 := Nat.add_comm _ _
    rw [hrun, List.take_succ_cons] at htake ⊢
    rw [extent_line, htake]
  next hline =>
  split at h
  · next hcomment =>
    obtain ⟨rfl, rfl⟩ := Prod.mk.inj h
    obtain ⟨rfl, hnext⟩ : c = '/' ∧ t.head? = some '*' := by simpa using hcomment
    obtain ⟨t, rfl⟩ := List.head?_eq_some_iff.1 hnext
    rw [List.tail_cons, Nat.add_comm, List.take_succ_cons, extent_block, commentRun_take,
      Nat.add_comm]
  next hcomment =>
  split at h
  · next hdirective =>
    obtain ⟨rfl, rfl⟩ := Prod.mk.inj h
    obtain ⟨rfl, -⟩ : c = '#' ∧ lineStart = true := by simpa using hdirective
    rw [extent_directive, directiveRun_take]
  next hdirective =>
  split at h
  · next hstring =>
    obtain ⟨rfl, rfl⟩ := Prod.mk.inj h
    obtain rfl : c = '\x22' := by simpa using hstring
    rw [extent_string, quotedRun_take]
  next hstring =>
  split at h
  · next hcharacter =>
    obtain ⟨rfl, rfl⟩ := Prod.mk.inj h
    obtain rfl : c = '\x27' := by simpa using hcharacter
    rw [extent_character, quotedRun_take]
  next hcharacter =>
  split at h
  · next hnumber =>
    obtain ⟨rfl, rfl⟩ := Prod.mk.inj h
    rw [extent_number (starts_number_take hnumber), numberRun_take]
  next hnumber =>
  split at h
  · next hword => rw [extent_word true hword, wordExtent_take h]
  next hword =>
  split at h
  · next hmark =>
    obtain ⟨rfl, rfl⟩ := Prod.mk.inj h
    exact extent_mark hmark
  · next hmark =>
    obtain ⟨rfl, rfl⟩ := Prod.mk.inj h
    -- there is nothing left to look at after the character
    have hnosharp : c ≠ '#' := fun hc => hdirective (by simp [hc, hsharp hc])
    rw [Bool.or_eq_true, not_or] at hblank hnumber
    rw [List.take_zero, extent, if_neg (by simpa using hblank.1), if_neg (by simp),
      if_neg (by simp), if_neg (by simpa using hnosharp), if_neg hstring, if_neg hcharacter,
      if_neg (by simpa using hnumber.1), if_neg hword, markAt_singleton hmark]

/-- A token is split into itself if it is read from its own text. -/
theorem tokens_text_iff (hk : k.text = c :: cs) :
    tokens k.text = [k] ↔ extent true c cs = (k.kind, cs.length) := by
  have hone : k.text = concat [k] := (List.append_nil _).symm
  have hempty : concat [] = [] := rfl
  rw [tokens, hone, split_concat_cons hk, hempty, List.append_nil, split]
  exact and_iff_left rfl

/-- A token of a text is read at its place, and the flag is set there if it is a `#` and no stray
one. -/
theorem exists_extent (hk : k ∈ tokens t) (hsharp : k ≠ ⟨.stray, ['#']⟩) :
    ∃ c cs r lineStart, k.text = c :: cs ∧ (c = '#' → lineStart = true) ∧
      extent lineStart c (cs ++ r) = (k.kind, cs.length) := by
  obtain ⟨pre, post, h⟩ := List.append_of_mem hk
  have hall : split true (concat (pre ++ k :: post)) = pre ++ k :: post := by
    rw [← h, split_concat_tokens]
  obtain ⟨c, cs, htext⟩ := exists_cons_of_split (split_append hall)
  obtain ⟨hext, -⟩ := (split_concat_cons htext).1 (split_append hall)
  refine ⟨c, cs, concat post, lineStartAfter true pre, htext, ?_, hext⟩
  rintro rfl
  by_contra hflag
  rw [Bool.eq_false_iff.2 hflag, extent_sharp] at hext
  obtain ⟨hkind, hlength⟩ := Prod.mk.inj hext
  obtain rfl := List.length_eq_zero_iff.1 hlength.symm
  obtain ⟨kind, text⟩ := k
  obtain rfl : text = ['#'] := htext
  obtain rfl : TokenKind.stray = kind := hkind
  exact hsharp rfl

end Token

open Token

/-- **Tokens are self-contained.** Cut out of its text, a token is split into itself: neither how
far it reaches nor its kind depends on what stands around it. A stray `#` is the one exception, as
it would open a directive. -/
theorem tokens_self_contained (t : Text) (k : Token) (hk : k ∈ tokens t) :
    tokens k.text = [k] ↔ k ≠ ⟨.stray, ['#']⟩ := by
  constructor
  · rintro h rfl
    rw [tokens_text_iff rfl, extent_directive] at h
    cases h
  · intro hsharp
    obtain ⟨c, cs, r, lineStart, htext, hflag, hext⟩ := exists_extent hk hsharp
    have halone := extent_take hflag hext
    rw [List.take_left] at halone
    exact (tokens_text_iff htext).2 halone

/-- A string whose marker, escaped quote and `#` belong to it, a number that ends between two signs,
and a `#` inside a line. -/
theorem tokens_self_contained_literals :
    let t := "L\x22\\\x22#\x22 .1e+-# 2".toList
    let string : Token := ⟨.string, "L\x22\\\x22#\x22".toList⟩
    let number : Token := ⟨.number, ".1e+".toList⟩
    let sharp : Token := ⟨.stray, "#".toList⟩
    (string ∈ tokens t ∧ string ≠ ⟨.stray, ['#']⟩ ∧ tokens string.text = [string]) ∧
      (number ∈ tokens t ∧ number ≠ ⟨.stray, ['#']⟩ ∧ tokens number.text = [number]) ∧
      sharp ∈ tokens t ∧ tokens sharp.text ≠ [sharp] := by
  intro t string number sharp
  have hstring : string ∈ tokens t := by decide +kernel
  have hnumber : number ∈ tokens t := by decide +kernel
  have hsharp : sharp ∈ tokens t := by decide +kernel
  have hstring' : string ≠ ⟨.stray, ['#']⟩ := by decide
  have hnumber' : number ≠ ⟨.stray, ['#']⟩ := by decide
  exact ⟨⟨hstring, hstring', (tokens_self_contained t string hstring).2 hstring'⟩,
    ⟨hnumber, hnumber', (tokens_self_contained t number hnumber).2 hnumber'⟩, hsharp,
    fun h => (tokens_self_contained t sharp hsharp).1 h rfl⟩

end Whittle
