import Whittle.Proofs.Token.Renaming

/-!
# Tokens and lines

A line ends with a newline among blanks, unless a backslash of the same blanks stands directly
before it. Newlines within comments and literals end no line.

* `Token.RunsToLineEnd`, `Token.BreaksLine`: the tokens that reach up to the end of their line, and
  those that end a line.
* `Token.Blanks`: the texts of blanks; `Token.blanks_run`: a run of blanks is as long as can be.
* `Token.extent_cases`: where trivia are read, and how far.
* `Token.lineStartAfter`: the flag that splitting has come to after some tokens.
* `tokens_keep_lines`: **blanks are not split up, what runs to the end of its line stops there, and
  a directive is a `#` with nothing but blanks before it on its line.**
-/

namespace Whittle

namespace Token

variable {c : Char} {cs t : Text} {k w : Token} {ks pre post : List Token} {lineStart : Bool}

/-- Whether a token runs to the end of its line: a `#` line or a `//` comment. -/
def RunsToLineEnd (t : Token) : Prop :=
  t.kind = .directive ∨ t.kind = .comment ∧ "//".toList <+: t.text

/-- Whether a token ends a line: it is blank and holds a newline that does not belong to a backslash
directly before it. -/
def BreaksLine (w : Token) : Prop :=
  w.kind = .whitespace ∧ ∃ u v, w.text = u ++ '\n' :: v ∧ u.getLast? ≠ some '\\'

/-! ### Blanks -/

/-- The texts of blanks. A backslash stands in them only before a newline. -/
inductive Blanks : Text → Prop where
  | nil : Blanks []
  | blank {c : Char} {t : Text} (hc : isBlank c = true) (ht : Blanks t) : Blanks (c :: t)
  | continued {t : Text} (ht : Blanks t) : Blanks ('\\' :: '\n' :: t)

theorem ne_backslash_of_isBlank (hc : isBlank c = true) : c ≠ '\\' := by
  rintro rfl
  exact absurd hc (by decide)

/-- A run of blanks holds nothing else, and no blanks come after it. -/
theorem blanks_run (t : Text) :
    Blanks (t.take (blankRun t)) ∧ blankRun (t.drop (blankRun t)) = 0 := by
  fun_induction blankRun t with
  | case1 cs ih =>
    rw [Nat.add_comm]
    exact ⟨.continued ih.1, ih.2⟩
  | case2 c cs hpair hc ih =>
    rw [Nat.add_comm]
    exact ⟨.blank hc ih.1, ih.2⟩
  | case3 c cs hpair hc =>
    refine ⟨.nil, ?_⟩
    rw [List.drop_zero, blankRun, if_neg hc]
    exact hpair
  | case4 => exact ⟨.nil, rfl⟩

/-- A character that is no backslash does not matter to how a text ends. -/
theorem getLast?_cons_ne_backslash (hc : c ≠ '\\') (t : Text) :
    (c :: t).getLast? ≠ some '\\' ↔ t.getLast? ≠ some '\\' := by
  cases t with
  | nil => simpa using hc
  | cons d t => rw [List.getLast?_cons_cons]

/-- Blanks end a line if they hold a newline without a backslash before it. -/
theorem breaksLine_iff (h : Blanks t) :
    breaksLine t = true ↔ ∃ u v, t = u ++ '\n' :: v ∧ u.getLast? ≠ some '\\' := by
  induction h with
  | nil => simp [breaksLine]
  | @blank c t hc _ ih =>
    have hne := ne_backslash_of_isBlank hc
    have hcons : breaksLine (c :: t) = (c == '\n' || breaksLine t) := by
      rw [breaksLine]
      rintro _ rfl
      exact absurd rfl hne
    rw [hcons, Bool.or_eq_true, beq_iff_eq, ih]
    constructor
    · rintro (rfl | ⟨u, v, rfl, hu⟩)
      · exact ⟨[], t, rfl, by simp⟩
      · exact ⟨c :: u, v, rfl, (getLast?_cons_ne_backslash hne u).2 hu⟩
    · rintro ⟨u, v, hsplit, hu⟩
      cases u with
      | nil => exact .inl (List.cons.inj hsplit).1
      | cons d u =>
        obtain ⟨rfl, hrest⟩ := List.cons.inj hsplit
        exact .inr ⟨u, v, hrest, (getLast?_cons_ne_backslash hne u).1 hu⟩
  | @continued t _ ih =>
    have hnewline : '\n' ≠ '\\' := by decide
    rw [breaksLine, ih]
    constructor
    · rintro ⟨u, v, rfl, hu⟩
      refine ⟨'\\' :: '\n' :: u, v, rfl, ?_⟩
      rw [List.getLast?_cons_cons]
      exact (getLast?_cons_ne_backslash hnewline u).2 hu
    · rintro ⟨u, v, hsplit, hu⟩
      -- the newline that is found is not that of the pair in front
      rcases u with _ | ⟨d, _ | ⟨e, u⟩⟩
      · exact absurd (List.cons.inj hsplit).1 (by decide)
      · obtain ⟨rfl, -⟩ := List.cons.inj hsplit
        exact absurd rfl hu
      · obtain ⟨rfl, hrest⟩ := List.cons.inj (List.cons.inj hsplit).2
        rw [List.getLast?_cons_cons] at hu
        exact ⟨u, v, hrest, (getLast?_cons_ne_backslash hnewline u).1 hu⟩

/-! ### Where trivia are read -/

/-- What is left after a run to the end of the line. -/
theorem head?_drop_lineRun (t : Text) :
    t.drop (lineRun t) = [] ∨ (t.drop (lineRun t)).head? = some '\n' := by
  fun_induction lineRun t with
  | case1 => exact .inl rfl
  | case2 cs => exact .inr rfl
  | case3 c cs hc ih => rwa [Nat.add_comm, List.drop_succ_cons]

/-- What is left after a directive. -/
theorem head?_drop_directiveRun (t : Text) :
    t.drop (directiveRun t) = [] ∨ (t.drop (directiveRun t)).head? = some '\n' := by
  fun_induction directiveRun t with
  | case1 cs ih => rwa [Nat.add_comm, List.drop_succ_cons, List.drop_succ_cons]
  | case2 cs hpair => exact .inr rfl
  | case3 c cs hpair hc ih => rwa [Nat.add_comm, List.drop_succ_cons]
  | case4 => exact .inl rfl

theorem wordKind_isTrivia (t : Text) : (wordKind t).isTrivia = false := by
  have hreserved : ∀ m ∈ reserved, m.2.isTrivia = false := by decide
  unfold wordKind
  cases hfind : reserved.find? (·.1.toList == t) with
  | none => rfl
  | some m => exact hreserved m (List.mem_of_find?_eq_some hfind)

theorem wordExtent_isTrivia (c : Char) (t : Text) : (wordExtent c t).1.isTrivia = false := by
  obtain ⟨w, r, rfl, hw, hr⟩ := exists_word t
  rw [wordExtent_append c hw hr]
  cases hmarked : markedLiteral (c :: w) r with
  | none => exact wordKind_isTrivia (c :: w)
  | some e =>
    unfold markedLiteral at hmarked
    split at hmarked
    · obtain rfl := Option.some.inj hmarked
      rfl
    · split at hmarked
      · obtain rfl := Option.some.inj hmarked
        rfl
      · cases hmarked

theorem markAt_isTrivia {kind : TokenKind} {n : Nat} (h : markAt t = some (kind, n)) :
    kind.isTrivia = false := by
  have hmarks : ∀ m ∈ marks, m.2.isTrivia = false := by decide
  obtain ⟨m, hfind, heq⟩ := Option.map_eq_some_iff.1 h
  obtain rfl := (Prod.mk.inj heq).1
  exact hmarks m (List.mem_of_find?_eq_some hfind)

/-- **Where trivia are read**, and how far: blanks, the two sorts of comments, and a `#` at the
start of a line. Everything else is significant. -/
theorem extent_cases (lineStart : Bool) (c : Char) (cs : Text) :
    (blankRun (c :: cs) = 1 + blankRun cs ∧ extent lineStart c cs = (.whitespace, blankRun cs)) ∨
    blankRun (c :: cs) = 0 ∧
      ((c = '/' ∧ cs.head? = some '/' ∧ extent lineStart c cs = (.comment, lineRun cs)) ∨
        (c = '/' ∧ cs.head? = some '*' ∧ (extent lineStart c cs).1 = .comment) ∨
        (c = '#' ∧ lineStart = true ∧ extent lineStart c cs = (.directive, directiveRun cs)) ∨
        ((c = '#' → lineStart = false) ∧ (extent lineStart c cs).1.isTrivia = false)) := by
  by_cases hblank : isBlank c = true ∨ c = '\\' ∧ cs.head? = some '\n'
  · refine .inl ⟨blankRun_of_blank hblank, ?_⟩
    rw [extent, if_pos (by simpa using hblank)]
  refine .inr ⟨?_, ?_⟩
  · rw [blankRun_cons, if_neg fun h => hblank (.inl h), if_neg fun h => hblank (.inr h)]
  rw [extent, if_neg (by simpa using hblank)]
  split
  · next h => exact .inl (by simpa using h)
  split
  · next h => exact .inr (.inl (by simpa using h))
  split
  · next h => exact .inr (.inr (.inl (by simpa using h)))
  next hdirective =>
  refine .inr (.inr (.inr ⟨by simpa using hdirective, ?_⟩))
  split
  · rfl
  split
  · rfl
  split
  · rfl
  split
  · exact wordExtent_isTrivia c cs
  split
  · next hmark => exact markAt_isTrivia hmark
  · rfl

/-! ### Tokens in their places -/

/-- The flag that splitting has come to after some tokens: whether only blanks stand before what
follows, on its line. -/
def lineStartAfter (lineStart : Bool) (ks : List Token) : Bool :=
  ks.foldl (fun b k => k.endsAtLineStart b) lineStart

theorem concat_cons_of_text (hk : k.text = c :: cs) (ks : List Token) :
    concat (k :: ks) = c :: (cs ++ concat ks) := by
  rw [concat, List.flatMap_cons, hk]
  rfl

/-- What follows some tokens is split by itself. -/
theorem split_append (h : split lineStart (concat (pre ++ post)) = pre ++ post) :
    split (lineStartAfter lineStart pre) (concat post) = post := by
  induction pre generalizing lineStart with
  | nil => exact h
  | cons k pre ih =>
    obtain ⟨c, cs, hk⟩ := exists_cons_of_split h
    exact ih ((split_concat_cons hk).1 h).2

/-- A blank token has the text of blanks, and no blanks come after it. -/
theorem blanks_of_split (h : split lineStart (concat (k :: ks)) = k :: ks)
    (hk : k.kind = .whitespace) : Blanks k.text ∧ blankRun (concat ks) = 0 := by
  obtain ⟨c, cs, htext⟩ := exists_cons_of_split h
  obtain ⟨hext, -⟩ := (split_concat_cons htext).1 h
  have hcases := extent_cases lineStart c (cs ++ concat ks)
  rw [hext, hk] at hcases
  obtain ⟨hrun, hlength⟩ : blankRun (c :: (cs ++ concat ks)) = 1 + blankRun (cs ++ concat ks) ∧
      blankRun (cs ++ concat ks) = cs.length := by
    obtain ⟨hrun, heq⟩ | ⟨-, ⟨-, -, heq⟩ | ⟨-, -, heq⟩ | ⟨-, -, heq⟩ | ⟨-, heq⟩⟩ := hcases
    · exact ⟨hrun, (Prod.mk.inj heq).2.symm⟩
    · cases heq
    · cases heq
    · cases heq
    · cases heq
  have hblanks := blanks_run (c :: (cs ++ concat ks))
  rw [hrun, hlength, Nat.add_comm, List.take_succ_cons, List.take_left, List.drop_succ_cons,
    List.drop_left] at hblanks
  rwa [htext]

/-- No blank token is read where no blanks stand. -/
theorem not_blank_of_split (h : split lineStart (concat (k :: ks)) = k :: ks)
    (hrun : blankRun (concat (k :: ks)) = 0) : k.kind ≠ .whitespace := by
  intro hkind
  obtain ⟨c, cs, htext⟩ := exists_cons_of_split h
  have hblanks := (blanks_of_split h hkind).1
  rw [concat_cons_of_text htext, blankRun_cons] at hrun
  rw [htext] at hblanks
  cases hblanks with
  | blank hc _ =>
    rw [if_pos hc] at hrun
    omega
  | continued _ => simp [isBlank] at hrun

/-- Before a newline a blank token is read. -/
theorem exists_blank_of_split (h : split lineStart (concat ks) = ks)
    (hnext : concat ks = [] ∨ (concat ks).head? = some '\n') :
    ks = [] ∨ ∃ w rest, ks = w :: rest ∧ w.kind = .whitespace ∧ w.text.head? = some '\n' := by
  cases ks with
  | nil => exact .inl rfl
  | cons w rest =>
    obtain ⟨c, cs, htext⟩ := exists_cons_of_split h
    obtain ⟨hext, -⟩ := (split_concat_cons htext).1 h
    rw [concat_cons_of_text htext] at hnext
    obtain rfl : c = '\n' := by simpa using hnext
    refine .inr ⟨w, rest, rfl, ?_, by rw [htext]; rfl⟩
    have hnewline : isBlank '\n' = true := by decide
    rw [extent, if_pos (by rw [hnewline]; rfl)] at hext
    exact (Prod.mk.inj hext).1.symm

/-- What runs to the end of its line stops before a newline or at the end of the text. -/
theorem stops_of_split (h : split lineStart (concat (k :: ks)) = k :: ks) (hk : k.RunsToLineEnd) :
    concat ks = [] ∨ (concat ks).head? = some '\n' := by
  obtain ⟨c, cs, htext⟩ := exists_cons_of_split h
  obtain ⟨hext, -⟩ := (split_concat_cons htext).1 h
  have hcases := extent_cases lineStart c (cs ++ concat ks)
  have hline := head?_drop_lineRun (cs ++ concat ks)
  have hdirective := head?_drop_directiveRun (cs ++ concat ks)
  rw [hext] at hcases
  obtain ⟨-, heq⟩ | ⟨-, ⟨-, -, heq⟩ | ⟨rfl, hstar, heq⟩ | ⟨-, -, heq⟩ | ⟨-, heq⟩⟩ := hcases
  · rw [RunsToLineEnd, (Prod.mk.inj heq).1] at hk
    rcases hk with hk | ⟨hk, -⟩ <;> cases hk
  · rwa [← (Prod.mk.inj heq).2, List.drop_left] at hline
  · -- a comment of the other sort starts with a star after its slash
    obtain hkind | ⟨-, hslashes⟩ := hk
    · rw [hkind] at heq
      cases heq
    · rw [htext] at hslashes
      obtain ⟨v, hv⟩ := hslashes
      have hcs : '/' :: v = cs := (List.cons.inj hv).2
      rw [← hcs] at hstar
      exact absurd (Option.some.inj hstar) (by decide)
  · rwa [← (Prod.mk.inj heq).2, List.drop_left] at hdirective
  · rcases hk with hk | ⟨hk, -⟩ <;> rw [hk] at heq <;> cases heq

/-- A `#` is a directive just if the flag is set. -/
theorem directive_iff_of_split (h : split lineStart (concat (k :: ks)) = k :: ks)
    (hk : k.text.head? = some '#') : k.kind = .directive ↔ lineStart = true := by
  obtain ⟨c, cs, htext⟩ := exists_cons_of_split h
  obtain ⟨hext, -⟩ := (split_concat_cons htext).1 h
  rw [htext] at hk
  obtain rfl : c = '#' := Option.some.inj hk
  have hcases := extent_cases lineStart '#' (cs ++ concat ks)
  rw [hext] at hcases
  obtain ⟨hrun, -⟩ | ⟨-, ⟨hslash, -⟩ | ⟨hslash, -⟩ | ⟨-, hstart, heq⟩ | ⟨hstart, heq⟩⟩ := hcases
  · -- a `#` is no blank
    rw [blankRun_cons, if_neg (by decide), if_neg fun h => absurd h.1 (by decide)] at hrun
    omega
  · exact absurd hslash (by decide)
  · exact absurd hslash (by decide)
  · exact iff_of_true (Prod.mk.inj heq).1 hstart
  · refine iff_of_false (fun hkind => ?_) (by simp [hstart rfl])
    rw [hkind] at heq
    cases heq

/-! ### The flag and the line -/

/-- Among the tokens of a text, those that end a line are those at which the flag is set anew. -/
theorem breaksLine_iff_of_split (h : split lineStart (concat ks) = ks) (hw : w ∈ ks)
    (hkind : w.kind = .whitespace) : breaksLine w.text = true ↔ w.BreaksLine := by
  obtain ⟨a, b, rfl⟩ := List.append_of_mem hw
  obtain ⟨hblanks, -⟩ := blanks_of_split (split_append h) hkind
  rw [breaksLine_iff hblanks, BreaksLine, hkind, eq_self_iff_true, true_and]

/-- As long as no line ends, the flag tells whether it was set before and only blanks came since. -/
theorem lineStartAfter_iff (hks : ∀ k ∈ ks, k.kind = .whitespace → breaksLine k.text = false) :
    lineStartAfter lineStart ks = true ↔ lineStart = true ∧ ∀ k ∈ ks, k.kind = .whitespace := by
  induction ks generalizing lineStart with
  | nil => simp [lineStartAfter]
  | cons k ks ih =>
    rw [List.forall_mem_cons] at hks
    have hcons : lineStartAfter lineStart (k :: ks) =
        lineStartAfter (k.endsAtLineStart lineStart) ks := rfl
    have hends : k.endsAtLineStart lineStart = true ↔ lineStart = true ∧ k.kind = .whitespace := by
      rw [endsAtLineStart, Bool.and_eq_true, decide_eq_true_eq, Bool.or_eq_true, and_comm]
      refine and_congr_left fun hkind => ?_
      rw [hks.1 hkind]
      simp
    rw [hcons, ih hks.2, hends, List.forall_mem_cons, and_assoc]

/-- A token that ends a line sets the flag. -/
theorem lineStartAfter_concat (hkind : w.kind = .whitespace) (hw : breaksLine w.text = true) :
    lineStartAfter lineStart (pre ++ [w]) = true := by
  simp [lineStartAfter, endsAtLineStart, hkind, hw]

end Token

open Token

/-- **Tokens keep to the lines of their text.** Of two tokens side by side, not both are blank. A
`#` line or a `//` comment is the last token, or a blank token comes next that starts with a
newline. A `#` begins a directive just if all tokens since the latest one that ends a line are
blank, or all tokens before it if none does; what is left of that line-ending token after its
newline is blank anyway. -/
theorem tokens_keep_lines (t : Text) (pre : List Token) (x : Token) (post : List Token)
    (h : tokens t = pre ++ x :: post) :
    (x.kind = .whitespace → ∀ y ∈ post.head?, y.kind ≠ .whitespace) ∧
    (x.RunsToLineEnd →
      post = [] ∨ ∃ w rest, post = w :: rest ∧ w.kind = .whitespace ∧ w.text.head? = some '\n') ∧
    (x.text.head? = some '#' →
      (∀ a w b, pre = a ++ w :: b → w.BreaksLine → (∀ y ∈ b, ¬ y.BreaksLine) →
        (x.kind = .directive ↔ ∀ y ∈ b, y.kind = .whitespace)) ∧
      ((∀ y ∈ pre, ¬ y.BreaksLine) →
        (x.kind = .directive ↔ ∀ y ∈ pre, y.kind = .whitespace))) := by
  have hall : split true (concat (pre ++ x :: post)) = pre ++ x :: post := by
    rw [← h, concat_tokens]
    rfl
  have hx := split_append hall
  have hrest : split (lineStartAfter (lineStartAfter true pre) [x]) (concat post) = post :=
    split_append hx
  have hbreaks (w : Token) (hw : w ∈ pre) (hkind : w.kind = .whitespace) :
      breaksLine w.text = true ↔ w.BreaksLine :=
    breaksLine_iff_of_split hall (List.mem_append_left _ hw) hkind
  have hhides (b : List Token) (hb : b ⊆ pre) (hno : ∀ y ∈ b, ¬ y.BreaksLine) :
      ∀ y ∈ b, y.kind = .whitespace → breaksLine y.text = false := by
    intro y hy hkind
    rw [← Bool.not_eq_true, hbreaks y (hb hy) hkind]
    exact hno y hy
  refine ⟨fun hkind y hy => ?_, fun hline => ?_, fun hsharp => ⟨?_, fun hno => ?_⟩⟩
  · obtain ⟨post', rfl⟩ := List.head?_eq_some_iff.1 (Option.mem_def.1 hy)
    exact not_blank_of_split hrest (blanks_of_split hx hkind).2
  · exact exists_blank_of_split hrest (stops_of_split hx hline)
  · -- the token that ends a line sets the flag, whatever it was before
    rintro a w b rfl hw hno
    have hset : breaksLine w.text = true := (hbreaks w (by simp) hw.1).2 hw
    have hflag : lineStartAfter true (a ++ w :: b) =
        lineStartAfter (lineStartAfter true (a ++ [w])) b := by
      simp [lineStartAfter]
    rw [directive_iff_of_split hx hsharp, hflag,
      lineStartAfter_iff (hhides b (fun y hy => by simp [hy]) hno),
      lineStartAfter_concat hw.1 hset]
    simp
  · -- no line has ended, and the flag is set at the start of the text
    rw [directive_iff_of_split hx hsharp,
      lineStartAfter_iff (hhides pre (List.Subset.refl _) hno)]
    simp

/-- A `#` after a comment with a newline in it, on a line after a directive that a backslash
continues: the latest token that ends a line is the blank one after that directive, and the comment
came since. -/
theorem tokens_keep_lines_comment :
    let t := "\\\n# a\\\n b // c\n /*\n*/ # \n\t#".toList
    let a : List Token := [⟨.whitespace, "\\\n".toList⟩, ⟨.directive, "# a\\\n b // c".toList⟩]
    let w : Token := ⟨.whitespace, "\n ".toList⟩
    let b : List Token := [⟨.comment, "/*\n*/".toList⟩, ⟨.whitespace, " ".toList⟩]
    let x : Token := ⟨.stray, "#".toList⟩
    let post : List Token := [⟨.whitespace, " \n\t".toList⟩, ⟨.directive, "#".toList⟩]
    tokens t = (a ++ w :: b) ++ x :: post ∧ w.BreaksLine ∧ (∀ y ∈ b, ¬ y.BreaksLine) ∧
      x.text.head? = some '#' ∧ (x.kind = .directive ↔ ∀ y ∈ b, y.kind = .whitespace) := by
  intro t a w b x post
  have htokens : tokens t = (a ++ w :: b) ++ x :: post := by decide +kernel
  have hw : w.BreaksLine := ⟨rfl, [], " ".toList, rfl, by simp⟩
  have hb : ∀ y ∈ b, ¬ y.BreaksLine := by
    intro y hy hbreaks
    obtain ⟨hkind, u, v, htext, -⟩ := hbreaks
    have hnewline : '\n' ∈ y.text := by simp [htext]
    obtain rfl | rfl : y = ⟨.comment, "/*\n*/".toList⟩ ∨ y = ⟨.whitespace, " ".toList⟩ := by
      simpa [b] using hy
    · cases hkind
    · exact absurd hnewline (by decide)
  obtain ⟨-, -, hsharp⟩ := tokens_keep_lines t (a ++ w :: b) x post htokens
  exact ⟨htokens, hw, hb, rfl, (hsharp rfl).1 a w b rfl hw hb⟩

end Whittle
