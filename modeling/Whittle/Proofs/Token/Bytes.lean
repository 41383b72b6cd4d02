import Whittle.Proofs.Removal.Safety
import Whittle.Proofs.Token.Extent
import Whittle.Proofs.Tree.Bare

/-!
# Splitting a text byte by byte

A text is kept in its UTF-8 form, and a scanner that moves through it by single bytes, by pairs of
bytes and by the results of searches may come to stand inside a character. `scan` is such a scanner.
It gives no result as soon as a cut falls inside a character or outside the text, or a token is
empty.

* `Text.utf8`: the bytes of a text.
* `Bytes.scan`: the tokens of some bytes, as far as every cut on the way to them is sound.
* `Bytes.measure_utf8`: on the bytes of a text the scanner finds the token that stands there.
* `Bytes.scan_split`: the bytes of any text can be scanned to their end.
* `tokens_lossless`: **splitting a text is safe and loses nothing.**
-/

namespace Whittle

/-- The bytes of a text. -/
def Text.utf8 (t : Text) : List UInt8 := t.flatMap String.utf8EncodeChar

namespace Bytes

open Token

/-! ### Bytes and cuts -/

/-- The byte of an ASCII character. -/
def byte (c : Char) : UInt8 := c.toUInt8

/-- Whether a byte is that of an ASCII character of some class. -/
def isIn (p : Char → Bool) (b : UInt8) : Bool := p (Char.ofUInt8 b)

/-- Whether a byte is one of the later bytes of a character. -/
def isContinuation (b : UInt8) : Bool := 0x80 ≤ b && b < 0xC0

/-- Whether what is left of a text starts between two characters. -/
def atBoundary (bs : List UInt8) : Bool := !bs.head?.any isContinuation

/-- What is left after the next `n` bytes. The cut must not fall inside a character. -/
def from? (n : Nat) (bs : List UInt8) : Option (List UInt8) :=
  if n ≤ bs.length && atBoundary (bs.drop n) then some (bs.drop n) else none

/-- The next `n` bytes. Neither end may fall inside a character. -/
def take? (n : Nat) (bs : List UInt8) : Option (List UInt8) :=
  if atBoundary bs && (from? n bs).isSome then some (bs.take n) else none

/-! ### How far a token reaches -/

/-- The bytes up to the first that is not of some class. -/
def runOf (p : UInt8 → Bool) (bs : List UInt8) : Nat := (bs.takeWhile p).length

/-- Blanks; a backslash directly before a newline counts as one. -/
def blanks : List UInt8 → Nat
  | [] => 0
  | [b] => if isIn isBlank b then 1 else 0
  | b :: b' :: bs =>
    if isIn isBlank b then 1 + blanks (b' :: bs)
    else if b = byte '\\' ∧ b' = byte '\n' then 2 + blanks bs
    else 0

/-- Whether blanks hold a newline that no backslash hides. -/
def breaks : List UInt8 → Bool
  | [] => false
  | [b] => b = byte '\n'
  | b :: b' :: bs =>
    if b = byte '\\' ∧ b' = byte '\n' then breaks bs else b = byte '\n' || breaks (b' :: bs)

/-- The place of some bytes among others. -/
def find? (pattern : List UInt8) : List UInt8 → Option Nat
  | [] => if pattern.isEmpty then some 0 else none
  | b :: bs => if pattern.isPrefixOf (b :: bs) then some 0 else (find? pattern bs).map (· + 1)

/-- A `#` line up to its newline; a backslash before a newline continues it. -/
def directive : List UInt8 → Nat
  | [] => 0
  | [b] => if b = byte '\n' then 0 else 1
  | b :: b' :: bs =>
    if b = byte '\\' ∧ b' = byte '\n' then 2 + directive bs
    else if b = byte '\n' then 0
    else 1 + directive (b' :: bs)

/-- A quoted literal after its opening quote, byte by byte. A backslash takes the next byte with it,
which may be the first one of several. -/
def quotedBytes (quote : UInt8) : List UInt8 → Nat
  | [] => 0
  | [b] => if b = byte '\n' then 0 else 1
  | b :: b' :: bs =>
    if b = byte '\\' then 2 + quotedBytes quote bs
    else if b = byte '\n' then 0
    else if b = quote then 1
    else 1 + quotedBytes quote (b' :: bs)

/-- A quoted literal after its opening quote, up to the end of a character. -/
def quoted (quote : UInt8) (bs : List UInt8) : Nat :=
  let n := quotedBytes quote bs
  n + runOf isContinuation (bs.drop n)

/-- A number: letters, digits, dots, and a sign directly after an exponent letter. -/
def number : List UInt8 → Nat
  | [] => 0
  | [b] => if isIn isNumberChar b then 1 else 0
  | b :: b' :: bs =>
    if isIn isNumberChar b then
      if isIn isExponent b ∧ (b' = byte '+' ∨ b' = byte '-') then 2 + number bs
      else 1 + number (b' :: bs)
    else 0

/-- The number of bytes of the character that starts with a byte. -/
def width (b : UInt8) : Nat :=
  if b < 0x80 then 1 else if b < 0xE0 then 2 else if b < 0xF0 then 3 else 4

/-- Whether a spelling is one of some words. -/
def isOneOf (words : List String) (bs : List UInt8) : Bool :=
  words.any (Text.utf8 ·.toList == bs)

/-- The kind of a word: a reserved one, or an identifier. -/
def wordKind (bs : List UInt8) : TokenKind :=
  ((reserved.find? (Text.utf8 ·.1.toList == bs)).map (·.2)).getD .identifier

/-! ### The scanner -/

/-- A comment that ends with its `*/`. -/
def comment (bs : List UInt8) : Option (TokenKind × Nat) := do
  let rest ← from? 2 bs
  match find? (Text.utf8 "*/".toList) rest with
  | some n => some (.comment, 2 + (n + 2))
  | none => some (.comment, bs.length)

/-- A word, with the literal it marks if there is one. -/
def word (bs : List UInt8) : Option (TokenKind × Nat) := do
  let n := runOf (isIn isWordChar) bs
  let text ← take? n bs
  let rest := bs.drop n
  if rest.head? = some (byte '\x22') ∧ isOneOf stringMarkers text then
    some (.string, n + (1 + quoted (byte '\x22') rest.tail))
  else if rest.head? = some (byte '\x27') ∧ isOneOf characterMarkers text then
    some (.character, n + (1 + quoted (byte '\x27') rest.tail))
  else some (wordKind text, n)

/-- A mark, or else a character that starts no token. -/
def mark (bs : List UInt8) : Option (TokenKind × Nat) := do
  let rest ← from? 0 bs
  match marks.find? (Text.utf8 ·.1.toList |>.isPrefixOf rest) with
  | some m => some (m.2, (Text.utf8 m.1.toList).length)
  | none => some (.stray, rest.head?.elim 1 width)

/-- The kind of the token that some bytes start with, and how many of them it takes. -/
def measure (lineStart : Bool) (bs : List UInt8) : Option (TokenKind × Nat) := do
  let b ← bs.head?
  let next := bs.tail.head?
  if isIn isBlank b ∨ b = byte '\\' ∧ next = some (byte '\n') then some (.whitespace, blanks bs)
  else if b = byte '/' ∧ next = some (byte '/') then
    some (.comment, runOf (· ≠ byte '\n') bs)
  else if b = byte '/' ∧ next = some (byte '*') then comment bs
  else if b = byte '#' ∧ lineStart then some (.directive, directive bs)
  else if b = byte '\x22' then some (.string, 1 + quoted b bs.tail)
  else if b = byte '\x27' then some (.character, 1 + quoted b bs.tail)
  else if isIn Char.isDigit b ∨ b = byte '.' ∧ next.any (isIn Char.isDigit) then
    some (.number, number bs)
  else if isIn isWordStart b then word bs
  else mark bs

/-- The tokens of some bytes. The flag says that only blanks stand before them on their line. -/
def scan (lineStart : Bool) (bs : List UInt8) : Option (List (TokenKind × List UInt8)) :=
  if bs = [] then some []
  else do
    let e ← measure lineStart bs
    let text ← take? e.2 bs
    -- an empty token would bring the scanner back to where it is
    if _h : bs.length - e.2 < bs.length then
      let rest ← scan (e.1 = .whitespace && (lineStart || breaks text)) (bs.drop e.2)
      some ((e.1, text) :: rest)
    else none
termination_by bs.length
decreasing_by simpa using _h

/-! ### The bytes of a text -/

section

variable {b : UInt8} {c k : Char} {bs : List UInt8} {t : Text}

/-- The bytes that stand for no ASCII character. -/
def IsWide (b : UInt8) : Prop := 0x80 ≤ b.toNat

theorem toNat_byte (hc : c.toNat < 0x80) : (byte c).toNat = c.toNat := by
  have h : (byte c).toNat = c.toNat % 2 ^ 8 := UInt32.toNat_toUInt8 c.val
  omega

theorem byte_inj (hc : c.toNat < 0x80) (hk : k.toNat < 0x80) : byte c = byte k ↔ c = k := by
  constructor
  · intro h
    have hnat := congrArg UInt8.toNat h
    rw [toNat_byte hc, toNat_byte hk] at hnat
    exact Char.toNat_inj.1 hnat
  · rintro rfl
    rfl

theorem toNat_ofUInt8 (b : UInt8) : (Char.ofUInt8 b).toNat = b.toNat := UInt8.toNat_toUInt32 b

theorem isIn_byte (hc : c.toNat < 0x80) (p : Char → Bool) : isIn p (byte c) = p c := by
  have h : Char.ofUInt8 (byte c) = c := by rw [← Char.toNat_inj, toNat_ofUInt8, toNat_byte hc]
  rw [isIn, h]

theorem IsWide.ne_byte (h : IsWide b) (hk : k.toNat < 0x80) : b ≠ byte k := by
  rintro rfl
  unfold IsWide at h
  rw [toNat_byte hk] at h
  omega

theorem IsWide.isIn_eq_false (h : IsWide b) {p : Char → Bool} (hp : ∀ c, p c = true → c.toNat < 0x80) :
    isIn p b = false := by
  by_contra hin
  rw [Bool.not_eq_false] at hin
  have hlt := hp _ hin
  rw [toNat_ofUInt8] at hlt
  unfold IsWide at h
  omega

theorem utf8EncodeChar_ascii (hc : c.toNat < 0x80) : String.utf8EncodeChar c = [byte c] := by
  have hsize : c.utf8Size = 1 := by
    rw [Char.utf8Size_eq_one_iff, UInt32.le_iff_toNat_le]
    exact Nat.le_of_lt_succ hc
  exact String.utf8EncodeChar_eq_singleton hsize

theorem isContinuation_iff : isContinuation b = true ↔ 0x80 ≤ b.toNat ∧ b.toNat < 0xC0 := by
  simp [isContinuation, UInt8.le_iff_toNat_le, UInt8.lt_iff_toNat_lt]

theorem isWide_of_isContinuation (h : isContinuation b = true) : IsWide b :=
  (isContinuation_iff.1 h).1

theorem width_eq (b : UInt8) : width b =
    if b.toNat < 0x80 then 1 else if b.toNat < 0xE0 then 2 else if b.toNat < 0xF0 then 3 else 4 := by
  simp [width, UInt8.lt_iff_toNat_lt]

theorem toNat_ofNat {n : Nat} (h : n < 0x100) : (UInt8.ofNat n).toNat = n :=
  UInt8.toNat_ofNat_of_lt' h

/-- A character beyond ASCII: a first byte that tells how many there are, and later ones. -/
theorem utf8EncodeChar_wide (hc : 0x80 ≤ c.toNat) :
    ∃ lead rest, String.utf8EncodeChar c = lead :: rest ∧ 0xC0 ≤ lead.toNat ∧
      width lead = (lead :: rest).length ∧ ∀ b ∈ rest, isContinuation b = true := by
  have hge : 0x80 ≤ c.val.toNat := hc
  have hlater (n : Nat) : isContinuation (UInt8.ofNat (n % 64 + 128)) = true := by
    rw [isContinuation_iff, toNat_ofNat (by omega)]
    omega
  unfold String.utf8EncodeChar
  generalize c.val.toNat = v at hge
  simp only
  rw [if_neg (by omega)]
  split
  · refine ⟨_, _, rfl, ?_, ?_, List.forall_mem_singleton.2 (hlater _)⟩
    · rw [toNat_ofNat (by omega)]
      omega
    · rw [width_eq, toNat_ofNat (by omega), if_neg (by omega), if_pos (by omega)]
      rfl
  · split
    · refine ⟨_, _, rfl, ?_, ?_,
        List.forall_mem_cons.2 ⟨hlater _, List.forall_mem_singleton.2 (hlater _)⟩⟩
      · rw [toNat_ofNat (by omega)]
        omega
      · rw [width_eq, toNat_ofNat (by omega), if_neg (by omega), if_neg (by omega),
          if_pos (by omega)]
        rfl
    · refine ⟨_, _, rfl, ?_, ?_, List.forall_mem_cons.2 ⟨hlater _,
        List.forall_mem_cons.2 ⟨hlater _, List.forall_mem_singleton.2 (hlater _)⟩⟩⟩
      · rw [toNat_ofNat (by omega)]
        omega
      · rw [width_eq, toNat_ofNat (by omega), if_neg (by omega), if_neg (by omega),
          if_neg (by omega)]
        rfl

/-- Any character: a byte that starts one, and later ones. -/
theorem exists_utf8EncodeChar (c : Char) :
    ∃ b rest, String.utf8EncodeChar c = b :: rest ∧ isContinuation b = false ∧
      ∀ b ∈ rest, isContinuation b = true := by
  by_cases hc : c.toNat < 0x80
  · refine ⟨byte c, [], utf8EncodeChar_ascii hc, ?_, by simp⟩
    rw [← Bool.not_eq_true, isContinuation_iff, toNat_byte hc]
    omega
  · obtain ⟨lead, rest, henc, hlead, -, hrest⟩ := utf8EncodeChar_wide (Nat.le_of_not_lt hc)
    refine ⟨lead, rest, henc, ?_, hrest⟩
    rw [← Bool.not_eq_true, isContinuation_iff]
    omega

@[simp] theorem utf8_nil : Text.utf8 [] = [] := rfl

theorem utf8_cons (c : Char) (t : Text) :
    Text.utf8 (c :: t) = String.utf8EncodeChar c ++ Text.utf8 t := rfl

theorem utf8_cons_ascii (hc : c.toNat < 0x80) (t : Text) :
    Text.utf8 (c :: t) = byte c :: Text.utf8 t := by
  rw [utf8_cons, utf8EncodeChar_ascii hc, List.singleton_append]

theorem utf8_append (s t : Text) : Text.utf8 (s ++ t) = Text.utf8 s ++ Text.utf8 t :=
  List.flatMap_append

theorem length_utf8 (t : Text) : (Text.utf8 t).length = t.size := by
  induction t with
  | nil => rfl
  | cons c t ih => rw [utf8_cons, List.length_append, String.length_utf8EncodeChar, ih, Text.size]

theorem utf8_inj {s t : Text} : Text.utf8 s = Text.utf8 t ↔ s = t := by
  constructor
  · intro h
    have hbytes : s.utf8Encode = t.utf8Encode := congrArg List.toByteArray h
    rw [← String.toByteArray_ofList, ← String.toByteArray_ofList, String.toByteArray_inj,
      String.ofList_inj] at hbytes
    exact hbytes
  · rintro rfl
    rfl

/-- Texts start alike just if their bytes do. -/
theorem utf8_prefix {s t : Text} : Text.utf8 s <+: Text.utf8 t ↔ s <+: t := by
  constructor
  · rintro ⟨rest, h⟩
    refine List.isPrefix_of_utf8Encode_append_eq_utf8Encode rest.toByteArray ?_
    have hbytes := congrArg List.toByteArray h
    rwa [List.toByteArray_append] at hbytes
  · rintro ⟨rest, rfl⟩
    exact ⟨Text.utf8 rest, (utf8_append s rest).symm⟩

theorem atBoundary_utf8 (t : Text) : atBoundary (Text.utf8 t) = true := by
  cases t with
  | nil => rfl
  | cons c t =>
    obtain ⟨b, rest, henc, hb, -⟩ := exists_utf8EncodeChar c
    simp [atBoundary, utf8_cons, henc, hb]

/-- A peek for an ASCII character sees the next character. -/
theorem head?_utf8 (hk : k.toNat < 0x80) (t : Text) :
    (Text.utf8 t).head? = some (byte k) ↔ t.head? = some k := by
  cases t with
  | nil => simp
  | cons c t =>
    by_cases hc : c.toNat < 0x80
    · rw [utf8_cons_ascii hc, List.head?_cons, List.head?_cons, Option.some_inj, Option.some_inj,
        byte_inj hc hk]
    · obtain ⟨lead, rest, henc, hlead, -⟩ := utf8EncodeChar_wide (Nat.le_of_not_lt hc)
      have hwide : IsWide lead := Nat.le_trans (by decide) hlead
      rw [utf8_cons, henc, List.cons_append, List.head?_cons, List.head?_cons, Option.some_inj,
        Option.some_inj]
      refine iff_of_false (hwide.ne_byte hk) ?_
      rintro rfl
      exact hc hk

/-! ### Cuts -/

/-- The bytes of the first characters and those of the other ones. -/
theorem utf8_split (n : Nat) (t : Text) :
    Text.utf8 t = Text.utf8 (t.take n) ++ Text.utf8 (t.drop n) := by
  rw [← utf8_append, List.take_append_drop]

theorem drop_utf8 (n : Nat) (t : Text) :
    (Text.utf8 t).drop (Text.size (t.take n)) = Text.utf8 (t.drop n) := by
  rw [utf8_split n t, ← length_utf8, List.drop_left]

theorem from?_utf8 (n : Nat) (t : Text) :
    from? (Text.size (t.take n)) (Text.utf8 t) = some (Text.utf8 (t.drop n)) := by
  have hle : Text.size (t.take n) ≤ (Text.utf8 t).length := by
    rw [utf8_split n t, List.length_append, length_utf8]
    omega
  simp [from?, drop_utf8, hle, atBoundary_utf8]

theorem take?_utf8 (n : Nat) (t : Text) :
    take? (Text.size (t.take n)) (Text.utf8 t) = some (Text.utf8 (t.take n)) := by
  have htake : (Text.utf8 t).take (Text.size (t.take n)) = Text.utf8 (t.take n) := by
    rw [utf8_split n t, ← length_utf8, List.take_left]
  simp [take?, from?_utf8, atBoundary_utf8, htake]

/-! ### Runs -/

theorem isWide_of_mem (hc : 0x80 ≤ c.toNat) : ∀ b ∈ String.utf8EncodeChar c, IsWide b := by
  obtain ⟨lead, rest, henc, hlead, -, hrest⟩ := utf8EncodeChar_wide hc
  intro b hb
  rw [henc, List.mem_cons] at hb
  obtain rfl | hb := hb
  · exact Nat.le_trans (by decide) hlead
  · exact isWide_of_isContinuation (hrest b hb)

theorem passes_all (run : List UInt8 → Nat)
    (hrun : ∀ b bs, IsWide b → run (b :: bs) = 1 + run bs) (ws bs : List UInt8)
    (hws : ∀ b ∈ ws, IsWide b) : run (ws ++ bs) = ws.length + run bs := by
  induction ws with
  | nil => simp
  | cons w ws ih =>
    have hrest := ih fun b hb => hws b (List.mem_cons_of_mem w hb)
    rw [List.cons_append, hrun w _ (hws w List.mem_cons_self), hrest, List.length_cons]
    omega

/-- A loop that goes through all bytes beyond ASCII goes through all such characters. -/
theorem passes_wide (run : List UInt8 → Nat)
    (hrun : ∀ b bs, IsWide b → run (b :: bs) = 1 + run bs) (hc : 0x80 ≤ c.toNat) (t : Text) :
    run (Text.utf8 (c :: t)) = c.utf8Size + run (Text.utf8 t) := by
  rw [utf8_cons, passes_all run hrun _ _ (isWide_of_mem hc), String.length_utf8EncodeChar]

/-- A loop that stops at a byte beyond ASCII stops at such a character. -/
theorem stops_wide (run : List UInt8 → Nat) (hrun : ∀ b bs, IsWide b → run (b :: bs) = 0)
    (hc : 0x80 ≤ c.toNat) (t : Text) : run (Text.utf8 (c :: t)) = 0 := by
  obtain ⟨lead, rest, henc, hlead, -⟩ := utf8EncodeChar_wide hc
  rw [utf8_cons, henc, List.cons_append, hrun lead _ (Nat.le_trans (by decide) hlead)]

theorem utf8Size_ascii (hc : c.toNat < 0x80) : c.utf8Size = 1 := by
  rw [← String.length_utf8EncodeChar, utf8EncodeChar_ascii hc, List.length_singleton]

theorem size_take_cons (c : Char) (t : Text) (n : Nat) :
    Text.size ((c :: t).take (1 + n)) = c.utf8Size + Text.size (t.take n) := by
  rw [Nat.add_comm 1 n, List.take_succ_cons, Text.size]

theorem size_take_pair (c k : Char) (t : Text) (n : Nat) :
    Text.size ((c :: k :: t).take (2 + n)) = c.utf8Size + (k.utf8Size + Text.size (t.take n)) := by
  rw [show 2 + n = 1 + (1 + n) by omega, size_take_cons, size_take_cons]

/-- The classes of characters that the scanner knows hold ASCII characters only. -/
theorem lt_of_isAlphanum (h : c.isAlphanum = true) : c.toNat < 0x80 := by
  have hupper (h : c.isUpper = true) : c.toNat ≤ 90 :=
    UInt32.le_iff_toNat_le.1 (of_decide_eq_true h).2
  have hlower (h : c.isLower = true) : c.toNat ≤ 122 :=
    UInt32.le_iff_toNat_le.1 (of_decide_eq_true (Bool.and_eq_true_iff.1 h).2)
  have hdigit (h : c.isDigit = true) : c.toNat ≤ 57 :=
    UInt32.le_iff_toNat_le.1 (of_decide_eq_true (Bool.and_eq_true_iff.1 h).2)
  obtain h | h := Bool.or_eq_true_iff.1 h
  · obtain h | h := Bool.or_eq_true_iff.1 h
    · exact Nat.lt_of_le_of_lt (hupper h) (by decide)
    · exact Nat.lt_of_le_of_lt (hlower h) (by decide)
  · exact Nat.lt_of_le_of_lt (hdigit h) (by decide)

theorem lt_of_isDigit (h : c.isDigit = true) : c.toNat < 0x80 :=
  lt_of_isAlphanum (by simp [Char.isAlphanum, h])

theorem lt_of_isWordChar (h : isWordChar c = true) : c.toNat < 0x80 := by
  simp only [isWordChar, Bool.or_eq_true, beq_iff_eq] at h
  rcases h with (h | rfl) | rfl
  · exact lt_of_isAlphanum h
  · decide
  · decide

theorem lt_of_isWordStart (h : isWordStart c = true) : c.toNat < 0x80 := by
  simp only [isWordStart, Bool.or_eq_true, beq_iff_eq] at h
  rcases h with (h | rfl) | rfl
  · exact lt_of_isAlphanum (by simp [Char.isAlphanum, h])
  · decide
  · decide

theorem lt_of_isNumberChar (h : isNumberChar c = true) : c.toNat < 0x80 := by
  simp only [isNumberChar, Bool.or_eq_true, beq_iff_eq] at h
  rcases h with (h | rfl) | rfl
  · exact lt_of_isAlphanum h
  · decide
  · decide

theorem lt_of_isBlank (h : isBlank c = true) : c.toNat < 0x80 := by
  simp only [isBlank, Bool.or_eq_true, beq_iff_eq] at h
  rcases h with ((((rfl | rfl) | rfl) | rfl) | rfl) | rfl <;> decide

theorem runOf_cons (p : UInt8 → Bool) (b : UInt8) (bs : List UInt8) :
    runOf p (b :: bs) = if p b then 1 + runOf p bs else 0 := by
  unfold runOf
  cases h : p b with
  | false => simp [h]
  | true => simp [h, Nat.add_comm]

theorem runOf_word (t : Text) :
    runOf (isIn isWordChar) (Text.utf8 t) = Text.size (t.take (wordRun t)) := by
  induction t with
  | nil => rfl
  | cons c t ih =>
    by_cases hc : c.toNat < 0x80
    · rw [utf8_cons_ascii hc, runOf_cons, isIn_byte hc, wordRun]
      cases isWordChar c with
      | false => rfl
      | true => rw [if_pos rfl, if_pos rfl, size_take_cons, ih, utf8Size_ascii hc]
    · have hno : ¬ isWordChar c = true := fun h => hc (lt_of_isWordChar h)
      have hstop := stops_wide (runOf (isIn isWordChar)) (fun b bs hb => by
        simp [runOf_cons, hb.isIn_eq_false fun _ => lt_of_isWordChar]) (Nat.le_of_not_lt hc) t
      rw [hstop, wordRun, if_neg hno]
      rfl

theorem runOf_line (t : Text) :
    runOf (· ≠ byte '\n') (Text.utf8 t) = Text.size (t.take (lineRun t)) := by
  induction t with
  | nil => rfl
  | cons c t ih =>
    by_cases hc : c.toNat < 0x80
    · rw [utf8_cons_ascii hc, runOf_cons, lineRun]
      by_cases hn : c = '\n'
      · rw [if_pos hn, if_neg (by simp [hn])]
        rfl
      · have hbyte : byte c ≠ byte '\n' := fun h => hn ((byte_inj hc (by decide)).1 h)
        rw [if_pos (by simpa using hbyte), if_neg hn, size_take_cons, ih, utf8Size_ascii hc]
    · have hn : c ≠ '\n' := by
        rintro rfl
        exact hc (by decide)
      have hpass := passes_wide (runOf (· ≠ byte '\n')) (fun b bs hb => by
        rw [runOf_cons, if_pos (by simpa using hb.ne_byte (by decide))]) (Nat.le_of_not_lt hc) t
      rw [hpass, lineRun, if_neg hn, size_take_cons, ih]

/-- Where the text continues no line, neither do its bytes. -/
theorem not_continues (hc : c.toNat < 0x80)
    (hpair : ∀ t', c = '\\' → t = '\n' :: t' → False) :
    ¬ (byte c = byte '\\' ∧ (Text.utf8 t).head? = some (byte '\n')) := by
  rintro ⟨hslash, hnext⟩
  rw [head?_utf8 (by decide)] at hnext
  obtain ⟨t', rfl⟩ := List.head?_eq_some_iff.1 hnext
  exact hpair t' ((byte_inj hc (by decide)).1 hslash) rfl

/-- Blanks by their first byte and a peek at the next one. -/
theorem blanks_cons (b : UInt8) (bs : List UInt8) : blanks (b :: bs) =
    if isIn isBlank b then 1 + blanks bs
    else if b = byte '\\' ∧ bs.head? = some (byte '\n') then 2 + blanks bs.tail
    else 0 := by
  cases bs with
  | nil => simp [blanks]
  | cons b' bs => simp [blanks]

theorem blanks_utf8 (t : Text) : blanks (Text.utf8 t) = Text.size (t.take (blankRun t)) := by
  fun_induction blankRun t with
  | case1 t ih =>
    rw [utf8_cons_ascii (by decide), utf8_cons_ascii (by decide), blanks_cons, if_neg (by decide),
      if_pos (by simp), List.tail_cons, ih, size_take_pair, ← Nat.add_assoc]
    rfl
  | case2 c t hpair hblank ih =>
    have hc := lt_of_isBlank hblank
    rw [utf8_cons_ascii hc, blanks_cons, isIn_byte hc, if_pos hblank, ih, size_take_cons,
      utf8Size_ascii hc]
  | case3 c t hpair hblank =>
    by_cases hc : c.toNat < 0x80
    · rw [utf8_cons_ascii hc, blanks_cons, isIn_byte hc, if_neg hblank,
        if_neg (not_continues hc hpair)]
      rfl
    · refine stops_wide blanks (fun b bs hb => ?_) (Nat.le_of_not_lt hc) t
      rw [blanks_cons, hb.isIn_eq_false fun _ => lt_of_isBlank]
      simp [hb.ne_byte]
  | case4 => rfl

theorem breaks_cons (b : UInt8) (bs : List UInt8) : breaks (b :: bs) =
    if b = byte '\\' ∧ bs.head? = some (byte '\n') then breaks bs.tail
    else b = byte '\n' || breaks bs := by
  cases bs with
  | nil => simp [breaks]
  | cons b' bs => simp [breaks]

theorem breaks_wide (ws bs : List UInt8) (hws : ∀ b ∈ ws, IsWide b) :
    breaks (ws ++ bs) = breaks bs := by
  induction ws with
  | nil => rfl
  | cons w ws ih =>
    have hw := hws w List.mem_cons_self
    rw [List.cons_append, breaks_cons, if_neg (fun h => hw.ne_byte (by decide) h.1),
      ih fun b hb => hws b (List.mem_cons_of_mem w hb)]
    simp [hw.ne_byte]

theorem breaks_utf8 (t : Text) : breaks (Text.utf8 t) = breaksLine t := by
  fun_induction breaksLine t with
  | case1 t ih =>
    rw [utf8_cons_ascii (by decide), utf8_cons_ascii (by decide), breaks_cons, if_pos (by simp),
      List.tail_cons, ih]
  | case2 c t hpair ih =>
    by_cases hc : c.toNat < 0x80
    · have hnewline : byte c = byte '\n' ↔ c = '\n' := byte_inj hc (by decide)
      rw [utf8_cons_ascii hc, breaks_cons, if_neg (not_continues hc hpair), ih, beq_eq_decide]
      simp only [hnewline]
    · have hn : c ≠ '\n' := by
        rintro rfl
        exact hc (by decide)
      rw [utf8_cons, breaks_wide _ _ (isWide_of_mem (Nat.le_of_not_lt hc)), ih]
      simp [hn]
  | case3 => rfl

theorem directive_cons (b : UInt8) (bs : List UInt8) : directive (b :: bs) =
    if b = byte '\\' ∧ bs.head? = some (byte '\n') then 2 + directive bs.tail
    else if b = byte '\n' then 0
    else 1 + directive bs := by
  cases bs with
  | nil => simp [directive]
  | cons b' bs => simp [directive]

theorem directive_utf8 (t : Text) :
    directive (Text.utf8 t) = Text.size (t.take (directiveRun t)) := by
  fun_induction directiveRun t with
  | case1 t ih =>
    rw [utf8_cons_ascii (by decide), utf8_cons_ascii (by decide), directive_cons,
      if_pos (by simp), List.tail_cons, ih, size_take_pair, ← Nat.add_assoc]
    rfl
  | case2 t hpair =>
    rw [utf8_cons_ascii (by decide), directive_cons, if_neg (by simp [byte_inj]), if_pos rfl]
    rfl
  | case3 c t hpair hn ih =>
    by_cases hc : c.toNat < 0x80
    · have hnewline : byte c ≠ byte '\n' := fun h => hn ((byte_inj hc (by decide)).1 h)
      rw [utf8_cons_ascii hc, directive_cons, if_neg (not_continues hc hpair), if_neg hnewline,
        ih, size_take_cons, utf8Size_ascii hc]
    · rw [passes_wide directive (fun b bs hb => ?_) (Nat.le_of_not_lt hc), ih, size_take_cons]
      rw [directive_cons, if_neg (fun h => hb.ne_byte (by decide) h.1),
        if_neg (hb.ne_byte (by decide))]
  | case4 => rfl

/-- What is left of a comment, by the search for its end. -/
def commentBytes (bs : List UInt8) : Nat :=
  (find? (Text.utf8 "*/".toList) bs).elim bs.length (· + 2)

theorem commentBytes_cons (b : UInt8) (bs : List UInt8) : commentBytes (b :: bs) =
    if b = byte '*' ∧ bs.head? = some (byte '/') then 2 else 1 + commentBytes bs := by
  have hpattern : Text.utf8 "*/".toList = [byte '*', byte '/'] := rfl
  unfold commentBytes
  rw [hpattern, find?]
  by_cases h : b = byte '*' ∧ bs.head? = some (byte '/')
  · obtain ⟨rfl, hnext⟩ := h
    obtain ⟨bs', rfl⟩ := List.head?_eq_some_iff.1 hnext
    simp
  · rw [if_neg h, if_neg]
    · cases find? [byte '*', byte '/'] bs with
      | none => simp [Nat.add_comm]
      | some n =>
        simp only [Option.map_some, Option.elim_some]
        omega
    · rw [List.isPrefixOf_iff_prefix]
      rintro ⟨rest, hrest⟩
      obtain ⟨rfl, rfl⟩ := List.cons.inj hrest
      exact h ⟨rfl, rfl⟩

theorem commentBytes_utf8 (t : Text) :
    commentBytes (Text.utf8 t) = Text.size (t.take (commentRun t)) := by
  fun_induction commentRun t with
  | case1 t =>
    rw [utf8_cons_ascii (by decide), utf8_cons_ascii (by decide), commentBytes_cons,
      if_pos (by simp)]
    rfl
  | case2 c t hpair ih =>
    by_cases hc : c.toNat < 0x80
    · rw [utf8_cons_ascii hc, commentBytes_cons, if_neg, ih, size_take_cons, utf8Size_ascii hc]
      rintro ⟨hstar, hnext⟩
      rw [head?_utf8 (by decide)] at hnext
      obtain ⟨t', rfl⟩ := List.head?_eq_some_iff.1 hnext
      exact hpair t' ((byte_inj hc (by decide)).1 hstar) rfl
    · rw [passes_wide commentBytes (fun b bs hb => ?_) (Nat.le_of_not_lt hc), ih, size_take_cons]
      rw [commentBytes_cons, if_neg (fun h => hb.ne_byte (by decide) h.1)]
  | case3 => rfl

theorem quotedBytes_cons (quote b : UInt8) (bs : List UInt8) : quotedBytes quote (b :: bs) =
    if b = byte '\\' then if bs = [] then 1 else 2 + quotedBytes quote bs.tail
    else if b = byte '\n' then 0
    else if b = quote then 1
    else 1 + quotedBytes quote bs := by
  cases bs with
  | nil =>
    by_cases hslash : b = byte '\\'
    · simp [quotedBytes, hslash, byte_inj]
    · simp [quotedBytes, hslash]
  | cons b' bs => simp [quotedBytes]

theorem quotedBytes_utf8 {quote : Char} (hquote : quote.toNat < 0x80) (t : Text) :
    quotedBytes (byte quote) (Text.utf8 t) = Text.size (t.take (quotedRun quote t)) := by
  have hwide (b : UInt8) (bs : List UInt8) (hb : IsWide b) :
      quotedBytes (byte quote) (b :: bs) = 1 + quotedBytes (byte quote) bs := by
    rw [quotedBytes_cons, if_neg (hb.ne_byte (by decide)), if_neg (hb.ne_byte (by decide)),
      if_neg (hb.ne_byte hquote)]
  have hno (c : Char) (t : Text) (hlast : c = '\\' → t = [] → False)
      (hpair : ∀ k t', c = '\\' → t = k :: t' → False) : c ≠ '\\' := by
    intro hslash
    cases t with
    | nil => exact hlast hslash rfl
    | cons k t' => exact hpair k t' hslash rfl
  fun_induction quotedRun quote t with
  | case1 => rfl
  | case2 => rfl
  | case3 c t ih =>
    -- the pair of bytes after a backslash may end inside a character, and the loop goes on there
    obtain ⟨b, rest, henc, -, hrest⟩ := exists_utf8EncodeChar c
    have hsize : c.utf8Size = 1 + rest.length := by
      rw [← String.length_utf8EncodeChar, henc, List.length_cons, Nat.add_comm]
    rw [utf8_cons_ascii (by decide), utf8_cons, henc, List.cons_append, quotedBytes_cons,
      if_pos rfl, if_neg (List.cons_ne_nil _ _), List.tail_cons,
      passes_all _ hwide rest _ fun b hb => isWide_of_isContinuation (hrest b hb), ih,
      size_take_pair, hsize, utf8Size_ascii (by decide)]
    omega
  | case4 t hlast hpair =>
    rw [utf8_cons_ascii (by decide), quotedBytes_cons, if_neg (by decide), if_pos rfl]
    rfl
  | case5 t hlast hpair hnewline =>
    have hslash := hno quote t hlast hpair
    rw [utf8_cons_ascii hquote, quotedBytes_cons,
      if_neg fun h => hslash ((byte_inj hquote (by decide)).1 h),
      if_neg fun h => hnewline ((byte_inj hquote (by decide)).1 h), if_pos rfl, size_take_cons quote t 0,
      utf8Size_ascii hquote]
    rfl
  | case6 c t hlast hpair hnewline hend ih =>
    by_cases hc : c.toNat < 0x80
    · have hslash := hno c t hlast hpair
      rw [utf8_cons_ascii hc, quotedBytes_cons,
        if_neg fun h => hslash ((byte_inj hc (by decide)).1 h),
        if_neg fun h => hnewline ((byte_inj hc (by decide)).1 h),
        if_neg fun h => hend ((byte_inj hc hquote).1 h), ih, size_take_cons, utf8Size_ascii hc]
    · rw [passes_wide _ hwide (Nat.le_of_not_lt hc), ih, size_take_cons]

theorem quoted_utf8 {quote : Char} (hquote : quote.toNat < 0x80) (t : Text) :
    quoted (byte quote) (Text.utf8 t) = Text.size (t.take (quotedRun quote t)) := by
  have hstop : runOf isContinuation (Text.utf8 (t.drop (quotedRun quote t))) = 0 := by
    have h := atBoundary_utf8 (t.drop (quotedRun quote t))
    cases hrest : Text.utf8 (t.drop (quotedRun quote t)) with
    | nil => rfl
    | cons b bs =>
      rw [hrest] at h
      simp only [atBoundary, List.head?_cons, Option.any_some, Bool.not_eq_true'] at h
      rw [runOf_cons, h]
      rfl
  unfold quoted
  simp only [quotedBytes_utf8 hquote, drop_utf8, hstop, Nat.add_zero]

/-- A number after a letter that may be followed by a sign, or not. -/
def numberAfter (afterExponent : Bool) (bs : List UInt8) : Nat :=
  if afterExponent ∧ (bs.head? = some (byte '+') ∨ bs.head? = some (byte '-')) then
    1 + number bs.tail
  else number bs

theorem number_cons (b : UInt8) (bs : List UInt8) : number (b :: bs) =
    if isIn isNumberChar b then 1 + numberAfter (isIn isExponent b) bs else 0 := by
  cases bs with
  | nil => simp [number, numberAfter]
  | cons b' bs =>
    simp only [number, numberAfter, List.head?_cons, Option.some_inj, List.tail_cons]
    split
    · split
      · omega
      · rfl
    · rfl

theorem numberAfter_utf8 (afterExponent : Bool) (t : Text) :
    numberAfter afterExponent (Text.utf8 t) = Text.size (t.take (numberRun afterExponent t)) := by
  induction t generalizing afterExponent with
  | nil => simp [numberAfter, number, numberRun, Text.size]
  | cons c t ih =>
    have hpeek : (Text.utf8 (c :: t)).head? = some (byte '+') ∨
        (Text.utf8 (c :: t)).head? = some (byte '-') ↔ c = '+' ∨ c = '-' := by
      rw [head?_utf8 (by decide), head?_utf8 (by decide)]
      simp
    unfold numberAfter
    simp only [hpeek]
    rw [numberRun]
    by_cases hnumber : isNumberChar c = true
    · have hc := lt_of_isNumberChar hnumber
      have hsign : ¬ (c = '+' ∨ c = '-') := by
        rintro (rfl | rfl)
        · exact absurd hnumber (by decide)
        · exact absurd hnumber (by decide)
      rw [if_neg fun h => hsign h.2, if_pos hnumber, utf8_cons_ascii hc, number_cons, isIn_byte hc,
        isIn_byte hc, if_pos hnumber, ih, size_take_cons, utf8Size_ascii hc]
    · rw [if_neg hnumber]
      by_cases hsign : afterExponent = true ∧ (c = '+' ∨ c = '-')
      · have hc : c.toNat < 0x80 := by
          obtain ⟨-, rfl | rfl⟩ := hsign
          · decide
          · decide
        have hafter : number (Text.utf8 t) = numberAfter false (Text.utf8 t) := by
          simp [numberAfter]
        rw [if_pos hsign, if_pos (by simpa using hsign), utf8_cons_ascii hc, List.tail_cons, hafter,
          ih, size_take_cons, utf8Size_ascii hc]
      · rw [if_neg hsign, if_neg (by simpa using hsign)]
        by_cases hc : c.toNat < 0x80
        · rw [utf8_cons_ascii hc, number_cons, isIn_byte hc, if_neg hnumber]
          rfl
        · refine stops_wide number (fun b bs hb => ?_) (Nat.le_of_not_lt hc) t
          rw [number_cons, hb.isIn_eq_false fun _ => lt_of_isNumberChar]
          rfl

/-! ### Tokens -/

theorem isOneOf_utf8 (words : List String) (t : Text) :
    isOneOf words (Text.utf8 t) = Token.isOneOf words t := by
  unfold isOneOf Token.isOneOf
  congr 1
  funext w
  rw [Bool.eq_iff_iff, beq_iff_eq, beq_iff_eq, utf8_inj]

theorem wordKind_utf8 (t : Text) : wordKind (Text.utf8 t) = Token.wordKind t := by
  unfold wordKind Token.wordKind
  congr 3
  funext w
  rw [Bool.eq_iff_iff, beq_iff_eq, beq_iff_eq, utf8_inj]

theorem comment_utf8 (t : Text) : comment (Text.utf8 ('/' :: '*' :: t)) =
    some (.comment, Text.size (('/' :: '*' :: t).take (2 + commentRun t))) := by
  have hfrom : from? 2 (Text.utf8 ('/' :: '*' :: t)) = some (Text.utf8 t) :=
    from?_utf8 2 ('/' :: '*' :: t)
  have hlength : (Text.utf8 ('/' :: '*' :: t)).length = 2 + (Text.utf8 t).length := by
    rw [utf8_cons_ascii (by decide), utf8_cons_ascii (by decide), List.length_cons,
      List.length_cons]
    omega
  have hend := commentBytes_utf8 t
  have hsize : Text.size (('/' :: '*' :: t).take (2 + commentRun t)) =
      2 + commentBytes (Text.utf8 t) := by
    rw [size_take_pair, utf8Size_ascii (by decide), utf8Size_ascii (by decide), hend]
    omega
  rw [hsize]
  unfold comment commentBytes
  rw [hfrom, Option.bind_eq_bind, Option.bind_some, hlength]
  cases find? (Text.utf8 "*/".toList) (Text.utf8 t) with
  | none => rfl
  | some n => rfl

theorem size_take_through {t rest : Text} {n : Nat} (hdrop : t.drop n = k :: rest) (m : Nat) :
    Text.size (t.take (n + 1 + m)) =
      Text.size (t.take n) + (k.utf8Size + Text.size (rest.take m)) := by
  rw [Nat.add_assoc, List.take_add, hdrop, Text.size_append, size_take_cons]

theorem word_utf8 (hc : isWordChar c = true) (t : Text) : word (Text.utf8 (c :: t)) =
    some ((wordExtent c t).1, Text.size (c :: t.take (wordExtent c t).2)) := by
  have htake (n : Nat) : (c :: t).take (1 + n) = c :: t.take n := by
    rw [Nat.add_comm, List.take_succ_cons]
  have hrun : runOf (isIn isWordChar) (Text.utf8 (c :: t)) =
      Text.size (c :: t.take (wordRun t)) := by
    rw [runOf_word, wordRun, if_pos hc, htake]
  have htext : take? (Text.size (c :: t.take (wordRun t))) (Text.utf8 (c :: t)) =
      some (Text.utf8 (c :: t.take (wordRun t))) := by
    rw [← htake, take?_utf8]
  have hdrop : (Text.utf8 (c :: t)).drop (Text.size (c :: t.take (wordRun t))) =
      Text.utf8 (t.drop (wordRun t)) := by
    rw [← htake, drop_utf8, Nat.add_comm, List.drop_succ_cons]
  unfold word wordExtent
  simp only [hrun, htext, hdrop, Option.bind_eq_bind, Option.bind_some, isOneOf_utf8,
    wordKind_utf8, head?_utf8 (k := '\x22') (by decide), head?_utf8 (k := '\x27') (by decide)]
  cases hrest : t.drop (wordRun t) with
  | nil => simp
  | cons q rest =>
    have hthrough (hq : q.toNat < 0x80) : Text.size (c :: t.take (wordRun t)) +
        (1 + quoted (byte q) (Text.utf8 (q :: rest)).tail) =
          Text.size (c :: t.take (wordRun t + 1 + quotedRun q rest)) := by
      rw [utf8_cons_ascii hq, List.tail_cons, quoted_utf8 hq, Text.size, Text.size,
        size_take_through hrest, utf8Size_ascii hq, Nat.add_assoc]
    by_cases hstring : q = '\x22'
    · subst hstring
      by_cases hmarker : Token.isOneOf stringMarkers (c :: t.take (wordRun t)) = true
      · simp [hmarker, hthrough (by decide)]
      · simp [hmarker]
    · by_cases hcharacter : q = '\x27'
      · subst hcharacter
        by_cases hmarker : Token.isOneOf characterMarkers (c :: t.take (wordRun t)) = true
        · simp [hmarker, hthrough (by decide)]
        · simp [hmarker]
      · simp [hstring, hcharacter]

theorem find?_marks (t : Text) :
    marks.find? (Text.utf8 ·.1.toList |>.isPrefixOf (Text.utf8 t)) =
      marks.find? (·.1.toList.isPrefixOf t) := by
  congr 1
  funext m
  rw [Bool.eq_iff_iff, List.isPrefixOf_iff_prefix, List.isPrefixOf_iff_prefix, utf8_prefix]

theorem width_head? (c : Char) (t : Text) :
    (Text.utf8 (c :: t)).head?.elim 1 width = c.utf8Size := by
  by_cases hc : c.toNat < 0x80
  · have hlt : (byte c).toNat < 0x80 := by rwa [toNat_byte hc]
    rw [utf8_cons_ascii hc, List.head?_cons, Option.elim_some, width_eq, if_pos hlt,
      utf8Size_ascii hc]
  · obtain ⟨lead, rest, henc, -, hwidth, -⟩ := utf8EncodeChar_wide (Nat.le_of_not_lt hc)
    rw [utf8_cons, henc, List.cons_append, List.head?_cons, Option.elim_some, hwidth, ← henc,
      String.length_utf8EncodeChar]

/-- What `extent` comes to where no other kind of token starts. -/
def markExtent (c : Char) (t : Text) : TokenKind × Nat :=
  match markAt (c :: t) with
  | some (kind, n) => (kind, n - 1)
  | none => (.stray, 0)

theorem mark_utf8 (c : Char) (t : Text) : mark (Text.utf8 (c :: t)) =
    some ((markExtent c t).1, Text.size (c :: t.take (markExtent c t).2)) := by
  have hfrom : from? 0 (Text.utf8 (c :: t)) = some (Text.utf8 (c :: t)) := from?_utf8 0 (c :: t)
  unfold mark markExtent markAt
  rw [hfrom, Option.bind_eq_bind, Option.bind_some, find?_marks]
  cases hfind : marks.find? (·.1.toList.isPrefixOf (c :: t)) with
  | none => simp [width_head?, Text.size]
  | some m =>
    have hne : m.1.toList ≠ [] := by
      have hall : ∀ m ∈ marks, m.1.toList ≠ [] := by decide
      exact hall m (List.mem_of_find?_eq_some hfind)
    have hprefix : m.1.toList <+: c :: t := by
      have h := List.find?_some hfind
      rwa [List.isPrefixOf_iff_prefix] at h
    have htake : c :: t.take (m.1.toList.length - 1) = m.1.toList := by
      rw [List.prefix_iff_eq_take] at hprefix
      have hlength := List.length_pos_iff.2 hne
      rw [← List.take_succ_cons, Nat.sub_add_cancel hlength]
      exact hprefix.symm
    simp only [Option.map_some, htake, length_utf8]

/-- A byte beyond ASCII starts a stray character. -/
theorem measure_wide (lineStart : Bool) (hc : 0x80 ≤ c.toNat) (t : Text) :
    measure lineStart (Text.utf8 (c :: t)) = mark (Text.utf8 (c :: t)) := by
  obtain ⟨lead, rest, henc, hlead, -⟩ := utf8EncodeChar_wide hc
  have hwide : IsWide lead := Nat.le_trans (by decide) hlead
  have hutf8 : Text.utf8 (c :: t) = lead :: (rest ++ Text.utf8 t) := by
    rw [utf8_cons, henc, List.cons_append]
  rw [hutf8]
  simp [measure, hwide.isIn_eq_false fun _ => lt_of_isBlank,
    hwide.isIn_eq_false fun _ => lt_of_isDigit, hwide.isIn_eq_false fun _ => lt_of_isWordStart,
    hwide.ne_byte]

theorem extent_wide (lineStart : Bool) (hc : 0x80 ≤ c.toNat) (t : Text) :
    extent lineStart c t = markExtent c t := by
  have hne (k : Char) (hk : k.toNat < 0x80) : c ≠ k := by
    rintro rfl
    omega
  have hblank : isBlank c = false := by
    rw [← Bool.not_eq_true]
    exact fun h => absurd (lt_of_isBlank h) (by omega)
  have hdigit : c.isDigit = false := by
    rw [← Bool.not_eq_true]
    exact fun h => absurd (lt_of_isDigit h) (by omega)
  have hstart : isWordStart c = false := by
    rw [← Bool.not_eq_true]
    exact fun h => absurd (lt_of_isWordStart h) (by omega)
  simp only [extent, hblank, hdigit, hstart, beq_iff_eq, hne, Bool.or_eq_true, Bool.and_eq_true,
    Bool.false_eq_true, Char.reduceToNat, Nat.reduceLT, false_and, or_self, if_false]
  rfl

/-- The digits and the dot start a number but are no exponent letters. -/
theorem isNumberChar_of_isDigit (h : c.isDigit = true ∨ c = '.') :
    isNumberChar c = true ∧ isExponent c = false := by
  obtain h | rfl := h
  · refine ⟨by simp [isNumberChar, Char.isAlphanum, h], ?_⟩
    have hne (k : Char) (hk : k.isDigit = false) : c ≠ k := by
      rintro rfl
      rw [h] at hk
      cases hk
    simp [isExponent, hne]
  · exact ⟨by decide, by decide⟩

theorem any_isDigit_utf8 (t : Text) :
    (Text.utf8 t).head?.any (isIn Char.isDigit) = t.head?.any Char.isDigit := by
  cases t with
  | nil => rfl
  | cons c t =>
    by_cases hc : c.toNat < 0x80
    · rw [utf8_cons_ascii hc, List.head?_cons, List.head?_cons, Option.any_some, Option.any_some,
        isIn_byte hc]
    · obtain ⟨lead, rest, henc, hlead, -⟩ := utf8EncodeChar_wide (Nat.le_of_not_lt hc)
      have hwide : IsWide lead := Nat.le_trans (by decide) hlead
      have hdigit : c.isDigit = false := by
        rw [← Bool.not_eq_true]
        exact fun h => hc (lt_of_isDigit h)
      rw [utf8_cons, henc, List.cons_append, List.head?_cons, List.head?_cons, Option.any_some,
        Option.any_some, hwide.isIn_eq_false fun _ => lt_of_isDigit, hdigit]

/-- **On the bytes of a text the scanner finds the token that stands there.** -/
theorem measure_utf8 (lineStart : Bool) (c : Char) (t : Text) :
    measure lineStart (Text.utf8 (c :: t)) =
      some ((extent lineStart c t).1, Text.size (c :: t.take (extent lineStart c t).2)) := by
  by_cases hc : c.toNat < 0x80
  · have hsize (n : Nat) : Text.size ((c :: t).take (1 + n)) = Text.size (c :: t.take n) := by
      rw [Nat.add_comm, List.take_succ_cons]
    have hhead : (Text.utf8 (c :: t)).head? = some (byte c) := by
      rw [utf8_cons_ascii hc, List.head?_cons]
    have htail : (Text.utf8 (c :: t)).tail = Text.utf8 t := by
      rw [utf8_cons_ascii hc, List.tail_cons]
    have hpeek (k : Char) (hk : k.toNat < 0x80) :
        (Text.utf8 t).head? = some (byte k) ↔ t.head? = some k := head?_utf8 hk t
    have hbyte (k : Char) (hk : k.toNat < 0x80) : byte c = byte k ↔ c = k := byte_inj hc hk
    unfold measure extent
    simp only [hhead, htail, Option.bind_eq_bind, Option.bind_some, isIn_byte hc, hbyte, hpeek,
      Char.reduceToNat, Nat.reduceLT, Bool.or_eq_true, Bool.and_eq_true, beq_iff_eq,
      any_isDigit_utf8]
    -- both sides now ask the same questions in the same order
    split
    · next hblank => rw [blanks_utf8, blankRun_of_blank hblank, hsize]
    split
    · next hline =>
      have hnewline : c ≠ '\n' := by
        rw [hline.1]
        decide
      rw [runOf_line, lineRun, if_neg hnewline, hsize]
    split
    · next hcomment =>
      obtain ⟨rfl, hnext⟩ := hcomment
      obtain ⟨t', rfl⟩ := List.head?_eq_some_iff.1 hnext
      rw [comment_utf8, List.tail_cons, ← hsize, ← Nat.add_assoc]
    split
    · next hdirective =>
      obtain ⟨rfl, -⟩ := hdirective
      have hrun : directiveRun ('#' :: t) = 1 + directiveRun t := by simp [directiveRun]
      rw [directive_utf8, hrun, hsize]
    split
    · rw [quoted_utf8 hc, Text.size, utf8Size_ascii hc]
    split
    · rw [quoted_utf8 hc, Text.size, utf8Size_ascii hc]
    split
    · next hnumber =>
      obtain ⟨hchar, hexponent⟩ := isNumberChar_of_isDigit (hnumber.imp_right And.left)
      rw [utf8_cons_ascii hc, number_cons, isIn_byte hc, isIn_byte hc, if_pos hchar, hexponent,
        numberAfter_utf8, Text.size, utf8Size_ascii hc]
    split
    · next hword => rw [word_utf8 (isWordChar_of_isWordStart hword)]
    · exact mark_utf8 c t
  · rw [measure_wide lineStart (Nat.le_of_not_lt hc), mark_utf8,
      extent_wide lineStart (Nat.le_of_not_lt hc)]

/-! ### Whole texts -/

/-- The bytes of any text can be scanned to their end, and give the tokens of the text. -/
theorem scan_split (lineStart : Bool) (t : Text) : scan lineStart (Text.utf8 t) =
    some ((split lineStart t).map fun k => (k.kind, Text.utf8 k.text)) := by
  fun_induction split lineStart t with
  | case1 lineStart =>
    rw [scan]
    rfl
  | case2 lineStart c cs e k ih =>
    have hne : Text.utf8 (c :: cs) ≠ [] := by
      obtain ⟨b, rest, henc, -⟩ := exists_utf8EncodeChar c
      rw [utf8_cons, henc, List.cons_append]
      exact List.cons_ne_nil _ _
    have htake : (c :: cs).take (e.2 + 1) = c :: cs.take e.2 := List.take_succ_cons
    have htext := take?_utf8 (e.2 + 1) (c :: cs)
    have hdrop := drop_utf8 (e.2 + 1) (c :: cs)
    rw [htake] at htext hdrop
    rw [List.drop_succ_cons] at hdrop
    -- a token holds its first character, so what is left gets shorter
    have hshorter : (Text.utf8 (c :: cs)).length - Text.size (c :: cs.take e.2) <
        (Text.utf8 (c :: cs)).length := by
      have hpos := Char.utf8Size_pos c
      rw [length_utf8, Text.size, Text.size]
      omega
    rw [scan, if_neg hne, measure_utf8]
    simp only [Option.bind_eq_bind, Option.bind_some]
    rw [htext, Option.bind_some, dif_pos hshorter, hdrop, breaks_utf8]
    have hflag : (decide (e.1 = .whitespace) && (lineStart || breaksLine (c :: cs.take e.2))) =
        k.endsAtLineStart lineStart := rfl
    rw [hflag, ih, Option.bind_some, List.map_cons]

end

end Bytes

/-- A token of a text starts where the text before it ends. -/
theorem Token.exists_text_of_mem_layout {t : Text} {l : Leaf}
    (h : l ∈ Leaf.layout 0 (tokens t)) :
    ∃ before after : Text, t = before ++ (l.token.text ++ after) ∧ l.start = before.size := by
  obtain ⟨before, after, hsplit, hstart⟩ := Leaf.exists_of_mem_layout h
  refine ⟨concat before, concat after, ?_, by rwa [Nat.zero_add] at hstart⟩
  have hconcat := concat_tokens t
  rw [hsplit, concat_append] at hconcat
  exact hconcat.symm

/-- A token of a text lies between two boundaries of it, and what is between them is its text. -/
theorem Token.mem_layout_tokens {t : Text} {l : Leaf} (h : l ∈ Leaf.layout 0 (tokens t)) :
    t.isBoundary l.start = true ∧ t.isBoundary (l.start + l.token.size) = true ∧
      t.slice l.start (l.start + l.token.size) = l.token.text := by
  obtain ⟨before, after, htext, hstart⟩ := exists_text_of_mem_layout h
  have hsize : l.start + l.token.size = (before ++ l.token.text).size := by
    rw [Text.size_append, hstart]
    rfl
  refine ⟨?_, ?_, ?_⟩
  · rw [hstart, htext]
    exact Text.isBoundary_size _ _
  · rw [hsize, htext, ← List.append_assoc]
    exact Text.isBoundary_size _ _
  · unfold Text.slice
    rw [Nat.add_sub_cancel_left, hstart, htext, Text.after_size_append]
    exact Text.upTo_size_append _ _

/-- **Splitting a text is safe and loses nothing.** A scanner over its bytes comes to the end with no
cut inside a character and no empty token, and finds the tokens of the text; each of them lies
between two characters, and together they spell the text. -/
theorem tokens_lossless (t : Text) :
    Bytes.scan true t.utf8 = some ((tokens t).map fun k => (k.kind, k.text.utf8)) ∧
      (∀ k ∈ tokens t, k.text ≠ []) ∧
      (∀ l ∈ Leaf.layout 0 (tokens t), t.isBoundary l.start = true ∧
        t.isBoundary (l.start + l.token.size) = true ∧
        t.slice l.start (l.start + l.token.size) = l.token.text) ∧
      Token.concat (tokens t) = t ∧ (tokens t).flatMap (·.text.utf8) = t.utf8 := by
  refine ⟨Bytes.scan_split true t, ?_, fun l => Token.mem_layout_tokens, Token.concat_tokens t, ?_⟩
  · intro k hk hempty
    have hpos : 0 < k.size := Token.size_pos_of_mem_split hk
    rw [Token.size, hempty] at hpos
    exact absurd hpos (Nat.lt_irrefl 0)
  · have hbytes : (tokens t).flatMap (·.text.utf8) = Text.utf8 (Token.concat (tokens t)) :=
      List.flatMap_assoc.symm
    rw [hbytes, Token.concat_tokens]

/-- A backslash before a character of two bytes, in a literal that runs into the end of the text:
byte 3 is inside the character, and the token ends after it. -/
theorem tokens_lossless_escape :
    let t := "\"\\é".toList
    let l : Leaf := ⟨0, ⟨.string, t⟩⟩
    l ∈ Leaf.layout 0 (tokens t) ∧
      Bytes.scan true (Text.utf8 t) = some [(.string, [0x22, 0x5C, 0xC3, 0xA9])] ∧
      Text.isBoundary 3 t = false ∧ Text.isBoundary (l.start + l.token.size) t = true := by
  intro t l
  have hl : l ∈ Leaf.layout 0 (tokens t) := by decide +kernel
  obtain ⟨hscan, -, hlayout, -⟩ := tokens_lossless t
  have htokens : (tokens t).map (fun k => (k.kind, Text.utf8 k.text)) =
      [(.string, [0x22, 0x5C, 0xC3, 0xA9])] := by decide +kernel
  exact ⟨hl, hscan.trans (congrArg some htokens), by decide +kernel, (hlayout l hl).2.1⟩

end Whittle
