/-!
# Texts and byte positions

A text is a list of characters. Positions in it are byte offsets of its UTF-8 form, and a span is
a pair of such positions, the second one exclusive.

* `Text.size`: the number of bytes.
* `Text.upTo`, `Text.after`: the parts before and from a byte position; together they are the text.
* `Text.isBoundary`: whether a position lies between characters.
* `Text.lineColumn`: the line and column of a byte position, both counted from one.
-/

namespace Whittle

/-- A text, character by character. -/
abbrev Text := List Char

namespace Text

/-- The number of bytes of the UTF-8 form. -/
def size : Text → Nat
  | [] => 0
  | c :: cs => c.utf8Size + size cs

/-- The characters that end at or before byte `n`. -/
def upTo (n : Nat) : Text → Text
  | [] => []
  | c :: cs => if c.utf8Size ≤ n then c :: upTo (n - c.utf8Size) cs else []

/-- What follows `upTo n`. -/
def after (n : Nat) : Text → Text
  | [] => []
  | c :: cs => if c.utf8Size ≤ n then after (n - c.utf8Size) cs else c :: cs

/-- The part between two byte positions. -/
def slice (start stop : Nat) (t : Text) : Text :=
  (t.after start).upTo (stop - start)

/-- Whether byte position `n` lies inside the text and between two characters, the ends
included. -/
def isBoundary (n : Nat) : Text → Bool
  | [] => n == 0
  | c :: cs => n == 0 || (decide (c.utf8Size ≤ n) && isBoundary (n - c.utf8Size) cs)

/-- Line and column of byte position `n`, both from one. A line ends with its newline, and columns
count characters. -/
def lineColumn (t : Text) (n : Nat) : Nat × Nat :=
  let before := t.upTo n
  (before.count '\n' + 1, (before.reverse.takeWhile (· ≠ '\n')).length + 1)

@[simp] theorem upTo_append_after (n : Nat) (t : Text) : t.upTo n ++ t.after n = t := by
  induction t generalizing n with
  | nil => rfl
  | cons c cs ih =>
    by_cases h : c.utf8Size ≤ n
    · simp [upTo, after, h, ih]
    · simp [upTo, after, h]

@[simp] theorem size_append (s t : Text) : size (s ++ t) = s.size + t.size := by
  induction s with
  | nil => simp [size]
  | cons c cs ih => simp only [List.cons_append, size, ih]; omega

end Text

/-- A stretch of a text: from byte `start` up to but excluding byte `stop`. -/
structure Span where
  start : Nat
  stop : Nat
deriving DecidableEq

namespace Span

/-- The number of bytes of a span. -/
def size (s : Span) : Nat := s.stop - s.start

/-- A span as reports write it, such as `4..7`. -/
def render (s : Span) : String := s!"{s.start}..{s.stop}"

end Span

end Whittle
