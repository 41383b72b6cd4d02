import Whittle.Token.Extent

/-!
# Splitting a text into tokens

* `tokens`: all tokens of a text in order, trivia included.
* `concat_tokens`: together they spell the text, so nothing is lost.
-/

namespace Whittle

namespace Token

/-- Whether a `#` after this token still opens a directive. -/
def endsAtLineStart (lineStart : Bool) (t : Token) : Bool :=
  t.kind = .whitespace && (lineStart || breaksLine t.text)

/-- The tokens of a text. The flag says that only blanks stand before it on its line. -/
def split (lineStart : Bool) : Text → List Token
  | [] => []
  | c :: cs =>
    let e := extent lineStart c cs
    let t : Token := ⟨e.1, c :: cs.take e.2⟩
    t :: split (t.endsAtLineStart lineStart) (cs.drop e.2)
termination_by t => t.length
decreasing_by simp only [List.length_cons, List.length_drop]; omega

end Token

/-- The tokens of a text, trivia included. -/
def tokens (t : Text) : List Token := Token.split true t

namespace Token

theorem concat_split (lineStart : Bool) (t : Text) : concat (split lineStart t) = t := by
  fun_induction split lineStart t with
  | case1 => rfl
  | case2 lineStart c cs e t ih =>
    have hrest : (split (t.endsAtLineStart lineStart) (cs.drop e.2)).flatMap (·.text) =
        cs.drop e.2 := ih
    simp only [concat, List.flatMap_cons, hrest, t, List.cons_append, List.take_append_drop]

/-- The tokens of a text together spell it. -/
@[simp] theorem concat_tokens (t : Text) : concat (tokens t) = t := concat_split true t

end Token

end Whittle
