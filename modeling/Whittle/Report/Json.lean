import Whittle.Text

/-!
# JSON values

`Json.render` writes a value on one line without blanks. In texts the quote, the backslash and the
control characters are escaped; everything else stands for itself.
-/

namespace Whittle

/-- The JSON values that reports are made of. -/
inductive Json where
  | number (n : Nat)
  | text (s : Text)
  | array (items : List Json)
  | object (fields : List (String × Json))

namespace Json

/-- A hexadecimal digit. -/
def hexDigit (n : Nat) : Char := "0123456789abcdef".toList.getD n '0'

/-- How a character is written within quotes. -/
def escape (c : Char) : Text :=
  if c = '\x22' || c = '\\' then ['\\', c]
  else if c = '\n' then ['\\', 'n']
  else if c = '\r' then ['\\', 'r']
  else if c = '\t' then ['\\', 't']
  else if c = '\x08' then ['\\', 'b']
  else if c = '\x0c' then ['\\', 'f']
  else if c.toNat < 32 then ['\\', 'u', '0', '0', hexDigit (c.toNat / 16), hexDigit (c.toNat % 16)]
  else [c]

/-- A text within quotes. -/
def quote (s : Text) : Text := '\x22' :: s.flatMap escape ++ ['\x22']

/-- Texts with a separator between them. -/
def joined (separator : Char) : List Text → Text
  | [] => []
  | [t] => t
  | t :: ts => t ++ separator :: joined separator ts

mutual

/-- The written form of a value. -/
def render : Json → Text
  | .number n => (toString n).toList
  | .text s => quote s
  | .array items => '[' :: joined ',' (renderItems items) ++ [']']
  | .object fields => '\x7b' :: joined ',' (renderFields fields) ++ ['\x7d']

/-- The written forms of some values. -/
def renderItems : List Json → List Text
  | [] => []
  | v :: vs => v.render :: renderItems vs

/-- The written forms of some fields. -/
def renderFields : List (String × Json) → List Text
  | [] => []
  | (name, v) :: fields => (quote name.toList ++ ':' :: v.render) :: renderFields fields

end

end Json

end Whittle
