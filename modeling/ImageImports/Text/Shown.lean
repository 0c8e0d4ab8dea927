import ImageImports.Text.Printable

/-!
# `ImageImports.Text.Shown`: a text shown inside a message

A text inside an error message stands between quotation marks, and everything in it that would not
show itself is spelled out: the quotation mark, the backslash and the common control characters by a
backslash and a letter, every other character that does not show itself by its code point.

Main definition: `shown`.
-/

set_option autoImplicit false

namespace ImageImports.Text

/-- How a character is shown. -/
def shownChar (c : Char) : String :=
  if c.toNat = 0 then "\\0"
  else if c = '\t' then "\\t"
  else if c = '\r' then "\\r"
  else if c = '\n' then "\\n"
  else if c = '\\' then "\\\\"
  else if c = '"' then "\\\""
  else if 32 ≤ c.toNat ∧ c.toNat < 127 then c.toString
  else if showsItself c then c.toString
  else "\\u\x7b" ++ String.ofList (Nat.toDigits 16 c.toNat) ++ "\x7d"

/-- The text between quotation marks, with everything that does not show itself spelled out. -/
def shown (text : String) : String :=
  "\"" ++ text.toList.foldl (fun out c => out ++ shownChar c) "" ++ "\""

end ImageImports.Text
