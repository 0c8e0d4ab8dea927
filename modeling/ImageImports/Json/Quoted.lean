/-!
# `ImageImports.Json.Quoted`: quoted JSON strings

A quoted string stands between two quotation marks. Only the quotation mark, the backslash and the
control characters below U+0020 are escaped: five of those have a letter of their own, the others
are written as four hexadecimal digits in lower case.

Main definition: `Json.quote`.
-/

set_option autoImplicit false

namespace ImageImports.Json

/-- The lower case hexadecimal digit of a number below sixteen. -/
def hexDigit (n : Nat) : Char :=
  if n < 10 then Char.ofNat (n + 48) else Char.ofNat (n + 87)

/-- How a character is written inside a quoted string. -/
def escapeChar (c : Char) : List Char :=
  if c = '"' then ['\\', '"']
  else if c = '\\' then ['\\', '\\']
  else if c = '\n' then ['\\', 'n']
  else if c = '\r' then ['\\', 'r']
  else if c = '\t' then ['\\', 't']
  else if c.toNat = 8 then ['\\', 'b']
  else if c.toNat = 12 then ['\\', 'f']
  else if c.toNat < 32 then ['\\', 'u', '0', '0', hexDigit (c.toNat / 16), hexDigit (c.toNat % 16)]
  else [c]

/-- The characters of a text as they are written inside a quoted string. -/
def escapeChars : List Char → List Char
  | [] => []
  | c :: rest => escapeChar c ++ escapeChars rest

/-- The characters of a quoted string. -/
def quoteChars (chars : List Char) : List Char :=
  '"' :: (escapeChars chars ++ ['"'])

/-- The text as a quoted JSON string. -/
def quote (text : String) : String :=
  String.ofList (quoteChars text.toList)

end ImageImports.Json
