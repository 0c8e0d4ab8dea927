import ImageImports.Json.Quoted

/-!
# `ImageImports.Toml.Quoted`: quoted TOML strings

A text is written in the plainest of four forms that shows it without escapes: between quotation
marks, between apostrophes, and between three of either, in this order with the three quotation
marks before the three apostrophes. A text that needs escapes in every form is written between
quotation marks, or between three of them if it has line breaks. A form over several lines starts
with a line break of its own where the text has line breaks.

Main definition: `Toml.quote`.
-/

set_option autoImplicit false

namespace ImageImports.Toml

/-- The length of the longest run of a character. -/
def longestRun (c : Char) (chars : List Char) : Nat :=
  (chars.foldl (fun (best, run) x =>
    let run := if x = c then run + 1 else 0
    (max best run, run)) (0, 0)).1

/-- Whether a character is a control character that no form shows as it is. -/
def needsCode (c : Char) : Bool :=
  (c.toNat < 32 && c != '\t' && c != '\n') || c.toNat == 127

/-- The upper case hexadecimal digit of a number below sixteen. -/
def upperHexDigit (n : Nat) : Char :=
  if n < 10 then Char.ofNat (n + 48) else Char.ofNat (n + 55)

/-- How a character is written between quotation marks; line breaks stay in a form over several
lines. -/
def escapeChar (lines : Bool) (c : Char) : List Char :=
  if c.toNat = 8 then ['\\', 'b']
  else if c = '\t' then ['\\', 't']
  else if c = '\n' then if lines then ['\n'] else ['\\', 'n']
  else if c.toNat = 12 then ['\\', 'f']
  else if c = '\r' then ['\\', 'r']
  else if c = '\\' then ['\\', '\\']
  else if c.toNat < 32 ∨ c.toNat = 127 then
    ['\\', 'u', '0', '0', upperHexDigit (c.toNat / 16), upperHexDigit (c.toNat % 16)]
  else [c]

/-- The characters of a text between quotation marks. Up to `allowed` quotation marks in a row stay
as they are; the next one is escaped. The first argument counts those in the current row. -/
def escapeChars (lines : Bool) (allowed : Nat) : Nat → List Char → List Char
  | _, [] => []
  | row, c :: rest =>
      if c = '"' then
        if allowed ≤ row then '\\' :: '"' :: escapeChars lines allowed 0 rest
        else '"' :: escapeChars lines allowed (row + 1) rest
      else escapeChar lines c ++ escapeChars lines allowed 0 rest

/-- The text between quotation marks. -/
def basic (chars : List Char) : String :=
  "\"" ++ String.ofList (escapeChars false 0 0 chars) ++ "\""

/-- The text between three quotation marks. -/
def basicLines (chars : List Char) : String :=
  "\"\"\"" ++ (if chars.contains '\n' then "\n" else "")
    ++ String.ofList (escapeChars true 2 0 chars) ++ "\"\"\""

/-- The text between apostrophes. -/
def literal (chars : List Char) : String := "'" ++ String.ofList chars ++ "'"

/-- The text between three apostrophes. -/
def literalLines (chars : List Char) : String :=
  "'''" ++ (if chars.contains '\n' then "\n" else "") ++ String.ofList chars ++ "'''"

/-- The text as a quoted TOML string. -/
def quote (text : String) : String :=
  let chars := text.toList
  let codes := chars.any needsCode
  let backslash := chars.contains '\\'
  let lines := chars.contains '\n'
  let quotes := longestRun '"' chars
  let apostrophes := longestRun '\'' chars
  if !codes && !backslash && quotes == 0 && !lines then basic chars
  else if !codes && apostrophes == 0 && !lines then literal chars
  else if !codes && !backslash && quotes ≤ 2 then basicLines chars
  else if !codes && apostrophes ≤ 2 then literalLines chars
  else if lines then basicLines chars
  else basic chars

end ImageImports.Toml
