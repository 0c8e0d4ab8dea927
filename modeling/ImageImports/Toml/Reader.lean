import ImageImports.Toml.Scalar

/-!
# `ImageImports.Toml.Reader`: reading a TOML text

A text is a sequence of lines: blank ones, comments, headers and key-value pairs. Readers take the
unread characters and return what they read with the characters behind it; they have no result where
the text is malformed. Lists and inline tables may be nested eighty deep. All loops are bounded by a
limit that the length of the text satisfies.

Main definition: `Toml.parse?`, the entries of the table that a text describes.
-/

set_option autoImplicit false

namespace ImageImports.Toml

/-- Something that reads a thing from the front of some characters. -/
abbrev Reads (α : Type) := List Char → Option (α × List Char)

/-! ### Blanks, comments and line ends -/

/-- Whether a character is a blank inside a line. -/
def isBlank (c : Char) : Bool := c == ' ' || c == '\t'

/-- The characters after leading blanks. -/
def skipBlanks (chars : List Char) : List Char := chars.dropWhile isBlank

/-- Whether a character may stand in a comment or a string as it is. -/
def isPlain (c : Char) : Bool := c == '\t' || (32 ≤ c.toNat && c.toNat != 127)

/-- Skips a comment, if there is one, up to the end of its line. -/
def skipComment : List Char → List Char
  | '#' :: rest => rest.dropWhile isPlain
  | chars => chars

/-- Skips one end of a line. -/
def lineEnd? : List Char → Option (List Char)
  | '\n' :: rest => some rest
  | '\r' :: '\n' :: rest => some rest
  | _ => none

/-- Skips blanks, comments and line ends. -/
def skipGap : Nat → List Char → List Char
  | 0, chars => chars
  | n + 1, chars =>
      let chars := skipComment (skipBlanks chars)
      match lineEnd? chars with
      | some rest => skipGap n rest
      | none => chars

/-- Skips blanks and line ends. -/
def skipBlankLines : Nat → List Char → List Char
  | 0, chars => chars
  | n + 1, chars =>
      let chars := skipBlanks chars
      match lineEnd? chars with
      | some rest => skipBlankLines n rest
      | none => chars

/-- Accepts the end of a line or of the text, with blanks and a comment before it. -/
def endOfLine? (chars : List Char) : Option (List Char) :=
  match skipComment (skipBlanks chars) with
  | [] => some []
  | chars => lineEnd? chars

/-! ### Strings -/

/-- Reads the character with a code of a fixed number of hexadecimal digits. -/
def codePoint? (count : Nat) : Reads Char := fun chars =>
  let digits := chars.take count
  if digits.length = count ∧ digits.all isHexadecimal then
    let code := digits.foldl (fun n c => n * 16 + digitValue c) 0
    if code < 0xD800 ∨ (0xDFFF < code ∧ code < 0x110000) then
      some (Char.ofNat code, chars.drop count)
    else none
  else none

/-- Reads what follows a backslash. -/
def escape? : Reads Char
  | 'b' :: rest => some (Char.ofNat 8, rest)
  | 't' :: rest => some ('\t', rest)
  | 'n' :: rest => some ('\n', rest)
  | 'f' :: rest => some (Char.ofNat 12, rest)
  | 'r' :: rest => some ('\r', rest)
  | 'e' :: rest => some (Char.ofNat 27, rest)
  | '"' :: rest => some ('"', rest)
  | '\\' :: rest => some ('\\', rest)
  | 'x' :: rest => codePoint? 2 rest
  | 'u' :: rest => codePoint? 4 rest
  | 'U' :: rest => codePoint? 8 rest
  | _ => none

/-- Reads the rest of a string on one line between quotation marks. -/
def basicString? : Nat → List Char → Reads String
  | 0, _, _ => none
  | n + 1, seen, chars =>
      match chars with
      | '"' :: rest => some (String.ofList seen.reverse, rest)
      | '\\' :: rest => do
          let (c, rest) ← escape? rest
          basicString? n (c :: seen) rest
      | c :: rest => if isPlain c then basicString? n (c :: seen) rest else none
      | [] => none

/-- Reads the rest of a string on one line between apostrophes. -/
def literalString? (chars : List Char) : Option (String × List Char) :=
  let inside := chars.takeWhile fun c => isPlain c && c != '\''
  match chars.drop inside.length with
  | '\'' :: rest => some (String.ofList inside, rest)
  | _ => none

/-- The end of a string over several lines: three marks, of which up to two more may still belong to
the string. -/
def closeLines? (mark : Char) (seen : List Char) (chars : List Char) :
    Option (String × List Char) :=
  let marks := (chars.takeWhile (· == mark)).length
  if marks < 3 ∨ 5 < marks then none
  else some (String.ofList (List.replicate (marks - 3) mark ++ seen).reverse, chars.drop marks)

/-- Reads the rest of a string over several lines. Ends of lines stay as they are written. Escapes
count only between quotation marks, where a backslash at the end of a line also joins it with the
next text. -/
def linesString? (mark : Char) : Nat → List Char → Reads String
  | 0, _, _ => none
  | n + 1, seen, chars =>
      match chars with
      | [] => none
      | '\r' :: '\n' :: rest => linesString? mark n ('\n' :: '\r' :: seen) rest
      | '\n' :: rest => linesString? mark n ('\n' :: seen) rest
      | c :: rest =>
          if c = mark then
            if rest.take 2 = [mark, mark] then closeLines? mark seen chars
            else linesString? mark n (c :: seen) rest
          else if c = '\\' ∧ mark = '"' then
            match lineEnd? (skipBlanks rest) with
            | some behind => linesString? mark n seen (skipBlankLines n behind)
            | none => do
                let (c, rest) ← escape? rest
                linesString? mark n (c :: seen) rest
          else if isPlain c then linesString? mark n (c :: seen) rest
          else none

/-- The characters after one line end, if they start with one. -/
def dropLineEnd (chars : List Char) : List Char := (lineEnd? chars).getD chars

/-- Reads a string on one line. -/
def lineString? (limit : Nat) : Reads String
  | '"' :: rest => basicString? limit [] rest
  | '\'' :: rest => literalString? rest
  | _ => none

/-- Reads a string of any of the four kinds. -/
def string? (limit : Nat) : Reads String
  | '"' :: '"' :: '"' :: rest => linesString? '"' limit [] (dropLineEnd rest)
  | '\'' :: '\'' :: '\'' :: rest => linesString? '\'' limit [] (dropLineEnd rest)
  | chars => lineString? limit chars

/-! ### Keys -/

/-- Whether a character may stand in a key without quotation marks. -/
def isBareKeyChar (c : Char) : Bool :=
  isDecimal c || ('a' ≤ c && c ≤ 'z') || ('A' ≤ c && c ≤ 'Z') || c == '_' || c == '-'

/-- Reads one part of a key. -/
def keyPart? (limit : Nat) (chars : List Char) : Option (String × List Char) :=
  let bare := chars.takeWhile isBareKeyChar
  if bare.isEmpty then lineString? limit chars
  else some (String.ofList bare, chars.drop bare.length)

/-- Reads a key: its parts, with dots between them, and the blanks behind it. -/
def key? (limit : Nat) : Nat → Reads (List String)
  | 0, _ => none
  | n + 1, chars => do
      let (part, rest) ← keyPart? limit (skipBlanks chars)
      match skipBlanks rest with
      | '.' :: rest => do
          let (parts, rest) ← key? limit n rest
          return (part :: parts, rest)
      | rest => return ([part], rest)

/-! ### Values -/

/-- Whether a character may stand in a scalar without quotation marks. -/
def isScalarChar (c : Char) : Bool := isBareKeyChar c || c == '+' || c == '.' || c == ':'

/-- Reads a scalar without quotation marks. A blank may stand between a date and a time. -/
def scalarValue? (chars : List Char) : Option (Value × List Char) :=
  let run := chars.takeWhile isScalarChar
  let rest := chars.drop run.length
  let joined :=
    match rest with
    | ' ' :: c :: more =>
        if run.length = 10 ∧ isDate run ∧ isDecimal c then
          run ++ ' ' :: (c :: more).takeWhile isScalarChar
        else run
    | _ => run
  (scalar? joined).map fun value => (value, chars.drop joined.length)

/-- Splits a key into the path and the last name. -/
def splitKey (key : List String) : List String × String := (key.dropLast, key.getLastD "")

/-- Reads the items of a list behind its bracket. -/
def items? (limit : Nat) (value : Reads Value) : Nat → List Value → Reads (List Value)
  | 0, _, _ => none
  | n + 1, seen, chars =>
      match skipGap limit chars with
      | ']' :: rest => some (seen.reverse, rest)
      | chars => do
          let (item, rest) ← value chars
          match skipGap limit rest with
          | ',' :: rest => items? limit value n (item :: seen) rest
          | ']' :: rest => return ((item :: seen).reverse, rest)
          | _ => none

/-- Reads the entries of an inline table behind its brace. Between its parts, but not inside a key,
there may be line ends and comments. -/
def entries? (limit : Nat) (value : Reads Value) : Nat → Table → Reads Table
  | 0, _, _ => none
  | n + 1, seen, chars =>
      match skipGap limit chars with
      | '}' :: rest => some (seen, rest)
      | chars => do
          let (key, rest) ← key? limit limit chars
          match skipGap limit rest with
          | '=' :: rest => do
              let (item, rest) ← value (skipGap limit rest)
              let (path, name) := splitKey key
              let entries ← Table.assign? item name path seen
              match skipGap limit rest with
              | ',' :: rest => entries? limit value n entries rest
              | '}' :: rest => return (entries, rest)
              | _ => none
          | _ => none

/-- Reads a value in which lists and inline tables are nested at most `depth` deep. -/
def value? (limit : Nat) : Nat → Reads Value
  | depth, chars =>
      match chars with
      | '"' :: _ => (string? limit chars).map fun (text, rest) => (.string text, rest)
      | '\'' :: _ => (string? limit chars).map fun (text, rest) => (.string text, rest)
      | '[' :: rest =>
          match depth with
          | 0 => none
          | depth + 1 =>
              (items? limit (value? limit depth) limit [] rest).map
                fun (items, rest) => (.array false items, rest)
      | '{' :: rest =>
          match depth with
          | 0 => none
          | depth + 1 =>
              (entries? limit (value? limit depth) limit [] rest).map
                fun (entries, rest) => (.table .inline entries, rest)
      | _ => scalarValue? chars

/-! ### Lines -/

/-- How deep lists and inline tables may be nested. -/
def maxDepth : Nat := 80

/-- What the lines read so far describe: the entries of the whole text, and the path of the header
that further key-value pairs belong to. -/
structure Progress where
  /-- The entries of the whole text. -/
  entries : Table
  /-- The path of the last header. -/
  header : List String

/-- Reads a header behind its first bracket. -/
def header? (limit : Nat) (progress : Progress) (chars : List Char) :
    Option (Progress × List Char) :=
  match chars with
  | '[' :: chars => do
      let (key, rest) ← key? limit limit chars
      match rest with
      | ']' :: ']' :: rest => do
          let (path, name) := splitKey key
          let entries ← Table.below? (Table.openElement? name) path progress.entries
          return (⟨entries, key⟩, rest)
      | _ => none
  | chars => do
      let (key, rest) ← key? limit limit chars
      match rest with
      | ']' :: rest => do
          let (path, name) := splitKey key
          let entries ← Table.below? (Table.openTable? name) path progress.entries
          return (⟨entries, key⟩, rest)
      | _ => none

/-- Reads a key-value pair. -/
def pair? (limit : Nat) (progress : Progress) (chars : List Char) :
    Option (Progress × List Char) := do
  let (key, rest) ← key? limit limit chars
  match rest with
  | '=' :: rest => do
      let (value, rest) ← value? limit maxDepth (skipBlanks rest)
      let (path, name) := splitKey key
      let entries ← Table.below? (Table.assign? value name path) progress.header progress.entries
      return ({ progress with entries }, rest)
  | _ => none

/-- Reads all lines. -/
def lines? (limit : Nat) : Nat → Progress → List Char → Option Progress
  | 0, _, _ => none
  | n + 1, progress, chars =>
      match skipGap limit chars with
      | [] => some progress
      | '[' :: rest => do
          let (progress, rest) ← header? limit progress rest
          lines? limit n progress (← endOfLine? rest)
      | chars => do
          let (progress, rest) ← pair? limit progress chars
          lines? limit n progress (← endOfLine? rest)

/-- The entries of the table that a text describes. A byte order mark in front is ignored. -/
def parse? (text : String) : Option Table :=
  let chars :=
    match text.toList with
    | c :: rest => if c.toNat = 0xFEFF then rest else c :: rest
    | [] => []
  let limit := chars.length + 1
  (lines? limit limit ⟨[], []⟩ chars).map Progress.entries

end ImageImports.Toml
