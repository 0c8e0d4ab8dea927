import ImageImports.Json.Error

/-!
# `ImageImports.Json.Cursor`: a place in a text that is being read

A cursor holds the characters that are still to be read and counts lines and bytes on the way. An
error stands either where the cursor is (`Cursor.here`) or one byte further, at the byte that the
reader looked at without consuming it (`Cursor.peeked`).

The scanners of this module read the leaves of a JSON text: blanks, literals, numbers and strings.
Main definitions: `Cursor.string`, `Cursor.number` and `Cursor.literal`.
-/

set_option autoImplicit false

namespace ImageImports.Json

/-- The unread characters of a text and the place where they start. -/
structure Cursor where
  /-- The characters still to be read. -/
  rest : List Char
  /-- The current line, counted from one. -/
  line : Nat
  /-- The bytes of the current line that are already read. -/
  column : Nat
deriving DecidableEq, Repr

namespace Cursor

/-- The cursor at the start of a text. -/
def ofString (text : String) : Cursor := ⟨text.toList, 1, 0⟩

/-- The next unread character. -/
def head? (c : Cursor) : Option Char := c.rest.head?

/-- The cursor behind the next character. -/
def next : Cursor → Cursor
  | ⟨[], line, column⟩ => ⟨[], line, column⟩
  | ⟨ch :: rest, line, column⟩ =>
      if ch = '\n' then ⟨rest, line + 1, 0⟩ else ⟨rest, line, column + ch.utf8Size⟩

/-- The place of the cursor. -/
def here (c : Cursor) : Position := ⟨c.line, c.column⟩

/-- The place one byte behind the cursor; at the end of the text, the end. -/
def peeked (c : Cursor) : Position :=
  match c.rest with
  | [] => c.here
  | ch :: _ => if ch = '\n' then ⟨c.line + 1, 0⟩ else ⟨c.line, c.column + 1⟩

/-- A fault where the cursor stands. -/
def failHere {α : Type} (c : Cursor) (cause : Fault) : Except ReadError α :=
  .error (.fault cause c.here)

/-- A fault at the byte behind the cursor. -/
def failPeeked {α : Type} (c : Cursor) (cause : Fault) : Except ReadError α :=
  .error (.fault cause c.peeked)

/-! ### Blanks -/

/-- The four characters that may stand between the parts of a JSON text. -/
def isBlank (ch : Char) : Bool := ch == ' ' || ch == '\n' || ch == '\t' || ch == '\r'

/-- The cursor behind the leading blanks of some characters. -/
def skipBlanksFrom : List Char → Nat → Nat → Cursor
  | [], line, column => ⟨[], line, column⟩
  | ch :: rest, line, column =>
      if isBlank ch then
        if ch = '\n' then skipBlanksFrom rest (line + 1) 0
        else skipBlanksFrom rest line (column + 1)
      else ⟨ch :: rest, line, column⟩

/-- The cursor at the next character that is not blank. -/
def skipBlanks (c : Cursor) : Cursor := skipBlanksFrom c.rest c.line c.column

/-! ### Literals -/

/-- Reads the given characters, one after the other. -/
def literal (c : Cursor) : List Char → Except ReadError Cursor
  | [] => .ok c
  | expected :: more =>
      match c.head? with
      | none => c.failHere .endOfValue
      | some ch => if ch = expected then literal c.next more else c.failPeeked .expectedLiteral

/-! ### Strings -/

/-- The value of a hexadecimal digit. -/
def hexValue? (ch : Char) : Option Nat :=
  if '0' ≤ ch ∧ ch ≤ '9' then some (ch.toNat - 48)
  else if 'a' ≤ ch ∧ ch ≤ 'f' then some (ch.toNat - 87)
  else if 'A' ≤ ch ∧ ch ≤ 'F' then some (ch.toNat - 55)
  else none

/-- The place a number of bytes further on, if the text has that many. -/
def placeAfter? : Nat → List Char → Nat → Nat → Option Position
  | 0, _, line, column => some ⟨line, column⟩
  | _ + 1, [], _, _ => none
  | n + 1, ch :: rest, line, column =>
      if ch = '\n' then placeAfter? n rest (line + 1) 0
      else if ch.utf8Size ≤ n + 1 then
        placeAfter? (n + 1 - ch.utf8Size) rest line (column + ch.utf8Size)
      else some ⟨line, column + n + 1⟩
termination_by _ rest => rest.length

/-- The place behind the last character of a text. -/
def placeAtEnd : List Char → Nat → Nat → Position
  | [], line, column => ⟨line, column⟩
  | ch :: rest, line, column =>
      if ch = '\n' then placeAtEnd rest (line + 1) 0
      else placeAtEnd rest line (column + ch.utf8Size)

/-- Reads four hexadecimal digits. Four bytes that are something else are skipped before the
complaint, a shorter text to its end. -/
def hexFour (c : Cursor) : Except ReadError (Nat × Cursor) :=
  let complaint : Except ReadError (Nat × Cursor) :=
    match placeAfter? 4 c.rest c.line c.column with
    | some place => .error (.fault .invalidEscape place)
    | none => .error (.fault .endOfString (placeAtEnd c.rest c.line c.column))
  match c.rest with
  | x :: y :: z :: w :: rest =>
      match hexValue? x, hexValue? y, hexValue? z, hexValue? w with
      | some x, some y, some z, some w =>
          .ok (((x * 16 + y) * 16 + z) * 16 + w, ⟨rest, c.line, c.column + 4⟩)
      | _, _, _, _ => complaint
  | _ => complaint

/-- Reads what follows the letter of a hexadecimal escape. A leading surrogate needs a trailing one
in a second escape. -/
def unicodeEscape (c : Cursor) : Except ReadError (Char × Cursor) := do
  let (unit, c) ← c.hexFour
  if 0xDC00 ≤ unit ∧ unit ≤ 0xDFFF then c.failHere .loneSurrogate
  else if unit < 0xD800 ∨ 0xDBFF < unit then .ok (Char.ofNat unit, c)
  else
    match c.head? with
    | none => c.failHere .endOfString
    | some '\\' =>
        let c := c.next
        match c.head? with
        | none => c.failHere .endOfString
        | some 'u' => do
            let (second, c) ← c.next.hexFour
            if second < 0xDC00 ∨ 0xDFFF < second then c.failHere .loneSurrogate
            else .ok (Char.ofNat ((unit - 0xD800) * 0x400 + (second - 0xDC00) + 0x10000), c)
        | some _ => c.failPeeked .unfinishedSurrogate
    | some _ => c.failPeeked .unfinishedSurrogate

/-- Reads what follows a backslash. -/
def escape (c : Cursor) : Except ReadError (Char × Cursor) :=
  match c.head? with
  | none => c.failHere .endOfString
  | some '"' => .ok ('"', c.next)
  | some '\\' => .ok ('\\', c.next)
  | some '/' => .ok ('/', c.next)
  | some 'b' => .ok (Char.ofNat 8, c.next)
  | some 'f' => .ok (Char.ofNat 12, c.next)
  | some 'n' => .ok ('\n', c.next)
  | some 'r' => .ok ('\r', c.next)
  | some 't' => .ok ('\t', c.next)
  | some 'u' => c.next.unicodeEscape
  | some _ => c.failPeeked .invalidEscape

/-- Reads the characters of a string up to its closing quotation mark; those already read are held
in reverse order. The first argument bounds the number of characters. -/
def stringChars : Nat → List Char → Cursor → Except ReadError (List Char × Cursor)
  | 0, _, c => c.failHere .endOfString
  | n + 1, seen, c =>
      match c.head? with
      | none => c.failHere .endOfString
      | some '"' => .ok (seen.reverse, c.next)
      | some '\\' => do
          let (ch, c) ← c.next.escape
          stringChars n (ch :: seen) c
      | some ch =>
          if ch.toNat < 32 then c.failPeeked .controlCharacter
          else stringChars n (ch :: seen) c.next

/-- Reads a string whose opening quotation mark is already read. The limit bounds its length; the
length of the whole text is enough. -/
def string (limit : Nat) (c : Cursor) : Except ReadError (String × Cursor) := do
  let (chars, c) ← stringChars limit [] c
  .ok (String.ofList chars, c)

/-! ### Numbers -/

/-- Whether a character is a decimal digit. -/
def isDigit (ch : Char) : Bool := '0' ≤ ch && ch ≤ '9'

/-- The value of a decimal digit. -/
def digitValue (ch : Char) : Nat := ch.toNat - 48

/-- The leading decimal digits, and the cursor behind them. -/
def digits (c : Cursor) : List Char × Cursor :=
  let taken := c.rest.takeWhile isDigit
  (taken, ⟨c.rest.dropWhile isDigit, c.line, c.column + taken.length⟩)

/-- Appends digits to a significand while it fits into 64 bits, and says how many it took. -/
def appendDigits (significand : Nat) : List Char → Nat × Nat
  | [] => (significand, 0)
  | ch :: rest =>
      let longer := significand * 10 + digitValue ch
      if longer < Nat.pow 2 64 then
        let (result, taken) := appendDigits longer rest
        (result, taken + 1)
      else (significand, 0)

/-- The value of the digits of an exponent while it fits into 31 bits; otherwise the number of
digits at which it stops fitting. -/
def exponentValue : List Char → Nat → Nat → Except Nat Nat
  | [], value, _ => .ok value
  | ch :: rest, value, read =>
      let longer := value * 10 + digitValue ch
      if longer < Nat.pow 2 31 then exponentValue rest longer (read + 1) else .error (read + 1)

/-- Reads the digits before a decimal point: a zero, or digits that do not start with one. -/
def wholeDigits (c : Cursor) : Except ReadError (List Char × Cursor) :=
  match c.head? with
  | none => c.failHere .endOfValue
  | some '0' =>
      match c.next.head? with
      | some ch => if isDigit ch then c.next.failPeeked .invalidNumber else .ok (['0'], c.next)
      | none => .ok (['0'], c.next)
  | some ch => if isDigit ch then .ok c.digits else c.failPeeked .invalidNumber

/-- Reads a decimal point and the digits behind it, if there is a decimal point. -/
def fractionDigits (c : Cursor) : Except ReadError (Option (List Char) × Cursor) :=
  if c.head? = some '.' then
    let (taken, behind) := c.next.digits
    if taken.isEmpty then
      if behind.rest.isEmpty then behind.failPeeked .endOfValue
      else behind.failPeeked .invalidNumber
    else .ok (some taken, behind)
  else .ok (none, c)

/-- Reads the exponent, if there is one: whether it is negative, its digits, and the cursor in front
of the digits. -/
def exponentDigits (c : Cursor) : Except ReadError (Option (Bool × List Char × Cursor) × Cursor) :=
  if c.head? = some 'e' ∨ c.head? = some 'E' then
    let c := c.next
    let negative := c.head? == some '-'
    let c := if negative || c.head? == some '+' then c.next else c
    let (taken, behind) := c.digits
    if taken.isEmpty then
      if c.rest.isEmpty then c.failHere .endOfValue else c.failPeeked .invalidNumber
    else .ok (some (negative, taken, c), behind)
  else .ok (none, c)

/-- The number with the given digits before and after the decimal point and the given exponent.
Digits that do not fit into a 64-bit significand are dropped, and those before the decimal point
are made up for in the exponent; `none` where the number exceeds every finite one. -/
def floatOf? (negative : Bool) (whole fraction : List Char) (exponent : Int) : Option Number :=
  let (significand, taken) := appendDigits 0 whole
  let (significand, places) := appendDigits significand fraction
  let power := ((whole.length - taken : Nat) : Int) - places + exponent
  (Binary64.ofDecimal significand power).map (.float negative)

/-- The integer with the given digits, if it fits into 64 bits; a negative zero does not. -/
def integerOf? (negative : Bool) (whole : List Char) : Option Number :=
  let (significand, taken) := appendDigits 0 whole
  if taken < whole.length then none
  else if negative then
    if significand = 0 ∨ Nat.pow 2 63 < significand then none else some (.integer (-significand))
  else some (.integer significand)

/-- Whether all digits read so far are zeros, as far as they fit into the significand. -/
def isZeroSignificand (whole fraction : List Char) : Bool :=
  (appendDigits (appendDigits 0 whole).1 fraction).1 == 0

/-- Reads a number. -/
def number (c : Cursor) : Except ReadError (Number × Cursor) := do
  let negative := c.head? == some '-'
  let (whole, c) ← (if negative then c.next else c).wholeDigits
  let (fraction?, c) ← c.fractionDigits
  let (exponent?, c) ← c.exponentDigits
  let fraction := fraction?.getD []
  let finish (exponent : Int) : Except ReadError (Number × Cursor) :=
    match floatOf? negative whole fraction exponent with
    | some n => .ok (n, c)
    | none => c.failHere .numberOutOfRange
  match exponent? with
  | some (down, taken, start) =>
      match exponentValue taken 0 0 with
      | .ok value => finish (if down then -value else value)
      | .error read =>
          if down || isZeroSignificand whole fraction then
            .ok (.float negative Binary64.zero, c)
          else .error (.fault .numberOutOfRange ⟨start.line, start.column + read⟩)
  | none =>
      if fraction?.isSome then finish 0
      else
        match integerOf? negative whole with
        | some n => .ok (n, c)
        | none => finish 0

end Cursor

end ImageImports.Json
