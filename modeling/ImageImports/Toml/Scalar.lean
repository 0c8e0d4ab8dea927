import ImageImports.Toml.Value

/-!
# `ImageImports.Toml.Scalar`: numbers, dates and truth values

A scalar without quotation marks is a run of characters that is classified as a whole. Digits may be
grouped by single underscores between them. A decimal number has no leading zeros. An integer is in
range if it fits into 128 bits, and a number with a fraction or an exponent if it does not round to
infinity as a 64-bit floating point number. A date or a time has to be one of the calendar and the
clock; seconds may be left out.

Main definition: `scalar?`.
-/

set_option autoImplicit false

namespace ImageImports.Toml

/-- Whether a character is a decimal digit. -/
def isDecimal (c : Char) : Bool := '0' ≤ c && c ≤ '9'

/-- Whether a character is a hexadecimal digit. -/
def isHexadecimal (c : Char) : Bool :=
  isDecimal c || ('a' ≤ c && c ≤ 'f') || ('A' ≤ c && c ≤ 'F')

/-- Whether some characters are digits with single underscores between them. -/
def isGrouped (isDigit : Char → Bool) : List Char → Bool
  | [] => false
  | [c] => isDigit c
  | c :: '_' :: rest => isDigit c && isGrouped isDigit rest
  | c :: rest => isDigit c && isGrouped isDigit rest

/-- The characters after an optional sign. -/
def withoutSign : List Char → List Char
  | '+' :: rest => rest
  | '-' :: rest => rest
  | chars => chars

/-- Whether some characters are a decimal integer without a sign. -/
def isUnsignedInteger : List Char → Bool
  | ['0'] => true
  | '0' :: _ => false
  | chars => isGrouped isDecimal chars

/-- Whether some characters are an integer. -/
def isInteger : List Char → Bool
  | '0' :: 'x' :: rest => isGrouped isHexadecimal rest
  | '0' :: 'o' :: rest => isGrouped (fun c => '0' ≤ c && c ≤ '7') rest
  | '0' :: 'b' :: rest => isGrouped (fun c => c == '0' || c == '1') rest
  | chars => isUnsignedInteger (withoutSign chars)

/-- Whether some characters are the rest of a number after its exponent's letter. -/
def isExponent (chars : List Char) : Bool := isGrouped isDecimal (withoutSign chars)

/-- Whether a character starts an exponent. -/
def isExponentLetter (c : Char) : Bool := c == 'e' || c == 'E'

/-- Whether some characters are a floating point number. -/
def isFloat (chars : List Char) : Bool :=
  let chars := withoutSign chars
  if chars = ['i', 'n', 'f'] ∨ chars = ['n', 'a', 'n'] then true
  else
    let mantissa := chars.takeWhile fun c => !isExponentLetter c
    let exponent := chars.drop mantissa.length
    let whole := mantissa.takeWhile (· != '.')
    let fraction := mantissa.drop whole.length
    isUnsignedInteger whole
      && (fraction.isEmpty || isGrouped isDecimal (fraction.drop 1))
      && (exponent.isEmpty || isExponent (exponent.drop 1))
      && !(fraction.isEmpty && exponent.isEmpty)

/-! ### Ranges -/

/-- The value of a hexadecimal digit. -/
def digitValue (c : Char) : Nat :=
  if isDecimal c then c.toNat - 48 else if 'a' ≤ c then c.toNat - 87 else c.toNat - 55

/-- The number that digits of a base stand for, without regard to underscores. -/
def digitsValue (base : Nat) (chars : List Char) : Nat :=
  (chars.filter (· != '_')).foldl (fun n c => n * base + digitValue c) 0

/-- Whether the integer that some characters are fits into 128 bits, with a sign or without. -/
def integerFits : List Char → Bool
  | '0' :: 'x' :: rest => digitsValue 16 rest < Nat.pow 2 128
  | '0' :: 'o' :: rest => digitsValue 8 rest < Nat.pow 2 128
  | '0' :: 'b' :: rest => digitsValue 2 rest < Nat.pow 2 128
  | '-' :: rest => digitsValue 10 rest ≤ Nat.pow 2 127
  | chars => digitsValue 10 (withoutSign chars) < Nat.pow 2 128

/-- The least magnitude that rounds to infinity as a 64-bit floating point number. -/
def infinityBound : Nat := Nat.pow 2 1024 - Nat.pow 2 970

/-- Whether a decimal significand, of a number of digits, times a power of ten rounds to a finite
64-bit floating point number. Far from the bound the number of digits decides. -/
def decimalFits (significand digits : Nat) (power : Int) : Bool :=
  significand = 0 || digits + power < 300
    || (digits + power < 320
      && (if 0 ≤ power then significand * Nat.pow 10 power.toNat < infinityBound
          else significand < infinityBound * Nat.pow 10 (-power).toNat))

/-- Whether the floating point number that some characters are rounds to a finite one, or is written
as infinity. -/
def floatFits (chars : List Char) : Bool :=
  let chars := (withoutSign chars).filter (· != '_')
  if chars = ['i', 'n', 'f'] ∨ chars = ['n', 'a', 'n'] then true
  else
    let mantissa := chars.takeWhile fun c => !isExponentLetter c
    let exponent := chars.drop (mantissa.length + 1)
    let whole := mantissa.takeWhile (· != '.')
    let fraction := mantissa.drop (whole.length + 1)
    let digits := (whole ++ fraction).dropWhile (· == '0')
    let size := digitsValue 10 (withoutSign exponent)
    let power : Int := if exponent.head? = some '-' then -size else size
    decimalFits (digitsValue 10 digits) digits.length (power - fraction.length)

/-! ### Dates and times -/

/-- The number that some digits stand for, if they are a given number of digits. -/
def fixedDigits? (count : Nat) (chars : List Char) : Option Nat :=
  if chars.length = count ∧ chars.all isDecimal then
    some (chars.foldl (fun n c => n * 10 + (c.toNat - 48)) 0)
  else none

/-- The number of days of a month. -/
def daysOfMonth (year month : Nat) : Nat :=
  if month = 2 then
    if year % 4 = 0 ∧ (year % 100 ≠ 0 ∨ year % 400 = 0) then 29 else 28
  else if month = 4 ∨ month = 6 ∨ month = 9 ∨ month = 11 then 30
  else 31

/-- Whether ten characters are a date. -/
def isDate (chars : List Char) : Bool :=
  match fixedDigits? 4 (chars.take 4), fixedDigits? 2 ((chars.drop 5).take 2),
      fixedDigits? 2 (chars.drop 8) with
  | some year, some month, some day =>
      chars[4]? == some '-' && chars[7]? == some '-'
        && 1 ≤ month && month ≤ 12 && 1 ≤ day && day ≤ daysOfMonth year month
  | _, _, _ => false

/-- Whether five characters are an hour and a minute. -/
def isHourMinute (chars : List Char) : Bool :=
  match fixedDigits? 2 (chars.take 2), fixedDigits? 2 (chars.drop 3) with
  | some hour, some minute => chars[2]? == some ':' && hour ≤ 23 && minute ≤ 59
  | _, _ => false

/-- Whether some characters are a second, with its fraction, or nothing. -/
def isSecond : List Char → Bool
  | [] => true
  | ':' :: rest =>
      let fraction := rest.drop 2
      (match fixedDigits? 2 (rest.take 2) with
        | some second => second ≤ 60
        | none => false)
        && (fraction.isEmpty
          || fraction.head? == some '.' && 1 < fraction.length && (fraction.drop 1).all isDecimal)
  | _ => false

/-- Whether some characters are a time of the day. -/
def isTime (chars : List Char) : Bool := isHourMinute (chars.take 5) && isSecond (chars.drop 5)

/-- Whether some characters are the distance of a local time from the common time. -/
def isOffset : List Char → Bool
  | ['Z'] => true
  | ['z'] => true
  | '+' :: rest => isHourMinute rest
  | '-' :: rest => isHourMinute rest
  | _ => false

/-- Whether a character starts the offset of a time. -/
def startsOffset (c : Char) : Bool := c == 'Z' || c == 'z' || c == '+' || c == '-'

/-- Whether some characters are a separator with a time of the day behind it, and perhaps an offset,
or nothing: what may follow a date. -/
def isTimeOfDate : List Char → Bool
  | [] => true
  | separator :: rest =>
      let time := rest.takeWhile fun c => !startsOffset c
      let offset := rest.drop time.length
      (separator == 'T' || separator == 't' || separator == ' ')
        && isTime time && (offset.isEmpty || isOffset offset)

/-- Whether some characters are a date, a time, or both. -/
def isDatetime (chars : List Char) : Bool :=
  if isDate (chars.take 10) then isTimeOfDate (chars.drop 10) else isTime chars

/-- The value that a run of characters without quotation marks stands for. -/
def scalar? (chars : List Char) : Option Value :=
  if chars = ['t', 'r', 'u', 'e'] then some (.boolean true)
  else if chars = ['f', 'a', 'l', 's', 'e'] then some (.boolean false)
  else if isInteger chars then
    some (.scalar (if integerFits chars then .integer else .excessive))
  else if isFloat chars then some (.scalar (if floatFits chars then .float else .excessive))
  else if isDatetime chars then some (.scalar .datetime)
  else none

end ImageImports.Toml
