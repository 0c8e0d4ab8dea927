/-!
# `ImageImports.Cli.Count`: counts in arguments

A count is written in decimal digits, with or without a plus sign, and is below `2 ^ 64`.

Main definition: `Count.read`.
-/

set_option autoImplicit false

namespace ImageImports.Count

/-- Why a text is no count. -/
inductive ReadError where
  /-- The text is empty. -/
  | empty
  /-- There is a character that is no digit. -/
  | invalidDigit
  /-- The number is too large. -/
  | tooLarge
deriving DecidableEq, Repr

/-- The text of an error. -/
def ReadError.message : ReadError → String
  | .empty => "cannot parse integer from empty string"
  | .invalidDigit => "invalid digit found in string"
  | .tooLarge => "number too large to fit in target type"

/-- The least number that is too large. -/
def limit : Nat := Nat.pow 2 64

/-- Reads further digits of a count. The first character that makes the text no count decides
why. -/
def readDigits : Nat → List Char → Except ReadError Nat
  | count, [] => .ok count
  | count, c :: rest =>
      if c.isDigit then
        let count := count * 10 + (c.toNat - '0'.toNat)
        if limit ≤ count then .error .tooLarge else readDigits count rest
      else .error .invalidDigit

/-- Reads a count. -/
def read (text : String) : Except ReadError Nat :=
  match text.toList with
  | [] => .error .empty
  | ['+'] => .error .invalidDigit
  | '+' :: digits => readDigits 0 digits
  | digits => readDigits 0 digits

end ImageImports.Count
