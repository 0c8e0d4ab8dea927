import ImageImports.Json.Basic
import ImageImports.Decimal.Shortest

/-!
# `ImageImports.Json.Number`: the text of a number

An integer is written by its digits. A floating point number is written by the fewest digits that
read back, in positional notation while the exponent of its first digit is between `-5` and `15`,
and with a signed exponent beyond that. Positional notation always shows a decimal point, so a
floating point number never reads back as an integer.

Main definition: `Number.text`.
-/

set_option autoImplicit false

namespace ImageImports

namespace ShortDecimal

/-- The smallest exponent of the first digit that is written in positional notation. -/
def minPositional : Int := -5

/-- The largest exponent of the first digit that is written in positional notation. -/
def maxPositional : Int := 15

/-- The text of a positive decimal. -/
def text (d : ShortDecimal) : String :=
  let digits := toString d.digits
  let count := digits.length
  -- The exponent of the first digit.
  let exponent : Int := d.power + count - 1
  if minPositional ≤ exponent ∧ exponent ≤ maxPositional then
    if 0 ≤ d.power then
      digits ++ String.ofList (List.replicate d.power.toNat '0') ++ ".0"
    else if 0 ≤ exponent then
      let whole := exponent.toNat + 1
      String.ofList (digits.toList.take whole) ++ "." ++ String.ofList (digits.toList.drop whole)
    else
      "0." ++ String.ofList (List.replicate (-exponent - 1).toNat '0') ++ digits
  else
    let sign := if exponent < 0 then "-" else "+"
    let fraction := digits.toList.drop 1
    String.ofList (digits.toList.take 1)
      ++ (if fraction.isEmpty then "" else "." ++ String.ofList fraction)
      ++ "e" ++ sign ++ toString exponent.natAbs

end ShortDecimal

/-- The text of a floating point magnitude. -/
def Binary64.text (x : Binary64) : String :=
  if x.isZero then "0.0" else x.shortest.text

/-- The text of a number. -/
def Number.text : Number → String
  | .integer n => toString n
  | .float negative x => (if negative then "-" else "") ++ x.text

end ImageImports
