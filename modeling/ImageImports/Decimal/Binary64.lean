/-!
# `ImageImports.Decimal.Binary64`: finite 64-bit floating point magnitudes

A magnitude is `significand * 2 ^ exponent` with the significand below `2 ^ 53`. A nonzero
magnitude either has a significand of full width or sits on the smallest exponent, so every
magnitude has one spelling. All arithmetic is exact on natural numbers, followed by one rounding
to the nearest magnitude with ties to the even significand (`Binary64.ofRatio`).

Main definitions: `Binary64.ofRatio`, which rounds a quotient, and `Binary64.ofDecimal`, which
reads a decimal significand and a power of ten.
-/

set_option autoImplicit false

namespace ImageImports

/-- The magnitude `significand * 2 ^ exponent` of a finite 64-bit floating point number. -/
structure Binary64 where
  /-- The integer significand, below `2 ^ 53`. -/
  significand : Nat
  /-- The power of two that scales the significand, between `-1074` and `971`. -/
  exponent : Int
deriving DecidableEq, Repr

namespace Binary64

/-- The exponent of the smallest nonzero magnitude. -/
def minExponent : Int := -1074

/-- The exponent of the largest magnitude. -/
def maxExponent : Int := 971

/-- The magnitude zero, spelled on the smallest exponent. -/
def zero : Binary64 := ⟨0, minExponent⟩

/-- Zero is the only magnitude whose significand is zero. -/
def isZero (x : Binary64) : Bool := x.significand == 0

/-! ### Rounding a quotient -/

/-- The natural number nearest to `num / den`; a tie goes to the even one. -/
def roundQuotient (num den : Nat) : Nat :=
  let quotient := num / den
  let rest := num % den
  if 2 * rest < den then quotient
  else if den < 2 * rest then quotient + 1
  else if quotient % 2 = 0 then quotient
  else quotient + 1

/-- A fraction with the value `num / (den * 2 ^ exponent)`. -/
def rescale (num den : Nat) (exponent : Int) : Nat × Nat :=
  if 0 ≤ exponent then (num, den * Nat.pow 2 exponent.toNat)
  else (num * Nat.pow 2 (-exponent).toNat, den)

/-- The exponent on which `num / den` has a 53-bit significand, or the smallest exponent where the
quotient is too small for that. The binary logarithms fix it up to one. -/
def exponentFor (num den : Nat) : Int :=
  let low := max ((num.log2 : Int) - (den.log2 : Int) - 53) minExponent
  let (n, d) := rescale num den low
  if n / d < Nat.pow 2 53 then low else low + 1

/-- The magnitude nearest to `num / den`, with ties to the even significand; `none` where that
would exceed every finite magnitude. -/
def ofRatio (num den : Nat) : Option Binary64 :=
  if num = 0 then some zero
  else
    let exponent := exponentFor num den
    let (n, d) := rescale num den exponent
    let rounded := roundQuotient n d
    let carried := decide (rounded = Nat.pow 2 53)
    let significand := if carried then Nat.pow 2 52 else rounded
    let exponent := if carried then exponent + 1 else exponent
    if significand = 0 then some zero
    else if maxExponent < exponent then none
    else some ⟨significand, exponent⟩

/-- The value as a fraction: its numerator. -/
def numerator (x : Binary64) : Nat := x.significand * Nat.pow 2 x.exponent.toNat

/-- The value as a fraction: its denominator, a power of two. -/
def denominator (x : Binary64) : Nat := Nat.pow 2 (-x.exponent).toNat

/-- The rounded product. -/
def mul? (x y : Binary64) : Option Binary64 :=
  ofRatio (x.numerator * y.numerator) (x.denominator * y.denominator)

/-- The rounded quotient by a nonzero magnitude. -/
def div? (x y : Binary64) : Option Binary64 :=
  ofRatio (x.numerator * y.denominator) (x.denominator * y.numerator)

/-! ### Reading a decimal -/

/-- The largest power of ten that is a finite magnitude. -/
def maxPowerOfTen : Nat := 308

/-- The magnitude nearest to a power of ten. -/
def powerOfTen? (n : Nat) : Option Binary64 := ofRatio (Nat.pow 10 n) 1

/-- Divides by `10 ^ 308` a number of times, with a rounding after each; zero needs no more. -/
def divideByLargest? (x : Binary64) : Nat → Option Binary64
  | 0 => some x
  | n + 1 =>
      if x.isZero then some x
      else do
        let power ← powerOfTen? maxPowerOfTen
        let y ← x.div? power
        divideByLargest? y n

/-- Divides by `10 ^ places`, by at most `10 ^ 308` in one step and with a rounding after each. -/
def shiftRight? (x : Binary64) (places : Nat) : Option Binary64 := do
  let y ← x.divideByLargest? (places / maxPowerOfTen)
  let power ← powerOfTen? (places % maxPowerOfTen)
  y.div? power

/-- Multiplies by `10 ^ places`; zero stays zero however many places it moves. -/
def shiftLeft? (x : Binary64) (places : Nat) : Option Binary64 :=
  if places ≤ maxPowerOfTen then
    powerOfTen? places >>= x.mul?
  else if x.isZero then some x
  else none

/-- The magnitude read from `significand * 10 ^ exponent`. The significand is rounded first and
then scaled by a rounded power of ten, so the last bit can differ from one exact rounding of the
decimal; `none` where the result exceeds every finite magnitude. -/
def ofDecimal (significand : Nat) (exponent : Int) : Option Binary64 := do
  let x ← ofRatio significand 1
  if 0 ≤ exponent then x.shiftLeft? exponent.toNat else x.shiftRight? (-exponent).toNat

end Binary64

end ImageImports
