import ImageImports.Decimal.Binary64

/-!
# `ImageImports.Decimal.Shortest`: the fewest digits that read back

A magnitude stands for every real number that rounds to it: an interval around the magnitude,
closed where its significand is even. The shortest decimal of a nonzero magnitude is the coarsest
power-of-ten grid with a point in that interval, and on it the point nearest to the magnitude.
Only the two grid points next to the magnitude need a test, since an interval around it that holds
a grid point holds one of those two.

Main definition: `Binary64.shortest`.
-/

set_option autoImplicit false

namespace ImageImports

/-- The decimal `digits * 10 ^ power`. -/
structure ShortDecimal where
  /-- The significant digits, read as a number. -/
  digits : Nat
  /-- The power of ten of the last digit. -/
  power : Int
deriving DecidableEq, Repr

namespace Binary64

/-- The interval of reals that round to a magnitude, on the grid with spacing `10 ^ power`. All
four numbers count one common unit. -/
structure GridInterval where
  /-- The magnitude itself. -/
  value : Nat
  /-- The lower end. -/
  lower : Nat
  /-- The upper end. -/
  upper : Nat
  /-- The distance between two points of the grid. -/
  spacing : Nat
  /-- Whether the ends belong to the interval. -/
  closed : Bool

namespace GridInterval

/-- Whether grid point number `index` lies in the interval. -/
def covers (g : GridInterval) (index : Nat) : Bool :=
  let point := index * g.spacing
  if g.closed then decide (g.lower ≤ point ∧ point ≤ g.upper)
  else decide (g.lower < point ∧ point < g.upper)

/-- The nearer of the two grid points around the value among those in the interval; a tie goes to
the even index. -/
def nearest? (g : GridInterval) : Option Nat :=
  let below := g.value / g.spacing
  let above := below + 1
  match g.covers below, g.covers above with
  | false, false => none
  | true, false => some below
  | false, true => some above
  | true, true =>
      let down := g.value - below * g.spacing
      let up := above * g.spacing - g.value
      if down < up then some below
      else if up < down then some above
      else if below % 2 = 0 then some below
      else some above

end GridInterval

/-- The rounding interval of `x` over the grid `10 ^ power`. A quarter of the spacing of the
binary magnitudes divides every end: the gap below a power of two is half the gap above it. -/
def gridInterval (x : Binary64) (power : Int) : GridInterval :=
  let quarter := x.exponent - 2
  let unit := Nat.pow 2 quarter.toNat * Nat.pow 10 (-power).toNat
  let narrow := decide (x.significand = Nat.pow 2 52 ∧ minExponent < x.exponent)
  { value := 4 * x.significand * unit
    lower := (4 * x.significand - if narrow then 1 else 2) * unit
    upper := (4 * x.significand + 2) * unit
    spacing := Nat.pow 10 power.toNat * Nat.pow 2 (-quarter).toNat
    closed := x.significand % 2 == 0 }

/-- Tries the grids `10 ^ power`, `10 ^ (power - 1)`, … and takes the first one with a hit. -/
def shortestFrom (x : Binary64) : Nat → Int → ShortDecimal
  | 0, power => ⟨(x.gridInterval power).value / (x.gridInterval power).spacing, power⟩
  | n + 1, power =>
      match (x.gridInterval power).nearest? with
      | some digits => ⟨digits, power⟩
      | none => shortestFrom x n (power - 1)

/-- The shortest decimal that rounds to a nonzero magnitude. The search starts above the
magnitude, and seventeen digits always suffice, so it ends within twenty grids. -/
def shortest (x : Binary64) : ShortDecimal :=
  shortestFrom x 20 (((x.significand.log2 : Int) + x.exponent + 1) * 30103 / 100000 + 1)

end Binary64

end ImageImports
