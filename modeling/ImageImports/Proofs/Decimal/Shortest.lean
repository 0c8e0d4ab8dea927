import ImageImports.Decimal.Shortest
import ImageImports.Proofs.Decimal.Rounding

/-!
# `ImageImports.Proofs.Decimal.Shortest`: the shortest decimal is read

The shortest decimal of a magnitude lies in its rounding interval, so it exceeds the magnitude by at
most half a unit of the last place (`shortest_le`), and it is not zero unless the magnitude is
(`InRange.shortest_pos`).

Reading it rounds three times. These roundings cannot take it over the overflow except for the three
largest magnitudes, whose decimals are evaluated (`Topmost.shortest`). Main statement:
`ofDecimal_ne_none_of_le_shortest`, a decimal up to the shortest one of a magnitude in range is
read.
-/

set_option autoImplicit false

namespace ImageImports.Binary64

/-! ### The grid -/

/-- A power of ten is not above a power of two if the exponents are far enough apart: three digits
take less than ten bits, and four take more than thirteen. -/
theorem ten_zpow_le_two_zpow {p l : Int} (hnonneg : 0 ≤ p → 10 * p ≤ 3 * l)
    (hneg : p < 0 → 13 * p ≤ 4 * l) : (10 : ℚ) ^ p ≤ 2 ^ l := by
  have hten : (0 : ℚ) ≤ 10 ^ p := by positivity
  have htwo : (0 : ℚ) ≤ 2 ^ l := by positivity
  -- The third or fourth powers of both sides have bases that can be compared.
  rcases le_or_gt 0 p with h | h
  · refine (pow_le_pow_iff_left₀ hten htwo (by norm_num : 3 ≠ 0)).1 ?_
    calc ((10 : ℚ) ^ p) ^ 3 = 1000 ^ p := by rw [← zpow_natCast, zpow_comm, zpow_natCast]; norm_num
      _ ≤ 1024 ^ p := zpow_le_zpow_left₀ h (by norm_num) (by norm_num)
      _ = 2 ^ (10 * p) := by rw [zpow_mul]; norm_num
      _ ≤ 2 ^ (3 * l) := zpow_le_zpow_right₀ (by norm_num) (hnonneg h)
      _ = (2 ^ l) ^ 3 := by rw [mul_comm, zpow_mul]; norm_cast
  · obtain ⟨n, rfl⟩ : ∃ n : Nat, p = -n := ⟨(-p).toNat, by omega⟩
    refine (pow_le_pow_iff_left₀ hten htwo (by norm_num : 4 ≠ 0)).1 ?_
    calc ((10 : ℚ) ^ (-(n : Int))) ^ 4 = (10000 ^ n)⁻¹ := by
          rw [zpow_neg, zpow_natCast, inv_pow, ← pow_mul, mul_comm, pow_mul]; norm_num
      _ ≤ (8192 ^ n)⁻¹ := by gcongr; norm_num
      _ = 2 ^ (13 * -(n : Int)) := by rw [zpow_mul, zpow_neg, zpow_natCast]; norm_num
      _ ≤ 2 ^ (4 * l) := zpow_le_zpow_right₀ (by norm_num) (hneg h)
      _ = (2 ^ l) ^ 4 := by rw [mul_comm, zpow_mul]; norm_cast

/-- The grid point that is chosen lies in the rounding interval. -/
theorem covers_of_nearest? {g : GridInterval} {index : Nat} (h : g.nearest? = some index) :
    g.covers index = true := by
  unfold GridInterval.nearest? at h
  simp only at h
  cases hbelow : g.covers (g.value / g.spacing) <;>
    cases habove : g.covers (g.value / g.spacing + 1) <;> simp only [hbelow, habove] at h
  · cases h
  · cases h
    exact habove
  · cases h
    exact hbelow
  · split at h
    · cases h
      exact hbelow
    · split at h
      · cases h
        exact habove
      · split at h
        · cases h
          exact hbelow
        · cases h
          exact habove

/-- What the ends of the rounding interval and the points of the grid count. -/
theorem mul_spacing_le_iff (x : Binary64) (power : Int) (points units : Nat) :
    points * (x.gridInterval power).spacing
        ≤ units * (Nat.pow 2 (x.exponent - 2).toNat * Nat.pow 10 (-power).toNat)
      ↔ (points : ℚ) * 10 ^ power ≤ units * 2 ^ (x.exponent - 2) := by
  have hten : (0 : ℚ) < 10 ^ (-power).toNat := by positivity
  have htwo : (0 : ℚ) < 2 ^ (-(x.exponent - 2)).toNat := by positivity
  -- The interval counts in a unit that clears the denominators of both powers.
  rw [← @Nat.cast_le ℚ, zpow_eq_div 10 power, zpow_eq_div 2 (x.exponent - 2), ← mul_div_assoc,
    ← mul_div_assoc, div_le_div_iff₀ hten htwo]
  simp only [gridInterval, Nat.pow_eq, Nat.cast_mul, Nat.cast_pow, Nat.cast_ofNat]
  rw [mul_assoc, mul_assoc]

/-- A unit of the last place is four quarters, which is the unit that a grid is laid out in. -/
theorem two_zpow_eq_quarter (e : Int) : (2 : ℚ) ^ e = 4 * 2 ^ (e - 2) := by
  rw [show (4 : ℚ) = 2 ^ (2 : Int) by norm_num, ← zpow_add₀ (by norm_num), add_sub_cancel]

/-- A grid point up to the upper end of the rounding interval exceeds the magnitude by at most half
a unit of its last place. -/
theorem le_of_le_upper {x : Binary64} {power : Int} {digits : Nat}
    (h : digits * (x.gridInterval power).spacing ≤ (x.gridInterval power).upper) :
    (digits : ℚ) * 10 ^ power ≤ (x.significand + 1 / 2) * 2 ^ x.exponent := by
  have hcounted := (mul_spacing_le_iff x power digits (4 * x.significand + 2)).1 h
  rw [two_zpow_eq_quarter x.exponent]
  push_cast at hcounted
  linarith

/-- A grid point in the rounding interval of a nonzero magnitude is not zero. -/
theorem pos_of_covers {x : Binary64} (hx : 0 < x.significand) {power : Int} {index : Nat}
    (h : (x.gridInterval power).covers index = true) : 0 < index := by
  have hunit : 0 < Nat.pow 2 (x.exponent - 2).toNat * Nat.pow 10 (-power).toNat :=
    Nat.mul_pos (Nat.two_pow_pos _) (Nat.pow_pos (by norm_num))
  have hlower : 0 < (x.gridInterval power).lower := by
    refine Nat.mul_pos ?_ hunit
    split <;> omega
  rcases Nat.eq_zero_or_pos index with rfl | hpos
  · unfold GridInterval.covers at h
    simp only [Nat.zero_mul] at h
    split at h
    · exact absurd (of_decide_eq_true h).1 (by omega)
    · exact absurd (of_decide_eq_true h).1 (by omega)
  · exact hpos

/-- The last grid that is tried is fine enough to have a point between zero and the magnitude. -/
theorem spacing_le_value {x : Binary64} (hx : 0 < x.significand) {power : Int}
    (h : (10 : ℚ) ^ power ≤ 2 ^ ((x.significand.log2 : Int) + x.exponent)) :
    (x.gridInterval power).spacing ≤ (x.gridInterval power).value := by
  have hlog : (2 : ℚ) ^ x.significand.log2 ≤ x.significand := by
    exact_mod_cast Nat.log2_self_le hx.ne'
  have hpower : (0 : ℚ) < 2 ^ x.exponent := by positivity
  have hvalue : (10 : ℚ) ^ power ≤ x.significand * 2 ^ x.exponent := by
    rw [zpow_add₀ (by norm_num), zpow_natCast] at h
    exact h.trans (mul_le_mul_of_nonneg_right hlog hpower.le)
  rw [two_zpow_eq_quarter x.exponent] at hvalue
  have hcounted := (mul_spacing_le_iff x power 1 (4 * x.significand)).2 (by
    push_cast
    linarith)
  rwa [one_mul] at hcounted

/-- The search for the shortest decimal gives a positive one, given that the last grid that it may
try is fine enough. The induction is on the number of grids that are left. -/
theorem shortestFrom_pos {x : Binary64} (hx : 0 < x.significand) (n : Nat) (power : Int)
    (h : (10 : ℚ) ^ (power - n) ≤ 2 ^ ((x.significand.log2 : Int) + x.exponent)) :
    0 < (x.shortestFrom n power).digits := by
  -- A hit is in the interval, which leaves zero out; only the last grid is taken without one.
  induction n generalizing power with
  | zero =>
      have hle := spacing_le_value hx (by simpa using h)
      exact Nat.div_pos hle (Nat.mul_pos (Nat.pow_pos (by norm_num)) (Nat.two_pow_pos _))
  | succ n ih =>
      rw [shortestFrom]
      split
      · rename_i digits hhit
        exact pos_of_covers hx (covers_of_nearest? hhit)
      · exact ih (power - 1) (by
          rw [sub_sub, add_comm 1]
          exact_mod_cast h)

/-- The shortest decimal of a nonzero magnitude is not zero. The search starts only a few digits
above the magnitude and goes on to grids that are fine enough to tell it from zero. -/
theorem InRange.shortest_pos {x : Binary64} (h : x.InRange) (hx : 0 < x.significand) :
    0 < x.shortest.digits := by
  -- The search starts at most two digits above the magnitude, and so ends far below it.
  refine shortestFrom_pos hx 20 _ (ten_zpow_le_two_zpow ?_ ?_)
  all_goals
    have hlog : x.significand.log2 < 53 := (Nat.log2_lt hx.ne').2 h.significand_lt
    have hmin := h.min_le
    have hmax := h.le_max
    simp only [minExponent, maxExponent] at hmin hmax
    push_cast
    omega

/-- The grid point that is chosen is not above the upper end of the rounding interval. -/
theorem le_upper_of_nearest? {g : GridInterval} {index : Nat} (h : g.nearest? = some index) :
    index * g.spacing ≤ g.upper := by
  have hcovered := covers_of_nearest? h
  unfold GridInterval.covers at hcovered
  split at hcovered
  · exact (of_decide_eq_true hcovered).2
  · exact (of_decide_eq_true hcovered).2.le

/-- The search for the shortest decimal, from any grid on, ends with one that exceeds the magnitude
by at most half a unit of its last place. -/
theorem shortestFrom_le (x : Binary64) (n : Nat) (power : Int) :
    ((x.shortestFrom n power).digits : ℚ) * 10 ^ (x.shortestFrom n power).power
      ≤ (x.significand + 1 / 2) * 2 ^ x.exponent := by
  induction n generalizing power with
  | zero =>
      refine le_of_le_upper ((Nat.div_mul_le_self _ _).trans ?_)
      exact Nat.mul_le_mul_right _ (Nat.le_add_right _ _)
  | succ n ih =>
      rw [shortestFrom]
      split
      · rename_i digits hhit
        exact le_of_le_upper (le_upper_of_nearest? hhit)
      · exact ih (power - 1)

/-- The shortest decimal exceeds its magnitude by at most half a unit of the last place, which is
where the rounding interval ends. -/
theorem shortest_le (x : Binary64) :
    (x.shortest.digits : ℚ) * 10 ^ x.shortest.power ≤ (x.significand + 1 / 2) * 2 ^ x.exponent :=
  shortestFrom_le x 20 _

/-- The three largest magnitudes, whose shortest decimals are too near to the overflow for the
general bound, and what these decimals are. -/
def Topmost (x : Binary64) : Prop :=
  x.exponent = maxExponent ∧ 2 ^ 53 - 3 ≤ x.significand ∧ x.significand < 2 ^ 53

/-- A magnitude in range is one of the three largest, or the general bound for reading a decimal
applies to all up to half a unit above it. -/
theorem InRange.topmost_or {x : Binary64} (h : x.InRange) :
    x.Topmost ∨ (x.significand + 1 / 2) * (2 : ℚ) ^ x.exponent
      ≤ (2 ^ 53 - 7 / 2) * 2 ^ maxExponent := by
  obtain ⟨hsignificand, -, hexponent⟩ := h
  have hpower : (0 : ℚ) < 2 ^ x.exponent := by positivity
  rcases hexponent.lt_or_eq with hlt | heq
  · -- One exponent less halves the magnitude.
    right
    have hhalf : (2 : ℚ) ^ x.exponent * 2 ≤ 2 ^ maxExponent := by
      rw [← zpow_add_one₀ (by norm_num : (2 : ℚ) ≠ 0)]
      exact zpow_le_zpow_right₀ (by norm_num) hlt
    have hcast : (x.significand : ℚ) ≤ 2 ^ 53 := by exact_mod_cast hsignificand.le
    nlinarith
  · by_cases htop : 2 ^ 53 - 3 ≤ x.significand
    · exact .inl ⟨heq, htop, hsignificand⟩
    · right
      have hcast : ((x.significand + 4 : ℕ) : ℚ) ≤ ((2 ^ 53 : ℕ) : ℚ) :=
        Nat.cast_le.2 (by omega)
      push_cast at hcast
      rw [heq] at hpower ⊢
      exact mul_le_mul_of_nonneg_right (by linarith) hpower.le

/-- The shortest decimals of the three largest magnitudes are known, and they are read. There are
too few of them for a general argument to be worth while. -/
theorem Topmost.shortest {x : Binary64} (h : x.Topmost) :
    x.shortest.digits < 2 ^ 64 ∧ ofDecimal x.shortest.digits x.shortest.power ≠ none := by
  obtain ⟨hexponent, hlow, hhigh⟩ := h
  obtain ⟨significand, exponent⟩ := x
  obtain rfl : exponent = maxExponent := hexponent
  simp only at hlow hhigh
  have hcases : significand = 2 ^ 53 - 1 ∨ significand = 2 ^ 53 - 2 ∨ significand = 2 ^ 53 - 3 := by
    omega
  -- Three decimals without variables are left, and reading them is a computation.
  rcases hcases with rfl | rfl | rfl <;> decide +kernel

/-- The shortest decimal of a magnitude in range is at most the first power of ten beyond all
magnitudes. -/
theorem InRange.shortest_le_ten_pow {x : Binary64} (h : x.InRange) :
    (x.shortest.digits : ℚ) * 10 ^ x.shortest.power ≤ 10 ^ (maxPowerOfTen + 1) := by
  have hsignificand : (x.significand : ℚ) ≤ 2 ^ 53 - 1 := by
    have hcast : ((x.significand + 1 : ℕ) : ℚ) ≤ ((2 ^ 53 : ℕ) : ℚ) :=
      Nat.cast_le.2 h.significand_lt
    push_cast at hcast
    linarith
  have hpower : (2 : ℚ) ^ x.exponent ≤ 2 ^ maxExponent := zpow_le_zpow_right₀ (by norm_num) h.le_max
  have hmax : (0 : ℚ) < 2 ^ x.exponent := by positivity
  refine x.shortest_le.trans (le_trans ?_ ten_pow_lt_overflow.2)
  rw [overflow]
  exact mul_le_mul (by linarith) hpower hmax.le (by norm_num)

/-- A decimal that is not above the shortest one of a magnitude in range is read. The magnitudes
that are too great for the general bound have a decimal of 64 bits, and there it has to be that
decimal itself. -/
theorem ofDecimal_ne_none_of_le_shortest {x : Binary64} (hx : x.InRange) {s places : Nat}
    (hle : (s : ℚ) * 10 ^ places ≤ x.shortest.digits * 10 ^ x.shortest.power)
    (hexact : x.shortest.digits < 2 ^ 64 → s = x.shortest.digits ∧ places = x.shortest.power) :
    ofDecimal s places ≠ none := by
  rcases hx.topmost_or with htop | hbound
  · obtain ⟨hdigits, hread⟩ := htop.shortest
    obtain ⟨rfl, hplaces⟩ := hexact hdigits
    rwa [hplaces]
  · exact ofDecimal_ne_none_of_le (hle.trans (x.shortest_le.trans hbound))

end ImageImports.Binary64
