import ImageImports.Decimal.Binary64
import Mathlib.Algebra.Order.Field.Power
import Mathlib.Tactic.Linarith
import Mathlib.Tactic.NormNum
import Mathlib.Tactic.Positivity
import Mathlib.Tactic.Ring

/-!
# `ImageImports.Proofs.Decimal.Rounding`: what rounding can exceed

A magnitude has a rational value (`Binary64.value`), and rounding is measured by it. Rounding a
quotient fails only from the middle between the largest magnitude and the next power of two on, and
otherwise gives a magnitude in range that is at most half a unit of the last place away
(`ofRatio_spec`).

A decimal is read by three roundings: of its significand, of a power of ten, and of the product or
quotient of the two. With places behind the decimal point it is always read
(`ofDecimal_ne_none_of_nonpos`), and else if it stays clear of the overflow by what the three
roundings can add (`ofDecimal_ne_none_of_le`). What is read is in range (`inRange_of_ofDecimal`).
-/

set_option autoImplicit false

namespace ImageImports.Binary64

/-! ### Values -/

/-- The rational number that a magnitude is. -/
def value (x : Binary64) : ℚ := x.significand * (2 : ℚ) ^ x.exponent

/-- The significand has at most 53 bits, and the exponent is one of a finite magnitude. Whatever is
read or rounded is of this kind. -/
structure InRange (x : Binary64) : Prop where
  significand_lt : x.significand < 2 ^ 53
  min_le : minExponent ≤ x.exponent
  le_max : x.exponent ≤ maxExponent

/-- The least rational number that is rounded to no magnitude: the middle between the largest one
and the power of two behind it. -/
def overflow : ℚ := (2 ^ 53 - 1 / 2) * (2 : ℚ) ^ maxExponent

/-- The magnitude zero is in range. -/
theorem inRange_zero : zero.InRange := ⟨by decide, by decide, by decide⟩

/-- A power with an integer for its exponent is a quotient of two powers with natural ones, of which
one is trivial. This is the form in which scaling is computed. -/
theorem zpow_eq_div (b : ℚ) (e : Int) : b ^ e = b ^ e.toNat / b ^ (-e).toNat := by
  rcases e.eq_nat_or_neg with ⟨n, rfl | rfl⟩
  · simp
  · have hzero : (-(n : Int)).toNat = 0 := by omega
    simp [hzero]

/-- The value of a magnitude is the quotient of the natural numbers that stand for it. -/
theorem value_eq_div (x : Binary64) : x.value = x.numerator / x.denominator := by
  simp only [value, numerator, denominator, zpow_eq_div 2 x.exponent, Nat.pow_eq]
  push_cast
  ring

/-- The denominator of a magnitude is a power of two or one, and so never zero. -/
theorem denominator_pos (x : Binary64) : 0 < x.denominator := Nat.two_pow_pos _

/-- A magnitude has no sign. -/
theorem value_nonneg (x : Binary64) : 0 ≤ x.value := by
  unfold value
  positivity

/-! ### Rounding a quotient -/

/-- A quotient is rounded to a number at most one half away. Ties make no difference to this bound,
so their rule is not looked at. -/
theorem roundQuotient_bounds (num : Nat) {den : Nat} (hden : 0 < den) :
    (roundQuotient num den : ℚ) ≤ num / den + 1 / 2
      ∧ (num : ℚ) / den - 1 / 2 ≤ roundQuotient num den := by
  have hsplit : den * (num / den) + num % den = num := Nat.div_add_mod num den
  have hrest : num % den < den := Nat.mod_lt num hden
  have hden' : (0 : ℚ) < den := by exact_mod_cast hden
  -- Both bounds are said of the quotient and the rest, which are natural numbers.
  have hvalue : (num : ℚ) / den = (num / den : ℕ) + (num % den : ℕ) / den := by
    rw [div_eq_iff hden'.ne', add_mul, div_mul_cancel₀ _ hden'.ne']
    have hcast : ((den * (num / den) + num % den : ℕ) : ℚ) = num := by rw [hsplit]
    push_cast at hcast
    linarith
  have hlow : (0 : ℚ) ≤ (num % den : ℕ) / den := by positivity
  have hhigh : ((num % den : ℕ) : ℚ) / den ≤ 1 := by
    rw [div_le_one hden']
    exact_mod_cast hrest.le
  have hhalf : ((num % den : ℕ) : ℚ) / den ≤ 1 / 2 ↔ 2 * (num % den) ≤ den := by
    rw [div_le_iff₀ hden', ← @Nat.cast_le ℚ]
    push_cast
    constructor <;> intro h <;> linarith
  have hhalf' : 1 / 2 ≤ ((num % den : ℕ) : ℚ) / den ↔ den ≤ 2 * (num % den) := by
    rw [le_div_iff₀ hden', ← @Nat.cast_le ℚ]
    push_cast
    constructor <;> intro h <;> linarith
  rw [hvalue]
  unfold roundQuotient
  simp only
  -- Down, up, and a tie, where both neighbours are one half away.
  split
  · rename_i hlt
    have hle := hhalf.2 hlt.le
    constructor <;> linarith
  · rename_i hge
    have hle := hhalf'.2 (not_lt.1 hge)
    split
    · constructor <;> push_cast <;> linarith
    · rename_i hle'
      have heq := hhalf.2 (not_lt.1 hle')
      split <;> constructor <;> push_cast <;> linarith

/-- Scaling divides a quotient by a power of two, with no denominator of zero. -/
theorem rescale_spec (num : Nat) {den : Nat} (hden : 0 < den) (exponent : Int) :
    0 < (rescale num den exponent).2
      ∧ ((rescale num den exponent).1 : ℚ) / (rescale num den exponent).2
        = num / den / (2 : ℚ) ^ exponent := by
  unfold rescale
  split
  · rename_i hnonneg
    obtain ⟨n, rfl⟩ := Int.eq_ofNat_of_zero_le hnonneg
    refine ⟨Nat.mul_pos hden (Nat.two_pow_pos _), ?_⟩
    simp [div_div]
  · rename_i hneg
    obtain ⟨n, hn⟩ := Int.eq_ofNat_of_zero_le (show 0 ≤ -exponent by omega)
    obtain rfl : exponent = -(n : Int) := by omega
    refine ⟨hden, ?_⟩
    simp only [neg_neg, Int.toNat_natCast, zpow_neg, zpow_natCast, div_inv_eq_mul, Nat.cast_mul,
      Nat.pow_eq, Nat.cast_pow, Nat.cast_ofNat]
    ring

/-- The binary logarithms fix a quotient up to a factor of four. -/
theorem log2_bounds {num den : Nat} (hnum : 0 < num) (hden : 0 < den) :
    (2 : ℚ) ^ ((num.log2 : Int) - den.log2 - 1) ≤ num / den
      ∧ (num : ℚ) / den < (2 : ℚ) ^ ((num.log2 : Int) - den.log2 + 1) := by
  -- Either number lies between two powers of two that follow each other, and the quotient is least
  -- where the one is small and the other great.
  have hden' : (0 : ℚ) < den := by exact_mod_cast hden
  constructor
  · have hn : (2 : ℚ) ^ num.log2 ≤ num := by exact_mod_cast Nat.log2_self_le hnum.ne'
    have hd : (den : ℚ) ≤ 2 ^ (den.log2 + 1) := by exact_mod_cast Nat.lt_log2_self.le
    rw [le_div_iff₀ hden']
    calc (2 : ℚ) ^ ((num.log2 : Int) - den.log2 - 1) * den
        ≤ (2 : ℚ) ^ ((num.log2 : Int) - den.log2 - 1) * 2 ^ (den.log2 + 1) := by gcongr
      _ = 2 ^ num.log2 := by
          rw [← zpow_natCast, ← zpow_natCast, ← zpow_add₀ (by norm_num)]
          push_cast
          ring_nf
      _ ≤ num := hn
  · have hn : (num : ℚ) < 2 ^ (num.log2 + 1) := by exact_mod_cast Nat.lt_log2_self
    have hd : (2 : ℚ) ^ den.log2 ≤ den := by exact_mod_cast Nat.log2_self_le hden.ne'
    rw [div_lt_iff₀ hden']
    calc (num : ℚ) < 2 ^ (num.log2 + 1) := hn
      _ = (2 : ℚ) ^ ((num.log2 : Int) - den.log2 + 1) * 2 ^ den.log2 := by
          rw [← zpow_natCast, ← zpow_natCast, ← zpow_add₀ (by norm_num)]
          push_cast
          ring_nf
      _ ≤ (2 : ℚ) ^ ((num.log2 : Int) - den.log2 + 1) * den := by gcongr

/-- The chosen exponent leaves a quotient of at most 53 bits, and one of no fewer where it is not
the smallest exponent. -/
theorem exponentFor_spec {num den : Nat} (hnum : 0 < num) (hden : 0 < den) :
    minExponent ≤ exponentFor num den
      ∧ (num : ℚ) / den < 2 ^ 53 * (2 : ℚ) ^ exponentFor num den
      ∧ (exponentFor num den = minExponent
        ∨ 2 ^ 52 * (2 : ℚ) ^ exponentFor num den ≤ num / den) := by
  obtain ⟨hratio_ge, hratio_lt⟩ := log2_bounds hnum hden
  unfold exponentFor
  simp only
  set low := max ((num.log2 : Int) - den.log2 - 53) minExponent with hlow
  obtain ⟨hpos, hscaled⟩ := rescale_spec num hden low
  have hpos' : (0 : ℚ) < (rescale num den low).2 := by exact_mod_cast hpos
  have hpower : (0 : ℚ) < (2 : ℚ) ^ low := by positivity
  -- The test compares a quotient that is rounded down, which is the same for a whole bound.
  have hfloor : (rescale num den low).1 / (rescale num den low).2 < Nat.pow 2 53
      ↔ (num : ℚ) / den < 2 ^ 53 * (2 : ℚ) ^ low := by
    rw [← div_lt_iff₀ hpower, ← hscaled, div_lt_iff₀ hpos', Nat.div_lt_iff_lt_mul hpos,
      ← @Nat.cast_lt ℚ]
    push_cast
    norm_num
  have hnext : (2 : ℚ) ^ (low + 1) = 2 ^ low * 2 := zpow_add_one₀ (by norm_num) low
  have hwidth : (num : ℚ) / den < 2 ^ 54 * (2 : ℚ) ^ low := by
    refine hratio_lt.trans_le ?_
    rw [← zpow_natCast, ← zpow_add₀ (by norm_num)]
    exact zpow_le_zpow_right₀ (by norm_num) (by push_cast; omega)
  split
  · -- The lower exponent is kept. If it is not the smallest, the logarithms leave 53 bits on it.
    rename_i hlt
    refine ⟨le_max_right _ _, hfloor.1 hlt, ?_⟩
    rcases le_total ((num.log2 : Int) - den.log2 - 53) minExponent with hle | hle
    · exact .inl (max_eq_right hle)
    · right
      have hlow' : low = (num.log2 : Int) - den.log2 - 53 := max_eq_left hle
      refine le_trans (le_of_eq ?_) hratio_ge
      rw [hlow', ← zpow_natCast, ← zpow_add₀ (by norm_num)]
      push_cast
      ring_nf
  · -- The next exponent halves a quotient that has 54 bits on the lower one.
    rename_i hge
    have hle := not_lt.1 (mt hfloor.2 hge)
    have hmin : minExponent ≤ low := le_max_right _ _
    refine ⟨by omega, ?_, .inr ?_⟩
    · rw [hnext]
      linarith
    · rw [hnext]
      linarith

/-- The significand before a carry is at most `2 ^ 53`. It is equal to that only where the rounding
goes up to the next power of two. -/
theorem rounded_le {num den : Nat} (hnum : 0 < num) (hden : 0 < den) :
    roundQuotient (rescale num den (exponentFor num den)).1
      (rescale num den (exponentFor num den)).2 ≤ 2 ^ 53 := by
  obtain ⟨-, hlt, -⟩ := exponentFor_spec hnum hden
  obtain ⟨hpos, hscaled⟩ := rescale_spec num hden (exponentFor num den)
  have hround := (roundQuotient_bounds (rescale num den (exponentFor num den)).1 hpos).1
  have hpower : (0 : ℚ) < (2 : ℚ) ^ exponentFor num den := by positivity
  rw [hscaled] at hround
  have hquotient : (num : ℚ) / den / (2 : ℚ) ^ exponentFor num den < 2 ^ 53 := by
    rwa [div_lt_iff₀ hpower]
  -- A natural number below `2 ^ 53 + 1 / 2` is at most `2 ^ 53`.
  by_contra hgt
  have hcast : ((2 ^ 53 + 1 : ℕ) : ℚ) ≤ roundQuotient (rescale num den (exponentFor num den)).1
      (rescale num den (exponentFor num den)).2 := by
    exact_mod_cast not_le.1 hgt
  push_cast at hcast
  linarith

/-- What a quotient is rounded to on the chosen exponent is worth the quotient up to half a unit of
the last place. -/
theorem rounded_bounds (num : Nat) {den : Nat} (hden : 0 < den) :
    let e := exponentFor num den
    let rounded := roundQuotient (rescale num den e).1 (rescale num den e).2
    (rounded : ℚ) * 2 ^ e ≤ num / den + 2 ^ e / 2
      ∧ (num : ℚ) / den - 2 ^ e / 2 ≤ rounded * 2 ^ e := by
  intro e rounded
  obtain ⟨hpos, hscaled⟩ := rescale_spec num hden e
  obtain ⟨hhigh, hlow⟩ := roundQuotient_bounds (rescale num den e).1 hpos
  rw [hscaled] at hhigh hlow
  have hpower : (0 : ℚ) < (2 : ℚ) ^ e := by positivity
  have hquotient : (num : ℚ) / den / (2 : ℚ) ^ e * (2 : ℚ) ^ e = num / den :=
    div_mul_cancel₀ _ hpower.ne'
  constructor
  · calc (rounded : ℚ) * 2 ^ e ≤ ((num : ℚ) / den / 2 ^ e + 1 / 2) * 2 ^ e := by gcongr
      _ = num / den + 2 ^ e / 2 := by rw [add_mul, hquotient]; ring
  · calc (num : ℚ) / den - 2 ^ e / 2 = ((num : ℚ) / den / 2 ^ e - 1 / 2) * 2 ^ e := by
          rw [sub_mul, hquotient]; ring
      _ ≤ rounded * 2 ^ e := by gcongr

/-- A power of two beyond the largest exponent is at least twice that of the largest. -/
theorem two_zpow_maxExponent_le {exponent : Int} (h : maxExponent < exponent) :
    (2 : ℚ) ^ maxExponent * 2 ≤ 2 ^ exponent := by
  rw [← zpow_add_one₀ (by norm_num : (2 : ℚ) ≠ 0)]
  exact zpow_le_zpow_right₀ (by norm_num) (by omega)

/-- Rounding changes a quotient by at most half a unit of the last place, and gives a magnitude
unless the significand is carried beyond the largest exponent. -/
theorem ofRatio_spec {num den : Nat} (hnum : 0 < num) (hden : 0 < den) :
    (∀ y, ofRatio num den = some y → y.InRange
      ∧ y.value ≤ num / den + 2 ^ exponentFor num den / 2
      ∧ num / den - 2 ^ exponentFor num den / 2 ≤ y.value)
    ∧ (ofRatio num den = none → overflow ≤ num / den) := by
  obtain ⟨hhigh, hlow⟩ := rounded_bounds num hden
  have hle := rounded_le hnum hden
  obtain ⟨hmin, -, hwide⟩ := exponentFor_spec hnum hden
  unfold ofRatio
  rw [if_neg hnum.ne']
  simp only
  set rounded := roundQuotient (rescale num den (exponentFor num den)).1
    (rescale num den (exponentFor num den)).2
  set e := exponentFor num den
  have hmax : (0 : ℚ) < (2 : ℚ) ^ maxExponent := by positivity
  by_cases hcarried : rounded = Nat.pow 2 53
  · -- A carry changes the spelling and not the value.
    have hvalue : ((2 ^ 52 : ℕ) : ℚ) * 2 ^ (e + 1) = rounded * 2 ^ e := by
      rw [hcarried, zpow_add_one₀ (by norm_num)]
      push_cast
      ring
    simp only [hcarried, decide_true, if_true]
    rw [if_neg (by decide)]
    split
    · rename_i hover
      refine ⟨by simp, fun _ => ?_⟩
      have hbig := two_zpow_maxExponent_le hover
      rw [zpow_add_one₀ (by norm_num)] at hbig
      rw [hcarried] at hhigh
      unfold overflow
      push_cast at hhigh
      nlinarith
    · rename_i hinside
      refine ⟨?_, by simp⟩
      rintro y ⟨⟩
      refine ⟨⟨show Nat.pow 2 52 < 2 ^ 53 by decide, hmin.trans (Int.le_add_one le_rfl),
        not_lt.1 hinside⟩, ?_, ?_⟩
      · exact hvalue.le.trans hhigh
      · exact hlow.trans hvalue.ge
  · simp only [hcarried, decide_false, Bool.false_eq_true, if_false]
    split
    · rename_i hzero
      refine ⟨?_, by simp⟩
      rintro y ⟨⟩
      have hvalue : zero.value = rounded * 2 ^ e := by simp [hzero, value, zero]
      exact ⟨inRange_zero, hvalue ▸ hhigh, hvalue ▸ hlow⟩
    · split
      · -- Beyond the largest exponent the significand has all its bits.
        rename_i hover
        refine ⟨by simp, fun _ => ?_⟩
        have hbig := two_zpow_maxExponent_le hover
        have hnotmin : e ≠ minExponent := fun hmin => by
          rw [hmin] at hover
          exact absurd hover (by decide)
        have hfull := hwide.resolve_left hnotmin
        unfold overflow
        linarith
      · rename_i hinside
        refine ⟨?_, by simp⟩
        rintro y ⟨⟩
        exact ⟨⟨lt_of_le_of_ne hle hcarried, hmin, not_lt.1 hinside⟩, hhigh, hlow⟩

/-- A quotient of zero is rounded to zero. -/
theorem ofRatio_zero (den : Nat) : ofRatio 0 den = some zero := rfl

/-- What a quotient is rounded to is in range. -/
theorem inRange_of_ofRatio {num den : Nat} (hden : 0 < den) {y : Binary64}
    (h : ofRatio num den = some y) : y.InRange := by
  rcases Nat.eq_zero_or_pos num with rfl | hnum
  · cases h
    exact inRange_zero
  · exact ((ofRatio_spec hnum hden).1 y h).1

/-- A quotient below the overflow is rounded to a magnitude. -/
theorem ofRatio_ne_none {num den : Nat} (hden : 0 < den) (h : (num : ℚ) / den < overflow) :
    ofRatio num den ≠ none := by
  rcases Nat.eq_zero_or_pos num with rfl | hnum
  · simp [ofRatio_zero]
  · exact fun hnone => absurd ((ofRatio_spec hnum hden).2 hnone) (not_le.2 h)

/-- The magnitudes with the smallest exponent are below one, by far. So a quotient from one on has a
significand of full length. -/
theorem two_zpow_minExponent_le : 2 ^ 53 * (2 : ℚ) ^ minExponent ≤ 1 := by
  rw [← zpow_natCast, ← zpow_add₀ (by norm_num)]
  exact zpow_le_one_of_nonpos₀ (by norm_num) (by decide)

/-- A quotient from one on is rounded by at most a part in `2 ^ 53`. -/
theorem value_of_ofRatio_of_one_le {num den : Nat} (hden : 0 < den)
    (hone : 1 ≤ (num : ℚ) / den) {y : Binary64} (h : ofRatio num den = some y) :
    y.value ≤ num / den * (1 + 1 / 2 ^ 53) ∧ (num : ℚ) / den / 2 ≤ y.value := by
  have hnum : 0 < num := by
    rcases Nat.eq_zero_or_pos num with rfl | hnum
    · norm_num at hone
    · exact hnum
  obtain ⟨-, hhigh, hlow⟩ := (ofRatio_spec hnum hden).1 y h
  obtain ⟨-, hlt, hwide⟩ := exponentFor_spec hnum hden
  have hfull : 2 ^ 52 * (2 : ℚ) ^ exponentFor num den ≤ num / den := by
    refine hwide.resolve_left fun hmin => ?_
    rw [hmin] at hlt
    linarith [two_zpow_minExponent_le]
  constructor <;> linarith

/-- A quotient is at most doubled by rounding, apart from one unit for quotients below one. This
weak bound holds without a case for small quotients. -/
theorem value_of_ofRatio {num den : Nat} (hden : 0 < den) {y : Binary64}
    (h : ofRatio num den = some y) : y.value ≤ 2 * (num / den) + 1 := by
  rcases Nat.eq_zero_or_pos num with rfl | hnum
  · cases h
    simp [value, zero]
  · obtain ⟨-, hhigh, -⟩ := (ofRatio_spec hnum hden).1 y h
    have hratio : (0 : ℚ) ≤ num / den := by positivity
    rcases (exponentFor_spec hnum hden).2.2 with hmin | hfull
    · have htiny : (0 : ℚ) < 2 ^ minExponent := by positivity
      rw [hmin] at hhigh
      linarith [two_zpow_minExponent_le]
    · have hpower : (0 : ℚ) < 2 ^ exponentFor num den := by positivity
      linarith

/-! ### Products and quotients -/

/-- A magnitude that is not zero has a numerator that is not zero, so it can be divided by. -/
theorem numerator_pos {y : Binary64} (h : 0 < y.value) : 0 < y.numerator := by
  rw [value_eq_div] at h
  rcases Nat.eq_zero_or_pos y.numerator with hzero | hpos
  · simp [hzero] at h
  · exact hpos

/-- The quotient that is rounded for a product is the product of the values. -/
theorem mul?_ratio (x y : Binary64) :
    ((x.numerator * y.numerator : ℕ) : ℚ) / ((x.denominator * y.denominator : ℕ) : ℚ)
      = x.value * y.value := by
  rw [value_eq_div, value_eq_div]
  push_cast
  rw [div_mul_div_comm]

/-- The quotient that is rounded for a quotient is the quotient of the values. -/
theorem div?_ratio (x y : Binary64) :
    ((x.numerator * y.denominator : ℕ) : ℚ) / ((x.denominator * y.numerator : ℕ) : ℚ)
      = x.value / y.value := by
  rw [value_eq_div, value_eq_div]
  push_cast
  rw [div_div_div_eq]

/-! ### Powers of ten -/

/-- The overflow lies between two powers of ten: the largest one that is a magnitude and the
next. -/
theorem ten_pow_lt_overflow :
    (10 : ℚ) ^ maxPowerOfTen < overflow ∧ overflow ≤ 10 ^ (maxPowerOfTen + 1) := by
  have hlow : 10 ^ 308 * 2 + 2 ^ 971 < 2 ^ 54 * 2 ^ 971 := by decide +kernel
  have hhigh : 2 ^ 54 * 2 ^ 971 ≤ 10 ^ 308 * 20 := by decide +kernel
  replace hlow := (@Nat.cast_lt ℚ _ _ _ _ _ _ _).2 hlow
  replace hhigh := (@Nat.cast_le ℚ _ _ _ _ _ _ _).2 hhigh
  have hmax : (2 : ℚ) ^ maxExponent = 2 ^ 971 := zpow_natCast 2 971
  rw [overflow, hmax, pow_succ (10 : ℚ), maxPowerOfTen]
  simp only [Nat.cast_add, Nat.cast_mul, Nat.cast_pow, Nat.cast_ofNat] at hlow hhigh
  -- The two great powers are numbers like any other from here on.
  generalize (2 : ℚ) ^ 971 = great at hlow hhigh ⊢
  generalize (10 : ℚ) ^ 308 = power at hlow hhigh ⊢
  constructor <;> linarith

/-- Every power of ten up to the largest one is rounded to a magnitude, which is at most a part in
`2 ^ 53` greater and no less than half of it. -/
theorem exists_powerOfTen? {n : Nat} (h : n ≤ maxPowerOfTen) :
    ∃ y, powerOfTen? n = some y ∧ y.value ≤ 10 ^ n * (1 + 1 / 2 ^ 53)
      ∧ (10 : ℚ) ^ n / 2 ≤ y.value := by
  have hratio : ((Nat.pow 10 n : ℕ) : ℚ) / (1 : ℕ) = 10 ^ n := by simp
  have hne : powerOfTen? n ≠ none := by
    refine ofRatio_ne_none one_pos ?_
    rw [hratio]
    exact (pow_le_pow_right₀ (by norm_num) h).trans_lt ten_pow_lt_overflow.1
  obtain ⟨y, hy⟩ := Option.ne_none_iff_exists'.1 hne
  have hbounds := value_of_ofRatio_of_one_le one_pos
    (by rw [hratio]; exact one_le_pow₀ (by norm_num)) hy
  rw [hratio] at hbounds
  exact ⟨y, hy, hbounds⟩

/-! ### Reading a decimal -/

/-- A significand of 64 bits is far below the overflow. -/
theorem two_pow_lt_overflow : (2 : ℚ) ^ 67 < overflow := by
  have hmax : (2 : ℚ) ^ (20 : Int) ≤ 2 ^ maxExponent :=
    zpow_le_zpow_right₀ (by norm_num) (by decide)
  rw [overflow]
  norm_num at hmax ⊢
  linarith

/-- A quotient of a magnitude of at most 66 bits is a magnitude. The bound on the result is what
makes the next division safe. -/
theorem exists_div? {x : Binary64} (hx : x.value ≤ 2 ^ 66) {power : Binary64}
    (hpower : 1 / 2 ≤ power.value) :
    ∃ y, x.div? power = some y ∧ y.value ≤ 2 * (x.value / power.value) + 1 := by
  have hpos : 0 < power.value := by linarith
  have hden : 0 < x.denominator * power.numerator :=
    Nat.mul_pos x.denominator_pos (numerator_pos hpos)
  have hne : x.div? power ≠ none := by
    refine ofRatio_ne_none hden ?_
    rw [div?_ratio, div_lt_iff₀ hpos]
    nlinarith [two_pow_lt_overflow]
  obtain ⟨y, hy⟩ := Option.ne_none_iff_exists'.1 hne
  have hbound := value_of_ofRatio hden hy
  rw [div?_ratio] at hbound
  exact ⟨y, hy, hbound⟩

/-- The largest power of ten is a magnitude, and it is no small one. -/
theorem exists_largest : ∃ y, powerOfTen? maxPowerOfTen = some y ∧ 4 ≤ y.value := by
  obtain ⟨power, hpower, -, hlarge⟩ := exists_powerOfTen? le_rfl
  have hten : (10 : ℚ) ≤ 10 ^ maxPowerOfTen := le_self_pow₀ (by norm_num) (by decide)
  refine ⟨power, hpower, ?_⟩
  generalize (10 : ℚ) ^ maxPowerOfTen = great at hten hlarge
  linarith

/-- Dividing by the largest power of ten over and over never makes a magnitude great. -/
theorem exists_divideByLargest? {x : Binary64} (hx : x.value ≤ 2 ^ 66) (n : Nat) :
    ∃ y, x.divideByLargest? n = some y ∧ y.value ≤ 2 ^ 66 := by
  obtain ⟨power, hpower, hfour⟩ := exists_largest
  -- A quotient by four or more is rounded to at most half of what was divided, plus one.
  induction n generalizing x with
  | zero => exact ⟨x, rfl, hx⟩
  | succ n ih =>
      obtain ⟨y, hy, hbound⟩ := exists_div? hx (show 1 / 2 ≤ power.value by linarith)
      have hquotient : x.value / power.value ≤ 2 ^ 66 / 4 :=
        div_le_div₀ (by norm_num) hx (by norm_num) hfour
      obtain ⟨z, hz, hsmall⟩ := ih (x := y) (by linarith)
      rw [divideByLargest?, hpower, Option.bind_eq_bind, Option.bind_some, hy, Option.bind_some, hz]
      split
      · exact ⟨x, rfl, hx⟩
      · exact ⟨z, rfl, hsmall⟩

/-- A magnitude of at most 66 bits can be shifted right by any number of decimal places. -/
theorem exists_shiftRight? {x : Binary64} (hx : x.value ≤ 2 ^ 66) (places : Nat) :
    ∃ y, x.shiftRight? places = some y := by
  obtain ⟨y, hy, hsmall⟩ := exists_divideByLargest? hx (places / maxPowerOfTen)
  obtain ⟨power, hpower, -, hlarge⟩ :=
    exists_powerOfTen? (Nat.mod_lt places (by decide : 0 < maxPowerOfTen)).le
  have hone : (1 : ℚ) ≤ 10 ^ (places % maxPowerOfTen) := one_le_pow₀ (by norm_num)
  obtain ⟨z, hz, -⟩ := exists_div? hsmall (show 1 / 2 ≤ power.value by linarith)
  exact ⟨z, by simp [shiftRight?, hy, hpower, hz]⟩

/-- A significand of 64 bits is read with any number of places behind the decimal point. Every step
divides, so the magnitude stays below the bound where a number is refused. -/
theorem ofDecimal_ne_none_of_nonpos {s : Nat} (hs : s < 2 ^ 64) {power : Int} (h : power ≤ 0) :
    ofDecimal s power ≠ none := by
  have hs' : ((s : ℕ) : ℚ) / (1 : ℕ) ≤ 2 ^ 64 := by
    have hcast : (s : ℚ) ≤ 2 ^ 64 := by exact_mod_cast hs.le
    simpa using hcast
  obtain ⟨x, hx⟩ := Option.ne_none_iff_exists'.1
    (ofRatio_ne_none one_pos (hs'.trans_lt (by linarith [two_pow_lt_overflow])))
  have hbound := value_of_ofRatio one_pos hx
  have hsmall : x.value ≤ 2 ^ 66 := by linarith
  have hright : ∀ places, x.shiftRight? places ≠ none := fun places => by
    obtain ⟨y, hy⟩ := exists_shiftRight? hsmall places
    simp [hy]
  rcases h.lt_or_eq with hneg | rfl
  · simpa [ofDecimal, hx, not_le.2 hneg] using hright _
  · -- No places at all are a multiplication by one.
    obtain ⟨one, hone, hle, -⟩ := exists_powerOfTen? (n := 0) (by decide)
    have hproduct : x.mul? one ≠ none := by
      refine ofRatio_ne_none (Nat.mul_pos x.denominator_pos one.denominator_pos) ?_
      rw [mul?_ratio]
      have htwo : one.value ≤ 2 := by linarith
      have hmul : x.value * one.value ≤ 2 ^ 66 * 2 :=
        mul_le_mul hsmall htwo one.value_nonneg (by norm_num)
      linarith [two_pow_lt_overflow]
    simpa [ofDecimal, hx, shiftLeft?, hone] using hproduct

/-- A decimal is read if it stays clear of the overflow by three units of the last place of the
largest magnitude, whatever its own roundings add. -/
theorem ofDecimal_ne_none_of_le {s places : Nat}
    (h : (s : ℚ) * 10 ^ places ≤ (2 ^ 53 - 7 / 2) * 2 ^ maxExponent) :
    ofDecimal s places ≠ none := by
  have hmax : (0 : ℚ) < 2 ^ maxExponent := by positivity
  rcases Nat.eq_zero_or_pos s with rfl | hpos
  · -- Zero stays zero under a product with any power, and is not multiplied by others.
    by_cases hplaces : places ≤ maxPowerOfTen
    · obtain ⟨power, hpower, -⟩ := exists_powerOfTen? hplaces
      have hzero : mul? zero power = some zero := by simp [mul?, zero, numerator, ofRatio_zero]
      simp [ofDecimal, ofRatio_zero, shiftLeft?, hplaces, hpower, hzero]
    · simp [ofDecimal, ofRatio_zero, shiftLeft?, hplaces, isZero, zero]
  · have hs : (1 : ℚ) ≤ s := by exact_mod_cast hpos
    have hratio : ((s : ℕ) : ℚ) / (1 : ℕ) = s := by simp
    have htenpos : (1 : ℚ) ≤ 10 ^ places := one_le_pow₀ (by norm_num)
    have hover : (s : ℚ) * 10 ^ places < overflow := by
      rw [overflow]
      linarith
    -- A power of ten that is not in the table would be beyond the overflow by itself.
    have hplaces : places ≤ maxPowerOfTen := by
      by_contra hgt
      have hgreat : (10 : ℚ) ^ (maxPowerOfTen + 1) ≤ 10 ^ places :=
        pow_le_pow_right₀ (by norm_num) (not_le.1 hgt)
      have hproduct : (10 : ℚ) ^ places ≤ s * 10 ^ places :=
        le_mul_of_one_le_left (by positivity) hs
      exact absurd (ten_pow_lt_overflow.2.trans (hgreat.trans hproduct)) (not_le.2 hover)
    obtain ⟨power, hpower, hpowerle, -⟩ := exists_powerOfTen? hplaces
    have hbelow : ((s : ℕ) : ℚ) / (1 : ℕ) < overflow := by
      rw [hratio]
      nlinarith
    obtain ⟨x, hx⟩ := Option.ne_none_iff_exists'.1 (ofRatio_ne_none one_pos hbelow)
    have hxle := (value_of_ofRatio_of_one_le one_pos (by rw [hratio]; exact hs) hx).1
    rw [hratio] at hxle
    have hproduct : x.mul? power ≠ none := by
      refine ofRatio_ne_none (Nat.mul_pos x.denominator_pos power.denominator_pos) ?_
      rw [mul?_ratio]
      have hmul : x.value * power.value
          ≤ s * (1 + 1 / 2 ^ 53) * (10 ^ places * (1 + 1 / 2 ^ 53)) :=
        mul_le_mul hxle hpowerle power.value_nonneg (by positivity)
      -- The two factors add a part in `2 ^ 53` each, which is two units of the last place.
      have hclear : (s : ℚ) * (1 + 1 / 2 ^ 53) * (10 ^ places * (1 + 1 / 2 ^ 53))
          ≤ (2 ^ 53 - 7 / 2) * 2 ^ maxExponent * (1 + 1 / 2 ^ 53) ^ 2 := by
        nlinarith
      rw [overflow]
      nlinarith
    simpa [ofDecimal, hx, shiftLeft?, hplaces, hpower] using hproduct

/-! ### What is read is in range -/

/-- A product that is a magnitude is in range. -/
theorem inRange_of_mul? {x y z : Binary64} (h : x.mul? y = some z) : z.InRange :=
  inRange_of_ofRatio (Nat.mul_pos x.denominator_pos y.denominator_pos) h

/-- A quotient that is a magnitude is in range. -/
theorem inRange_of_div? {x y z : Binary64} (hy : 1 / 2 ≤ y.value) (h : x.div? y = some z) :
    z.InRange :=
  inRange_of_ofRatio (Nat.mul_pos x.denominator_pos (numerator_pos (by linarith))) h

/-- What a shift to the right leaves is in range, as it ends with a division. -/
theorem inRange_of_shiftRight? {x y : Binary64} {places : Nat}
    (h : x.shiftRight? places = some y) : y.InRange := by
  obtain ⟨power, hpower, -, hlarge⟩ :=
    exists_powerOfTen? (Nat.mod_lt places (by decide : 0 < maxPowerOfTen)).le
  have hone : (1 : ℚ) ≤ 10 ^ (places % maxPowerOfTen) := one_le_pow₀ (by norm_num)
  obtain ⟨z, -, hrest⟩ := Option.bind_eq_some_iff.1 h
  rw [hpower, Option.bind_eq_bind, Option.bind_some] at hrest
  exact inRange_of_div? (by linarith) hrest

/-- What a shift to the left leaves is in range. A shift by no places leaves the magnitude as it
is. -/
theorem inRange_of_shiftLeft? {x y : Binary64} (hx : x.InRange) {places : Nat}
    (h : x.shiftLeft? places = some y) : y.InRange := by
  unfold shiftLeft? at h
  split at h
  · obtain ⟨power, -, hmul⟩ := Option.bind_eq_some_iff.1 h
    exact inRange_of_mul? hmul
  · split at h
    · cases h
      exact hx
    · cases h

/-- A magnitude that is read from a decimal is in range, whichever way its power of ten is
applied. -/
theorem inRange_of_ofDecimal {s : Nat} {power : Int} {y : Binary64}
    (h : ofDecimal s power = some y) : y.InRange := by
  obtain ⟨x, hx, hrest⟩ := Option.bind_eq_some_iff.1 h
  have hrange := inRange_of_ofRatio one_pos hx
  split at hrest
  · exact inRange_of_shiftLeft? hrange hrest
  · exact inRange_of_shiftRight? hrest

end ImageImports.Binary64
