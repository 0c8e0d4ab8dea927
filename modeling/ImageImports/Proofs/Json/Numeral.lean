import ImageImports.Json.Reader
import ImageImports.Json.Number
import ImageImports.Proofs.Decimal.Shortest
import ImageImports.Proofs.Json.Record
import Mathlib.Tactic.IntervalCases

/-!
# `ImageImports.Proofs.Json.Numeral`: numbers are read back from their texts

The reader of numbers takes a text apart into a sign, the digits before and behind the decimal
point, and an exponent. A `Numeral` is a text in these parts, and where no further part of a number
follows, the reader makes of it what `Numeral.value?` says (`Numeral.number_eq`).

Main statement: `Number.number_text`, every number is read from its text: an integer as itself, and
a floating point number as a floating point number of the same sign. Its magnitude can change in the
last place, since reading rounds more than once.
-/

set_option autoImplicit false

namespace ImageImports

namespace Json

/-! ### Digits -/

/-- The characters are decimal digits. -/
def Digits (chars : List Char) : Prop := ∀ ch ∈ chars, Cursor.isDigit ch = true

/-- The characters do not start with a decimal digit. -/
def NoDigit (chars : List Char) : Prop := ∀ ch ∈ chars.head?, Cursor.isDigit ch = false

/-- A number is written in decimal digits. -/
theorem digits_toDigits (n : Nat) : Digits (Nat.toDigits 10 n) := by
  intro ch hch
  have hdigit := Nat.isDigit_of_mem_toDigits (by decide) (by decide) hch
  simp only [Char.isDigit, ge_iff_le, Bool.and_eq_true, decide_eq_true_eq] at hdigit
  simp only [Cursor.isDigit, Char.le_def, Bool.and_eq_true, decide_eq_true_eq]
  exact hdigit

/-- Zeros are decimal digits. -/
theorem digits_replicate_zero (n : Nat) : Digits (List.replicate n '0') := by
  intro ch hch
  rw [List.eq_of_mem_replicate hch]
  decide

/-- Digits behind digits are digits. -/
theorem Digits.append {front back : List Char} (hfront : Digits front) (hback : Digits back) :
    Digits (front ++ back) :=
  fun ch hch => (List.mem_append.1 hch).elim (hfront ch) (hback ch)

/-- The first of some digits are digits. -/
theorem Digits.take {chars : List Char} (h : Digits chars) (n : Nat) : Digits (chars.take n) :=
  fun ch hch => h ch (List.mem_of_mem_take hch)

/-- What is left behind the first of some digits are digits. -/
theorem Digits.drop {chars : List Char} (h : Digits chars) (n : Nat) : Digits (chars.drop n) :=
  fun ch hch => h ch (List.mem_of_mem_drop hch)

/-- A number that is not zero is not written with a zero in front. -/
theorem head?_toDigits_ne_zero {n : Nat} (h : 0 < n) : (Nat.toDigits 10 n).head? ≠ some '0' := by
  -- The first digit is that of the number without its last digit, as long as there are two.
  induction n using Nat.strongRecOn with
  | ind n ih =>
      rw [Nat.toDigits_eq_if (by decide)]
      split
      · rename_i hlt
        revert h
        interval_cases n <;> decide
      · rw [List.head?_append_of_ne_nil _ Nat.toDigits_ne_nil]
        exact ih (n / 10) (by omega) (by omega)

/-- A positive number is at least the power of ten at its first digit. -/
theorem ten_pow_le_of_pos {n : Nat} (h : 0 < n) : 10 ^ ((Nat.toDigits 10 n).length - 1) ≤ n := by
  by_contra hlt
  rcases Nat.eq_zero_or_pos ((Nat.toDigits 10 n).length - 1) with hzero | hpos
  · rw [hzero] at hlt
    omega
  · have hle := (Nat.length_toDigits_le_iff (by decide) hpos).2 (not_le.1 hlt)
    omega

namespace Cursor

/-- One step further one character less is left. -/
theorem next_rest (c : Cursor) : c.next.rest = c.rest.tail := by
  obtain ⟨rest, line, column⟩ := c
  cases rest with
  | nil => rfl
  | cons ch rest =>
      rw [next]
      split <;> rfl

/-- The next character is the first one that is left. -/
theorem head?_eq {c : Cursor} {ch : Char} {rest : List Char} (h : c.rest = ch :: rest) :
    c.head? = some ch := by
  rw [head?, h]
  rfl

/-- Behind the next character the others are left. -/
theorem next_rest_eq {c : Cursor} {ch : Char} {rest : List Char} (h : c.rest = ch :: rest) :
    c.next.rest = rest := by
  rw [next_rest, h]
  rfl

/-- Digits are read up to the first character that is none. -/
theorem digits_eq {c : Cursor} {taken rest : List Char} (htaken : Digits taken)
    (hrest : NoDigit rest) (h : c.rest = taken ++ rest) :
    ∃ behind, c.digits = (taken, behind) ∧ behind.rest = rest := by
  have htake : rest.takeWhile isDigit = [] := by
    cases rest with
    | nil => rfl
    | cons ch rest => simp [hrest ch rfl]
  have hdrop : rest.dropWhile isDigit = rest := by
    cases rest with
    | nil => rfl
    | cons ch rest => simp [hrest ch rfl]
  rw [digits, h, List.takeWhile_append_of_pos htaken, List.dropWhile_append_of_pos htaken, htake,
    hdrop, List.append_nil]
  exact ⟨_, rfl, rfl⟩

/-! ### Values of digits -/

/-- Reading a digit multiplies by ten what was read so far and adds the value of the digit. -/
theorem ofDigitChars_cons_eq (ch : Char) (rest : List Char) (s : Nat) :
    Nat.ofDigitChars 10 (ch :: rest) s = Nat.ofDigitChars 10 rest (s * 10 + digitValue ch) := by
  rw [Nat.ofDigitChars_cons, mul_comm]
  rfl

/-- A number that is read on is at least moved by the digits that are read. -/
theorem mul_pow_le_ofDigitChars (digits : List Char) (s : Nat) :
    s * 10 ^ digits.length ≤ Nat.ofDigitChars 10 digits s := by
  induction digits generalizing s with
  | nil => simp
  | cons ch rest ih =>
      rw [ofDigitChars_cons_eq]
      refine le_trans ?_ (ih _)
      rw [List.length_cons, pow_succ', ← mul_assoc]
      exact Nat.mul_le_mul_right _ (Nat.le_add_right _ _)

/-- Reading further digits makes a number no smaller. -/
theorem le_ofDigitChars (digits : List Char) (s : Nat) : s ≤ Nat.ofDigitChars 10 digits s :=
  (Nat.le_mul_of_pos_right s (Nat.pow_pos (by decide))).trans (mul_pow_le_ofDigitChars digits s)

/-- The significand after an append, and how many digits it took: it stands for no more than all
digits together, and for just these where they fit into 64 bits. -/
theorem appendDigits_spec (digits : List Char) (s : Nat) :
    (appendDigits s digits).2 ≤ digits.length
      ∧ (appendDigits s digits).1 * 10 ^ (digits.length - (appendDigits s digits).2)
        ≤ Nat.ofDigitChars 10 digits s
      ∧ (Nat.ofDigitChars 10 digits s < 2 ^ 64 →
        appendDigits s digits = (Nat.ofDigitChars 10 digits s, digits.length))
      ∧ (s < 2 ^ 64 → (appendDigits s digits).1 < 2 ^ 64) := by
  induction digits generalizing s with
  | nil => simp [appendDigits]
  | cons ch rest ih =>
      rw [ofDigitChars_cons_eq, appendDigits]
      simp only [Nat.pow_eq]
      split
      · -- The digit fits, so the rest goes on from a significand that all digits start with.
        rename_i hfits
        obtain ⟨hle, hvalue, hexact, hsmall⟩ := ih (s * 10 + digitValue ch)
        refine ⟨Nat.succ_le_succ hle, ?_, fun hall => ?_, fun _ => hsmall hfits⟩
        · simpa using hvalue
        · simp [hexact hall]
      · -- No digit is taken any more: what is left out only makes the number greater.
        rename_i hoverflow
        have hmore := le_ofDigitChars rest (s * 10 + digitValue ch)
        refine ⟨Nat.zero_le _, ?_, fun hall => absurd hall (by omega), id⟩
        rw [← ofDigitChars_cons_eq]
        exact mul_pow_le_ofDigitChars (ch :: rest) s

/-- A number of some digits is below that power of ten. -/
theorem ofDigitChars_lt {digits : List Char} (h : Digits digits) (s : Nat) :
    Nat.ofDigitChars 10 digits s < (s + 1) * 10 ^ digits.length := by
  induction digits generalizing s with
  | nil => simp
  | cons ch rest ih =>
      have hdigit : digitValue ch < 10 := by
        have hch := h ch List.mem_cons_self
        simp only [isDigit, Char.le_def, Bool.and_eq_true, decide_eq_true_eq,
          UInt32.le_iff_toNat_le] at hch
        have hnine : ch.toNat ≤ 57 := hch.2
        simp only [digitValue]
        omega
      rw [ofDigitChars_cons_eq, List.length_cons, pow_succ', ← mul_assoc]
      refine (ih (fun other hother => h other (List.mem_cons_of_mem _ hother)) _).trans_le ?_
      exact Nat.mul_le_mul_right _ (by omega)

/-- An exponent that fits into 31 bits is read as the number that its digits stand for. -/
theorem exponentValue_eq {digits : List Char} {value : Nat} (read : Nat)
    (h : Nat.ofDigitChars 10 digits value < 2 ^ 31) :
    exponentValue digits value read = .ok (Nat.ofDigitChars 10 digits value) := by
  induction digits generalizing value read with
  | nil => rfl
  | cons ch rest ih =>
      rw [ofDigitChars_cons_eq] at h ⊢
      have hfits : value * 10 + digitValue ch < Nat.pow 2 31 :=
        lt_of_le_of_lt (le_ofDigitChars rest _) h
      simp only [exponentValue, if_pos hfits]
      exact ih _ h

/-! ### The parts of a number -/

/-- The digits before the decimal point are read, given that a zero at their front stands alone. -/
theorem wholeDigits_eq {c : Cursor} {whole rest : List Char} (hwhole : Digits whole)
    (hne : whole ≠ []) (hzero : whole.head? = some '0' → whole = ['0']) (hrest : NoDigit rest)
    (h : c.rest = whole ++ rest) :
    ∃ behind, c.wholeDigits = .ok (whole, behind) ∧ behind.rest = rest := by
  obtain ⟨ch, more, rfl⟩ := List.exists_cons_of_ne_nil hne
  have hhead := head?_eq h
  by_cases hch : ch = '0'
  · -- A zero in front stands alone, and the reader asks for no digit behind it.
    subst hch
    obtain rfl : more = [] := by simpa using hzero rfl
    have hnext := next_rest_eq h
    refine ⟨c.next, ?_, hnext⟩
    rw [wholeDigits, hhead]
    cases rest with
    | nil => simp [head?, hnext]
    | cons next rest => simp [head?, hnext, hrest next rfl]
  · obtain ⟨behind, hdigits, hbehind⟩ := digits_eq hwhole hrest h
    refine ⟨behind, ?_, hbehind⟩
    have hdigit := hwhole ch List.mem_cons_self
    rw [wholeDigits, hhead, ← hdigits]
    split
    · rename_i heq
      cases heq
    · rename_i heq
      exact absurd (Option.some.inj heq) hch
    · rename_i heq
      rw [← Option.some.inj heq, if_pos hdigit]

end Cursor

/-! ### Numerals -/

/-- The text of a number in its parts. What is written is first put together as a numeral, so that
it need not be looked at character by character. -/
structure Numeral where
  /-- Whether a minus sign stands in front. -/
  negative : Bool
  /-- The digits in front of the decimal point. -/
  whole : List Char
  /-- The digits behind the decimal point, if there is one. -/
  fraction : Option (List Char) := none
  /-- The sign and the digits of the exponent, if there is one. -/
  exponent : Option (Bool × List Char) := none

namespace Numeral

/-- The decimal point and the digits behind it. -/
def fractionChars : Option (List Char) → List Char
  | some digits => '.' :: digits
  | none => []

/-- The exponent with its letter and its sign. -/
def exponentChars : Option (Bool × List Char) → List Char
  | some (down, digits) => 'e' :: (if down then '-' else '+') :: digits
  | none => []

/-- The characters of a numeral. -/
def chars (n : Numeral) : List Char :=
  (if n.negative then ['-'] else [])
    ++ (n.whole ++ (fractionChars n.fraction ++ exponentChars n.exponent))

/-- Every part that is there has digits, and a zero in front stands alone. -/
structure WellFormed (n : Numeral) : Prop where
  whole : Digits n.whole
  whole_ne : n.whole ≠ []
  zero : n.whole.head? = some '0' → n.whole = ['0']
  fraction : ∀ digits ∈ n.fraction, Digits digits ∧ digits ≠ []
  exponent : ∀ part ∈ n.exponent, Digits part.2 ∧ part.2 ≠ []

/-- The number that a numeral is read as; none where it exceeds every number. Its form and its size
tell whether it is an integer or a floating point number. -/
def value? (n : Numeral) : Option Number :=
  let fraction := n.fraction.getD []
  match n.exponent with
  | some (down, digits) =>
      match Cursor.exponentValue digits 0 0 with
      | .ok value =>
          Cursor.floatOf? n.negative n.whole fraction (if down then -value else value)
      | .error _ =>
          if down || Cursor.isZeroSignificand n.whole fraction then
            some (.float n.negative Binary64.zero)
          else none
  | none =>
      if n.fraction.isSome then Cursor.floatOf? n.negative n.whole fraction 0
      else
        (Cursor.integerOf? n.negative n.whole).or (Cursor.floatOf? n.negative n.whole fraction 0)

/-- The characters cannot belong to a number in front of them. Whatever is written behind a number
is of this kind. -/
structure Ends (rest : List Char) : Prop where
  digit : NoDigit rest
  point : rest.head? ≠ some '.'
  small : rest.head? ≠ some 'e'
  capital : rest.head? ≠ some 'E'

section
variable {c : Cursor} {rest : List Char}

/-- What follows the digits before the decimal point is no digit. -/
theorem Ends.noDigit_fraction (h : Ends rest) (fraction : Option (List Char))
    (exponent : Option (Bool × List Char)) :
    NoDigit (fractionChars fraction ++ (exponentChars exponent ++ rest)) := by
  cases fraction with
  | some digits => simp [NoDigit, fractionChars, Cursor.isDigit]
  | none =>
      cases exponent with
      | some part => simp [NoDigit, fractionChars, exponentChars, Cursor.isDigit]
      | none => simpa [fractionChars, exponentChars] using h.digit

/-- What follows the digits behind the decimal point is neither a digit nor another point. -/
theorem Ends.noPoint_exponent (h : Ends rest) (exponent : Option (Bool × List Char)) :
    (exponentChars exponent ++ rest).head? ≠ some '.' := by
  cases exponent with
  | some part => simp [exponentChars]
  | none => exact h.point

/-- The decimal point and the digits behind it are read where they are, and nothing where they are
not. -/
theorem fractionDigits_eq {fraction : Option (List Char)}
    (hfraction : ∀ digits ∈ fraction, Digits digits ∧ digits ≠ []) (hrest : NoDigit rest)
    (hpoint : rest.head? ≠ some '.') (h : c.rest = fractionChars fraction ++ rest) :
    ∃ behind, c.fractionDigits = .ok (fraction, behind) ∧ behind.rest = rest := by
  cases fraction with
  | none =>
      have hhead : c.head? ≠ some '.' := by simpa [Cursor.head?, h, fractionChars] using hpoint
      exact ⟨c, by rw [Cursor.fractionDigits, if_neg hhead], h⟩
  | some digits =>
      obtain ⟨hdigits, hne⟩ := hfraction digits rfl
      obtain ⟨behind, heq, hbehind⟩ := Cursor.digits_eq hdigits hrest (Cursor.next_rest_eq h)
      refine ⟨behind, ?_, hbehind⟩
      rw [Cursor.fractionDigits, if_pos (Cursor.head?_eq h), heq]
      simp [hne]

/-- The exponent is read where it is, with its sign, and nothing where it is not. -/
theorem exponentDigits_eq {exponent : Option (Bool × List Char)}
    (hexponent : ∀ part ∈ exponent, Digits part.2 ∧ part.2 ≠ []) (hrest : Ends rest)
    (h : c.rest = exponentChars exponent ++ rest) :
    ∃ start behind,
      c.exponentDigits = .ok (exponent.map fun part => (part.1, part.2, start), behind)
      ∧ behind.rest = rest := by
  cases exponent with
  | none =>
      have hhead : ¬ (c.head? = some 'e' ∨ c.head? = some 'E') := by
        simpa [Cursor.head?, h, exponentChars] using ⟨hrest.small, hrest.capital⟩
      exact ⟨c, c, by rw [Cursor.exponentDigits, if_neg hhead]; rfl, h⟩
  | some part =>
      obtain ⟨down, digits⟩ := part
      obtain ⟨hdigits, hne⟩ := hexponent (down, digits) rfl
      have hsign := Cursor.next_rest_eq h
      obtain ⟨behind, heq, hbehind⟩ :=
        Cursor.digits_eq hdigits hrest.digit (Cursor.next_rest_eq hsign)
      refine ⟨c.next.next, behind, ?_, hbehind⟩
      rw [Cursor.exponentDigits, if_pos (.inl (Cursor.head?_eq h))]
      have hhead := Cursor.head?_eq hsign
      cases down <;> simp [hhead, heq, hne]

/-- The reader of numbers makes of a numeral what its value is, whatever stands behind it that does
not go on with the numeral. -/
theorem number_eq {n : Numeral} (hn : n.WellFormed) (hrest : Ends rest) {number : Number}
    (hvalue : n.value? = some number) (hc : c.rest = n.chars ++ rest) :
    ∃ behind, c.number = .ok (number, behind) ∧ behind.rest = rest := by
  obtain ⟨negative, whole, fraction, exponent⟩ := n
  simp only [chars, List.append_assoc] at hc
  obtain ⟨first, more, hwhole⟩ : ∃ first more, whole = first :: more :=
    List.exists_cons_of_ne_nil hn.whole_ne
  -- The first character tells the sign, as no digit is a minus sign.
  have hsign : (c.head? == some '-') = negative := by
    have hfirst : first ≠ '-' := by
      rintro rfl
      have hdigit := hn.whole '-' (by simp [hwhole])
      revert hdigit
      decide
    cases negative <;> simp [Cursor.head?, hc, hwhole, hfirst]
  have hstart : (if negative then c.next else c).rest
      = whole ++ (fractionChars fraction ++ (exponentChars exponent ++ rest)) := by
    cases negative with
    | false => exact hc
    | true => exact Cursor.next_rest_eq hc
  -- Each part is read up to the next, and what stands behind it cannot belong to it.
  obtain ⟨afterWhole, hwholeRead, hafterWhole⟩ := Cursor.wholeDigits_eq hn.whole hn.whole_ne hn.zero
    (hrest.noDigit_fraction fraction exponent) hstart
  obtain ⟨afterFraction, hfractionRead, hafterFraction⟩ := fractionDigits_eq hn.fraction
    (hrest.noDigit_fraction none exponent) (hrest.noPoint_exponent exponent) hafterWhole
  obtain ⟨start, behind, hexponentRead, hbehind⟩ :=
    exponentDigits_eq hn.exponent hrest hafterFraction
  refine ⟨behind, ?_, hbehind⟩
  simp only [Cursor.number, hsign, hwholeRead, hfractionRead, hexponentRead, bind, Except.bind]
  simp only [value?] at hvalue
  -- From the same parts the reader and `value?` make the number in the same ways.
  cases exponent with
  | none =>
      simp only [Option.map_none] at hvalue ⊢
      by_cases hfraction : fraction.isSome = true
      · simp only [if_pos hfraction] at hvalue ⊢
        rw [hvalue]
      · simp only [if_neg hfraction] at hvalue ⊢
        cases hinteger : Cursor.integerOf? negative whole with
        | some found =>
            obtain rfl : found = number := by simpa [hinteger] using hvalue
            rfl
        | none =>
            rw [hinteger, Option.none_or] at hvalue
            rw [hvalue]
  | some part =>
      obtain ⟨down, digits⟩ := part
      simp only [Option.map_some] at hvalue ⊢
      cases hread : Cursor.exponentValue digits 0 0 with
      | ok value =>
          simp only [hread] at hvalue ⊢
          rw [hvalue]
      | error read =>
          simp only [hread] at hvalue ⊢
          by_cases hzero : (down || Cursor.isZeroSignificand whole (fraction.getD [])) = true
          · rw [if_pos hzero] at hvalue ⊢
            rw [Option.some.inj hvalue]
          · rw [if_neg hzero] at hvalue
            cases hvalue

end

end Numeral

/-! ### Floating point numerals -/

namespace Cursor

/-- The significand and the places of digits whose front part fits into 64 bits. -/
theorem exists_significand {whole : List Char} (hwhole : Nat.ofDigitChars 10 whole 0 < 2 ^ 64)
    (fraction : List Char) :
    ∃ s places, s < 2 ^ 64 ∧ places ≤ fraction.length
      ∧ s * 10 ^ (fraction.length - places) ≤ Nat.ofDigitChars 10 (whole ++ fraction) 0
      ∧ (Nat.ofDigitChars 10 (whole ++ fraction) 0 < 2 ^ 64 →
        s = Nat.ofDigitChars 10 (whole ++ fraction) 0 ∧ places = fraction.length)
      ∧ ∀ negative exponent, floatOf? negative whole fraction exponent
        = (Binary64.ofDecimal s (exponent - places)).map (.float negative) := by
  have hfront := (appendDigits_spec whole 0).2.2.1 hwhole
  obtain ⟨hle, hvalue, hexact, hsmall⟩ :=
    appendDigits_spec fraction (Nat.ofDigitChars 10 whole 0)
  rw [← Nat.ofDigitChars_append] at hvalue hexact
  refine ⟨_, _, hsmall hwhole, hle, hvalue, fun hall => ?_, fun negative exponent => ?_⟩
  · rw [hexact hall]
    exact ⟨rfl, rfl⟩
  · simp [floatOf?, hfront, sub_eq_neg_add]

/-- With no exponent above zero the number is read. -/
theorem exists_floatOf?_of_nonpos {whole : List Char}
    (hwhole : Nat.ofDigitChars 10 whole 0 < 2 ^ 64)
    (negative : Bool) (fraction : List Char) {exponent : Int} (h : exponent ≤ 0) :
    ∃ y : Binary64, y.InRange
      ∧ floatOf? negative whole fraction exponent = some (.float negative y) := by
  obtain ⟨s, places, hs, -, -, -, hfloat⟩ := exists_significand hwhole fraction
  obtain ⟨y, hy⟩ := Option.ne_none_iff_exists'.1
    (Binary64.ofDecimal_ne_none_of_nonpos hs (by omega : exponent - places ≤ 0))
  exact ⟨y, Binary64.inRange_of_ofDecimal hy, by rw [hfloat, hy]; rfl⟩

/-- The digits of the shortest decimal are read with the exponent of their first one. -/
theorem exists_floatOf?_shortest {x : Binary64} (hx : x.InRange) {whole fraction : List Char}
    (hwhole : Nat.ofDigitChars 10 whole 0 < 2 ^ 64)
    (hdigits : Nat.ofDigitChars 10 (whole ++ fraction) 0 = x.shortest.digits) (negative : Bool)
    {exponent : Int} (hexponent : x.shortest.power = exponent - fraction.length) :
    ∃ y : Binary64, y.InRange
      ∧ floatOf? negative whole fraction exponent = some (.float negative y) := by
  obtain ⟨s, places, hs, hle, hvalue, hexact, hfloat⟩ := exists_significand hwhole fraction
  rw [hdigits] at hvalue hexact
  -- What was left out of the significand is made up for by the exponent, but never in excess: the
  -- number that is asked for is at most the shortest decimal, or exactly that if all digits fit.
  have hread : Binary64.ofDecimal s (exponent - places) ≠ none := by
    rcases le_or_gt (exponent - places) 0 with h | h
    · exact Binary64.ofDecimal_ne_none_of_nonpos hs h
    · obtain ⟨n, hn⟩ := Int.eq_ofNat_of_zero_le h.le
      rw [hn]
      refine Binary64.ofDecimal_ne_none_of_le_shortest hx ?_ fun hfits => ?_
      · have hcast : ((s : ℚ) * 10 ^ (fraction.length - places)) ≤ x.shortest.digits := by
          exact_mod_cast hvalue
        calc (s : ℚ) * 10 ^ n = s * 10 ^ (fraction.length - places) * 10 ^ x.shortest.power := by
              rw [mul_assoc, ← zpow_natCast, ← zpow_natCast, ← zpow_add₀ (by norm_num)]
              congr 2
              push_cast [hle]
              omega
          _ ≤ x.shortest.digits * 10 ^ x.shortest.power := by gcongr
      · obtain ⟨hs, hplaces⟩ := hexact hfits
        exact ⟨hs, by omega⟩
  obtain ⟨y, hy⟩ := Option.ne_none_iff_exists'.1 hread
  exact ⟨y, Binary64.inRange_of_ofDecimal hy, by rw [hfloat, hy]; rfl⟩

end Cursor

/-! ### The texts of decimals -/

section
variable {d : ShortDecimal} (negative : Bool)

/-- The text of a decimal that ends before its decimal point. -/
def Numeral.padded (d : ShortDecimal) : Numeral where
  negative := negative
  whole := Nat.toDigits 10 d.digits ++ List.replicate d.power.toNat '0'
  fraction := some ['0']

/-- The text of a decimal with its point among its digits. -/
def Numeral.split (d : ShortDecimal) (places : Nat) : Numeral where
  negative := negative
  whole := (Nat.toDigits 10 d.digits).take places
  fraction := some ((Nat.toDigits 10 d.digits).drop places)

/-- The text of a decimal that starts behind its decimal point. -/
def Numeral.shifted (d : ShortDecimal) (zeros : Nat) : Numeral where
  negative := negative
  whole := ['0']
  fraction := some (List.replicate zeros '0' ++ Nat.toDigits 10 d.digits)

/-- The text of a decimal with the exponent of its first digit. -/
def Numeral.scientific (d : ShortDecimal) (exponent : Int) : Numeral where
  negative := negative
  whole := (Nat.toDigits 10 d.digits).take 1
  fraction :=
    if ((Nat.toDigits 10 d.digits).drop 1).isEmpty then none
    else some ((Nat.toDigits 10 d.digits).drop 1)
  exponent := some (decide (exponent < 0), Nat.toDigits 10 exponent.natAbs)

end

/-- The text of a decimal in one of its four forms. -/
def Numeral.ofDecimal (negative : Bool) (d : ShortDecimal) : Numeral :=
  let exponent : Int := d.power + (Nat.toDigits 10 d.digits).length - 1
  if ShortDecimal.minPositional ≤ exponent ∧ exponent ≤ ShortDecimal.maxPositional then
    if 0 ≤ d.power then padded negative d
    else if 0 ≤ exponent then split negative d (exponent.toNat + 1)
    else shifted negative d (-exponent - 1).toNat
  else scientific negative d exponent

/-- The numeral of a decimal has the characters of the text that is written for it. -/
theorem Numeral.chars_ofDecimal (negative : Bool) (d : ShortDecimal) :
    (Numeral.ofDecimal negative d).chars = (if negative then ['-'] else []) ++ d.text.toList := by
  have hdigits : (toString d.digits).toList = Nat.toDigits 10 d.digits := by
    rw [Nat.toString_eq_repr, Nat.toList_repr]
  have hlength : (toString d.digits).length = (Nat.toDigits 10 d.digits).length := by
    rw [← hdigits, String.length_toList]
  unfold Numeral.ofDecimal ShortDecimal.text
  simp only [hdigits, hlength]
  -- The four forms of the text are told apart by the same tests.
  split
  · split
    · cases negative <;> simp [Numeral.chars, padded, fractionChars, exponentChars]
    · split
      · simp [Numeral.chars, Numeral.split, fractionChars, exponentChars]
      · simp [Numeral.chars, shifted, fractionChars, exponentChars]
  · generalize d.power + ((Nat.toDigits 10 d.digits).length : Int) - 1 = exponent
    by_cases hempty : (Nat.toDigits 10 d.digits).tail = [] <;>
      by_cases hneg : exponent < 0 <;>
        simp [Numeral.chars, scientific, fractionChars, exponentChars, hempty, hneg]

/-- Where the first digit of a decimal stands, it is not below that power of ten. -/
theorem ten_zpow_le_of_pos {d : ShortDecimal} (h : 0 < d.digits) :
    (10 : ℚ) ^ (d.power + (Nat.toDigits 10 d.digits).length - 1) ≤ d.digits * 10 ^ d.power := by
  have hcast : (10 : ℚ) ^ ((Nat.toDigits 10 d.digits).length - 1) ≤ d.digits := by
    exact_mod_cast ten_pow_le_of_pos h
  have hlength := @Nat.length_toDigits_pos 10 d.digits
  calc (10 : ℚ) ^ (d.power + (Nat.toDigits 10 d.digits).length - 1)
      = 10 ^ ((Nat.toDigits 10 d.digits).length - 1) * 10 ^ d.power := by
        rw [← zpow_natCast, ← zpow_add₀ (by norm_num)]
        congr 1
        omega
    _ ≤ d.digits * 10 ^ d.power := by gcongr

/-- At most sixteen digits fit into 64 bits. -/
theorem ofDigitChars_lt_of_length {digits : List Char} (h : Digits digits)
    (hlength : digits.length ≤ 16) : Nat.ofDigitChars 10 digits 0 < 2 ^ 64 := by
  have hlt := Cursor.ofDigitChars_lt h 0
  have hpow : 10 ^ digits.length ≤ 10 ^ 16 := Nat.pow_le_pow_right (by decide) hlength
  omega

section
variable {d : ShortDecimal} (hd : 0 < d.digits)
include hd

/-- The first digits of a decimal are not a zero. -/
theorem head?_take_toDigits_ne {n : Nat} (hn : 0 < n) :
    ((Nat.toDigits 10 d.digits).take n).head? ≠ some '0' := by
  rw [List.head?_take, if_neg hn.ne']
  exact head?_toDigits_ne_zero hd

omit hd in
/-- The first digits of a decimal are not none. -/
theorem take_toDigits_ne_nil {n : Nat} (hn : 0 < n) : (Nat.toDigits 10 d.digits).take n ≠ [] := by
  simp [hn.ne', Nat.toDigits_ne_nil]

/-- A decimal that ends before its point is a numeral, as its first digit is not a zero. -/
theorem Numeral.wellFormed_padded (negative : Bool) : (padded negative d).WellFormed where
  whole := (digits_toDigits _).append (digits_replicate_zero _)
  whole_ne := by simp [padded, Nat.toDigits_ne_nil]
  zero h := by
    rw [padded, List.head?_append_of_ne_nil _ Nat.toDigits_ne_nil] at h
    exact absurd h (head?_toDigits_ne_zero hd)
  fraction := by
    rintro digits ⟨⟩
    exact ⟨digits_replicate_zero 1, by simp⟩
  exponent := by rintro part ⟨⟩

/-- A decimal with its point among its digits is a numeral. -/
theorem Numeral.wellFormed_split (negative : Bool) {places : Nat} (hplaces : 0 < places)
    (hinside : places < (Nat.toDigits 10 d.digits).length) :
    (Numeral.split negative d places).WellFormed where
  whole := (digits_toDigits _).take _
  whole_ne := take_toDigits_ne_nil hplaces
  zero h := absurd h (head?_take_toDigits_ne hd hplaces)
  fraction := by
    rintro digits ⟨⟩
    exact ⟨(digits_toDigits _).drop _, by simpa using hinside⟩
  exponent := by rintro part ⟨⟩

omit hd in
/-- A decimal that starts behind its point is a numeral, with a zero alone in front. -/
theorem Numeral.wellFormed_shifted (negative : Bool) (zeros : Nat) :
    (shifted negative d zeros).WellFormed where
  whole := digits_replicate_zero 1
  whole_ne := by simp [shifted]
  zero _ := rfl
  fraction := by
    rintro digits ⟨⟩
    exact ⟨(digits_replicate_zero _).append (digits_toDigits _),
      by simp [Nat.toDigits_ne_nil]⟩
  exponent := by rintro part ⟨⟩

/-- A decimal with an exponent is a numeral. -/
theorem Numeral.wellFormed_scientific (negative : Bool) (exponent : Int) :
    (scientific negative d exponent).WellFormed where
  whole := (digits_toDigits _).take _
  whole_ne := take_toDigits_ne_nil one_pos
  zero h := absurd h (head?_take_toDigits_ne hd one_pos)
  fraction := by
    intro digits hdigits
    simp only [scientific, Option.mem_def, Option.ite_none_left_eq_some] at hdigits
    obtain ⟨hne, hdigits⟩ := hdigits
    cases hdigits
    exact ⟨(digits_toDigits _).drop _, by simpa using hne⟩
  exponent := by
    rintro part ⟨⟩
    exact ⟨digits_toDigits _, Nat.toDigits_ne_nil⟩

end

/-- With an exponent, the digits are those of the shortest decimal, and the exponent stands for the
place of the first one. -/
theorem Numeral.exists_value?_scientific {x : Binary64} (hx : x.InRange) (negative : Bool)
    {exponent : Int}
    (hexponent :
      x.shortest.power + ((Nat.toDigits 10 x.shortest.digits).length : Int) - 1 = exponent)
    (hbound : (10 : ℚ) ^ exponent ≤ 10 ^ (Binary64.maxPowerOfTen + 1)) :
    ∃ y : Binary64, y.InRange
      ∧ (scientific negative x.shortest exponent).value? = some (.float negative y) := by
  have hlength := @Nat.length_toDigits_pos 10 x.shortest.digits
  have hwhole : Nat.ofDigitChars 10 ((Nat.toDigits 10 x.shortest.digits).take 1) 0 < 2 ^ 64 :=
    ofDigitChars_lt_of_length ((digits_toDigits _).take 1)
      ((List.length_take_le 1 _).trans (by decide))
  have hfraction : (scientific negative x.shortest exponent).fraction.getD []
      = (Nat.toDigits 10 x.shortest.digits).drop 1 := by
    by_cases hempty : ((Nat.toDigits 10 x.shortest.digits).drop 1).isEmpty = true
    · simp [scientific, List.isEmpty_iff.1 hempty]
    · rw [scientific, if_neg hempty]
      rfl
  simp only [value?, hfraction]
  simp only [scientific]
  by_cases hneg : exponent < 0
  · -- An exponent below zero cannot make the number too great, however long it is.
    cases Cursor.exponentValue (Nat.toDigits 10 exponent.natAbs) 0 0 with
    | ok value =>
        simpa [hneg] using Cursor.exists_floatOf?_of_nonpos hwhole negative
          ((Nat.toDigits 10 x.shortest.digits).drop 1) (show -(value : Int) ≤ 0 by omega)
    | error read =>
        exact ⟨Binary64.zero, Binary64.inRange_zero, by simp [hneg]⟩
  · -- Any other exponent is bounded by the magnitude, so it is read as it stands.
    have hsmall : exponent ≤ (Binary64.maxPowerOfTen + 1 : ℕ) := by
      rw [← zpow_natCast] at hbound
      exact (zpow_le_zpow_iff_right₀ (by norm_num)).1 hbound
    have hvalue : Nat.ofDigitChars 10 (Nat.toDigits 10 exponent.natAbs) 0 = exponent.natAbs :=
      Nat.ofDigitChars_toDigits (by decide) (by decide)
    have hread := Cursor.exponentValue_eq 0 (show
      Nat.ofDigitChars 10 (Nat.toDigits 10 exponent.natAbs) 0 < 2 ^ 31 by
        simp only [Binary64.maxPowerOfTen] at hsmall
        omega)
    have hpower : x.shortest.power
        = exponent - ((Nat.toDigits 10 x.shortest.digits).drop 1).length := by
      rw [List.length_drop]
      omega
    obtain ⟨y, hy, hfloat⟩ := Cursor.exists_floatOf?_shortest hx hwhole
      (by rw [List.take_append_drop, Nat.ofDigitChars_toDigits (by decide) (by decide)]) negative
      hpower
    rw [hvalue] at hread
    have habs : (exponent.natAbs : Int) = exponent := by omega
    exact ⟨y, hy, by simpa [hread, hneg, habs] using hfloat⟩

/-- The shortest decimal of a magnitude is a numeral that is read as a magnitude. -/
theorem Numeral.ofDecimal_shortest {x : Binary64} (hx : x.InRange) (hpos : 0 < x.significand)
    (negative : Bool) :
    (Numeral.ofDecimal negative x.shortest).WellFormed
      ∧ ∃ y : Binary64, y.InRange
        ∧ (Numeral.ofDecimal negative x.shortest).value? = some (.float negative y) := by
  have hd := hx.shortest_pos hpos
  have hbound := (ten_zpow_le_of_pos hd).trans hx.shortest_le_ten_pow
  have hlength := @Nat.length_toDigits_pos 10 x.shortest.digits
  simp only [Numeral.ofDecimal]
  generalize hexponent :
    x.shortest.power + ((Nat.toDigits 10 x.shortest.digits).length : Int) - 1 = exponent
    at hbound ⊢
  by_cases hnear : ShortDecimal.minPositional ≤ exponent ∧ exponent ≤ ShortDecimal.maxPositional
  · rw [if_pos hnear]
    simp only [ShortDecimal.maxPositional] at hnear
    -- Without an exponent all that counts is that the digits before the point fit into 64 bits.
    have hread : ∀ (whole : List Char), Digits whole → whole.length ≤ 16 → ∀ fraction,
        ∃ y : Binary64, y.InRange
          ∧ Numeral.value? { negative, whole, fraction := some fraction }
            = some (.float negative y) := fun whole hwhole hshort fraction =>
      Cursor.exists_floatOf?_of_nonpos (ofDigitChars_lt_of_length hwhole hshort) negative fraction
        le_rfl
    by_cases hpower : 0 ≤ x.shortest.power
    · rw [if_pos hpower]
      have hwellFormed := wellFormed_padded hd negative
      refine ⟨hwellFormed, hread _ hwellFormed.whole ?_ _⟩
      simp only [padded, List.length_append, List.length_replicate]
      omega
    · rw [if_neg hpower]
      by_cases hnonneg : 0 ≤ exponent
      · rw [if_pos hnonneg]
        have hwellFormed := wellFormed_split hd negative (Nat.succ_pos exponent.toNat) (by omega)
        refine ⟨hwellFormed, hread _ hwellFormed.whole ?_ _⟩
        simp only [Numeral.split, List.length_take]
        omega
      · rw [if_neg hnonneg]
        exact ⟨wellFormed_shifted negative _, hread _ (digits_replicate_zero 1) (by simp) _⟩
  · rw [if_neg hnear]
    exact ⟨wellFormed_scientific hd negative exponent,
      exists_value?_scientific hx negative hexponent hbound⟩

/-! ### The texts of integers -/

/-- The text of an integer. -/
def Numeral.ofInt (n : Int) : Numeral where
  negative := decide (n < 0)
  whole := Nat.toDigits 10 n.natAbs

/-- The numeral of an integer has the characters of the text that is written for it. -/
theorem Numeral.chars_ofInt (n : Int) : (Numeral.ofInt n).chars = (toString n).toList := by
  rw [Int.toString_eq_repr, Int.repr_eq_if]
  by_cases hneg : n < 0
  · have habs : (-n).toNat = n.natAbs := by omega
    simp [ofInt, chars, fractionChars, exponentChars, hneg, not_le.2 hneg, Nat.toList_repr, habs]
  · have habs : n.toNat = n.natAbs := by omega
    simp [ofInt, chars, fractionChars, exponentChars, hneg, not_lt.1 hneg, Nat.toList_repr, habs]

/-- The digits of an integer are a numeral: only zero itself starts with a zero. -/
theorem Numeral.wellFormed_ofInt (n : Int) : (Numeral.ofInt n).WellFormed where
  whole := digits_toDigits _
  whole_ne := Nat.toDigits_ne_nil
  zero h := by
    rcases Nat.eq_zero_or_pos n.natAbs with hzero | hpos
    · simp [ofInt, hzero]
    · exact absurd h (head?_toDigits_ne_zero hpos)
  fraction := by rintro digits ⟨⟩
  exponent := by rintro part ⟨⟩

/-- The numeral of an integer of 64 bits, with or without a sign, is read as that integer. -/
theorem Numeral.value?_ofInt {n : Int} (hlow : -2 ^ 63 ≤ n) (hhigh : n < 2 ^ 64) :
    (Numeral.ofInt n).value? = some (.integer n) := by
  have hvalue : Nat.ofDigitChars 10 (Nat.toDigits 10 n.natAbs) 0 = n.natAbs :=
    Nat.ofDigitChars_toDigits (by decide) (by decide)
  have happend := (Cursor.appendDigits_spec (Nat.toDigits 10 n.natAbs) 0).2.2.1 (by omega)
  rw [hvalue] at happend
  suffices hinteger :
      Cursor.integerOf? (decide (n < 0)) (Nat.toDigits 10 n.natAbs) = some (.integer n) by
    simp [value?, ofInt, hinteger]
  simp only [Cursor.integerOf?, happend, lt_irrefl, if_false, Nat.pow_eq]
  by_cases hneg : n < 0
  · have hfits : ¬ (n.natAbs = 0 ∨ 2 ^ 63 < n.natAbs) := by omega
    have habs : -(n.natAbs : Int) = n := by omega
    rw [decide_eq_true hneg, if_pos rfl, if_neg hfits, habs]
  · have habs : (n.natAbs : Int) = n := by omega
    simp [hneg, habs]

end Json

/-! ### Numbers -/

open Json

namespace Number

/-- The number is an integer of at most 64 bits or finite. -/
def Valid : Number → Prop
  | .integer n => -2 ^ 63 ≤ n ∧ n < 2 ^ 64
  | .float _ x => x.InRange

/-- The number that the text of a number is read as. An integer stays the same, and of a floating
point number the magnitude can change. -/
def reread : Number → Number
  | .integer n => .integer n
  | .float negative x =>
      match Cursor.number (Cursor.ofString (Number.float negative x).text) with
      | .ok (.float _ y, _) => .float negative y
      | _ => .float negative x

/-- The text of a number is a numeral that is read as an equal integer, or as a floating point
number of the same sign. -/
theorem exists_numeral {n : Number} (h : n.Valid) :
    ∃ numeral : Numeral, numeral.chars = n.text.toList ∧ numeral.WellFormed
      ∧ ∃ again, numeral.value? = some again ∧
        match n with
        | .integer _ => again = n
        | .float negative _ => ∃ y, again = .float negative y := by
  cases n with
  | integer n =>
      exact ⟨.ofInt n, Numeral.chars_ofInt n, Numeral.wellFormed_ofInt n, _,
        Numeral.value?_ofInt h.1 h.2, rfl⟩
  | float negative x =>
      rcases Nat.eq_zero_or_pos x.significand with hzero | hpos
      · -- A zero has no shortest decimal; its text is always the same.
        refine ⟨{ negative, whole := ['0'], fraction := some ['0'] }, ?_, ?_, ?_⟩
        · cases negative <;>
            simp [Numeral.chars, Numeral.fractionChars, Numeral.exponentChars, text, Binary64.text,
              Binary64.isZero, hzero]
        · exact ⟨digits_replicate_zero 1, by simp, fun _ => rfl,
            by rintro digits ⟨⟩; exact ⟨digits_replicate_zero 1, by simp⟩, by rintro part ⟨⟩⟩
        · obtain ⟨y, -, hy⟩ := Cursor.exists_floatOf?_of_nonpos
            (show Nat.ofDigitChars 10 ['0'] 0 < 2 ^ 64 by decide) negative ['0'] le_rfl
          exact ⟨_, hy, y, rfl⟩
      · obtain ⟨hwellFormed, y, -, hy⟩ := Numeral.ofDecimal_shortest h hpos negative
        refine ⟨_, ?_, hwellFormed, _, hy, y, rfl⟩
        rw [Numeral.chars_ofDecimal]
        cases negative <;> simp [text, Binary64.text, Binary64.isZero, hpos.ne']

/-- A number is read back from its text, whatever stands behind it. An integer is read as itself,
and a floating point number as the one that its shortest decimal stands for. -/
theorem number_text {n : Number} (h : n.Valid) {c : Cursor} {rest : List Char}
    (hrest : Numeral.Ends rest) (hc : c.rest = n.text.toList ++ rest) :
    ∃ behind, c.number = .ok (n.reread, behind) ∧ behind.rest = rest := by
  obtain ⟨numeral, hchars, hwellFormed, again, hvalue, hagain⟩ := exists_numeral h
  have hreread : n.reread = again := by
    cases n with
    | integer n => exact hagain.symm
    | float negative x =>
        -- What a floating point number is reread as is told by the reader on its text alone.
        obtain ⟨y, rfl⟩ := hagain
        have halone : Numeral.Ends [] := ⟨by simp [NoDigit], by simp, by simp, by simp⟩
        have hstart : (Cursor.ofString (float negative x).text).rest = numeral.chars ++ [] := by
          rw [hchars, List.append_nil]
          rfl
        obtain ⟨behind, hread, -⟩ := Numeral.number_eq hwellFormed halone hvalue hstart
        rw [reread, hread]
  rw [hreread]
  exact Numeral.number_eq hwellFormed hrest hvalue (hchars ▸ hc)

end Number

/-! ### What is read is a number -/

namespace Json.Cursor

/-- A floating point number that is read is finite. -/
theorem valid_of_floatOf? {negative : Bool} {whole fraction : List Char} {exponent : Int}
    {n : Number} (h : floatOf? negative whole fraction exponent = some n) : n.Valid := by
  obtain ⟨y, hy, rfl⟩ := Option.map_eq_some_iff.1 h
  exact Binary64.inRange_of_ofDecimal hy

/-- An integer that is read has 64 bits at most, with or without a sign. -/
theorem valid_of_integerOf? {negative : Bool} {whole : List Char} {n : Number}
    (h : integerOf? negative whole = some n) : n.Valid := by
  have hsmall := (appendDigits_spec whole 0).2.2.2 (by decide)
  simp only [integerOf?, Nat.pow_eq] at h
  split at h
  · cases h
  · split at h
    · split at h
      · cases h
      · rename_i hfits
        obtain rfl := Option.some.inj h
        simp only [Number.Valid]
        omega
    · obtain rfl := Option.some.inj h
      simp only [Number.Valid]
      omega

/-- A floating point number at the end of a numeral is valid. -/
theorem valid_of_finish {negative : Bool} {whole fraction : List Char} {power : Int} {n : Number}
    {after behind : Cursor}
    (h : (match floatOf? negative whole fraction power with
      | some n => Except.ok (n, after)
      | none => after.failHere Fault.numberOutOfRange) = .ok (n, behind)) : n.Valid := by
  cases hfloat : floatOf? negative whole fraction power with
  | none => simp [hfloat, failHere] at h
  | some found =>
      rw [hfloat] at h
      cases h
      exact valid_of_floatOf? hfloat

/-- Whatever the reader of numbers gives is a number of 64 bits. -/
theorem valid_of_number {c behind : Cursor} {n : Number} (h : c.number = .ok (n, behind)) :
    n.Valid := by
  obtain ⟨⟨whole, afterWhole⟩, -, h⟩ := bind_ok_iff.1 h
  obtain ⟨⟨fraction, afterFraction⟩, -, h⟩ := bind_ok_iff.1 h
  obtain ⟨⟨exponent, afterExponent⟩, -, h⟩ := bind_ok_iff.1 h
  simp only at h
  -- Every way to finish ends in one of the two ways to make a number, or in a zero.
  cases exponent with
  | none =>
      simp only at h
      split at h
      · exact valid_of_finish h
      · cases hinteger : integerOf? (c.head? == some '-') whole with
        | none =>
            rw [hinteger] at h
            exact valid_of_finish h
        | some found =>
            rw [hinteger] at h
            cases h
            exact valid_of_integerOf? hinteger
  | some part =>
      simp only at h
      split at h
      · exact valid_of_finish h
      · split at h
        · cases h
          exact Binary64.inRange_zero
        · cases h

end Json.Cursor

end ImageImports
