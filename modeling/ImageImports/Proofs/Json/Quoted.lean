import ImageImports.Json.Cursor
import ImageImports.Proofs.Json.Escaping
import ImageImports.Proofs.Json.Numeral

/-!
# `ImageImports.Proofs.Json.Quoted`: quoted strings are read back

A character is written in one of three ways inside a quoted string (`escapeChar_cases`). The reader
takes each of them for the character that was written (`Cursor.stringChars_escapeChar`), so it reads
a quoted string as the text it was made of.

Main statement: `Cursor.string_quote`.
-/

set_option autoImplicit false

namespace ImageImports.Json.Cursor

/-! ### Escapes -/

/-- A hexadecimal digit is read as the value that it is written for. -/
theorem hexValue?_hexDigit {n : Nat} (h : n < 16) : hexValue? (hexDigit n) = some n := by
  revert n
  decide

/-- A control character is read from its four hexadecimal digits. -/
theorem unicodeEscape_eq {c : Cursor} {ch : Char} {rest : List Char} (hch : ch.toNat < 32)
    (h : c.rest
      = '0' :: '0' :: hexDigit (ch.toNat / 16) :: hexDigit (ch.toNat % 16) :: rest) :
    ∃ behind, c.unicodeEscape = .ok (ch, behind) ∧ behind.rest = rest := by
  have hzero : hexValue? '0' = some 0 := rfl
  have hfour : c.hexFour = .ok (ch.toNat, ⟨rest, c.line, c.column + 4⟩) := by
    have hvalue : ch.toNat / 16 * 16 + ch.toNat % 16 = ch.toNat := by omega
    simp [hexFour, h, hzero, hexValue?_hexDigit (show ch.toNat / 16 < 16 by omega),
      hexValue?_hexDigit (Nat.mod_lt _ (by decide)), hvalue]
  refine ⟨⟨rest, c.line, c.column + 4⟩, ?_, rfl⟩
  have hlow : ¬ (0xDC00 ≤ ch.toNat ∧ ch.toNat ≤ 0xDFFF) := by omega
  have hplain : ch.toNat < 0xD800 ∨ 0xDBFF < ch.toNat := by omega
  simp [unicodeEscape, hfour, bind, Except.bind, hlow, hplain]

/-- A letter behind a backslash is read as the character that it is written for. -/
theorem escape_letter {c : Cursor} {ch letter : Char} (h : (ch, letter) ∈ letterEscapes)
    (hc : c.head? = some letter) : c.escape = .ok (ch, c.next) := by
  simp only [letterEscapes, List.mem_cons, Prod.mk.injEq, List.not_mem_nil, or_false] at h
  rcases h with ⟨rfl, rfl⟩ | ⟨rfl, rfl⟩ | ⟨rfl, rfl⟩ | ⟨rfl, rfl⟩ | ⟨rfl, rfl⟩ | ⟨rfl, rfl⟩
    | ⟨rfl, rfl⟩ <;> simp [escape, hc]

/-- The reader of strings takes what is written for a character as that character, in whichever form
it is written. -/
theorem stringChars_escapeChar {c : Cursor} {ch : Char} {rest : List Char}
    (h : c.rest = escapeChar ch ++ rest) (n : Nat) (seen : List Char) :
    ∃ behind, stringChars (n + 1) seen c = stringChars n (ch :: seen) behind
      ∧ behind.rest = rest := by
  rcases escapeChar_cases ch with ⟨letter, hletter, hch⟩ | ⟨hcontrol, hch⟩
    | ⟨hquote, hbackslash, hplain, hch⟩
  · rw [hch] at h
    have hnext := next_rest_eq h
    refine ⟨c.next.next, ?_, next_rest_eq hnext⟩
    rw [stringChars, head?_eq h]
    simp [escape_letter hletter (head?_eq hnext), bind, Except.bind]
  · rw [hch] at h
    have hnext := next_rest_eq h
    obtain ⟨behind, hread, hbehind⟩ := unicodeEscape_eq hcontrol (next_rest_eq hnext)
    refine ⟨behind, ?_, hbehind⟩
    rw [stringChars, head?_eq h]
    simp [escape, head?_eq hnext, hread, bind, Except.bind]
  · -- The reader stops at a mark and looks behind a backslash, and this character is neither.
    rw [hch] at h
    refine ⟨c.next, ?_, next_rest_eq h⟩
    rw [stringChars, head?_eq h]
    split
    · rename_i heq
      cases heq
    · rename_i heq
      exact absurd (Option.some.inj heq) hquote
    · rename_i heq
      exact absurd (Option.some.inj heq) hbackslash
    · rename_i heq
      rw [← Option.some.inj heq, if_neg (not_lt.2 hplain)]

/-! ### Strings -/

/-- The characters of a text are read one by one, up to the mark behind them. -/
theorem stringChars_escapeChars (chars : List Char) {c : Cursor} {rest : List Char}
    (h : c.rest = escapeChars chars ++ '"' :: rest) {n : Nat} (hn : chars.length < n)
    (seen : List Char) :
    ∃ behind, stringChars n seen c = .ok (seen.reverse ++ chars, behind) ∧ behind.rest = rest := by
  induction chars generalizing c n seen with
  | nil =>
      obtain ⟨n, rfl⟩ := Nat.exists_eq_add_one_of_ne_zero (Nat.ne_of_gt hn)
      refine ⟨c.next, ?_, next_rest_eq h⟩
      rw [stringChars, head?_eq h, List.append_nil]
      rfl
  | cons ch chars ih =>
      obtain ⟨n, rfl⟩ := Nat.exists_eq_add_one_of_ne_zero (Nat.ne_of_gt (Nat.zero_lt_of_lt hn))
      rw [escapeChars, List.append_assoc] at h
      obtain ⟨next, hstep, hnext⟩ := stringChars_escapeChar h n seen
      obtain ⟨behind, hread, hbehind⟩ := ih hnext (Nat.lt_of_succ_lt_succ hn) (ch :: seen)
      exact ⟨behind, by rw [hstep, hread, List.reverse_cons, List.append_assoc]; rfl, hbehind⟩

/-- Writing a text takes a character for each of its own, so the length of what is written is enough
to read it. -/
theorem length_le_escapeChars (chars : List Char) : chars.length ≤ (escapeChars chars).length := by
  induction chars with
  | nil => exact Nat.zero_le _
  | cons ch chars ih =>
      have hpos : 0 < (escapeChar ch).length := by
        rcases escapeChar_cases ch with ⟨letter, -, h⟩ | ⟨-, h⟩ | ⟨-, -, -, h⟩ <;> simp [h]
      rw [escapeChars, List.length_append, List.length_cons]
      omega

/-- A quoted string is read as its text, whatever stands behind it. The reader stops at the first
mark that is not escaped, and that is the one that was put there. -/
theorem string_quote (text : String) {c : Cursor} {rest : List Char}
    (h : c.rest = quoteChars text.toList ++ rest) {limit : Nat} (hlimit : c.rest.length ≤ limit) :
    ∃ behind, c.next.string limit = .ok (text, behind) ∧ behind.rest = rest := by
  have hlength : text.toList.length < limit := by
    have hescaped := length_le_escapeChars text.toList
    rw [h] at hlimit
    simp only [quoteChars, List.length_append, List.length_cons, List.length_nil] at hlimit
    omega
  rw [quoteChars, List.cons_append, List.append_assoc] at h
  obtain ⟨behind, hread, hbehind⟩ := stringChars_escapeChars text.toList (next_rest_eq h) hlength []
  exact ⟨behind, by simp [string, hread, bind, Except.bind], hbehind⟩

end ImageImports.Json.Cursor
