import ImageImports.Json.Quoted

/-!
# `ImageImports.Proofs.Json.Escaping`: a quoted string ends at its last mark

Whoever reads a quoted string takes it to end at the first quotation mark that is not escaped. A
mark is escaped if the backslashes in front of it are odd in number, since each of them either
escapes what comes next or is escaped itself. Inside a quoted string every mark is escaped, and the
one at its end is not (`enclosed_escapeChars`), so no text can end the string it is quoted in.

Read from left to right, whether the next character is escaped is a state of one bit
(`escapesNext`). What is written for one character, in any of three ways (`escapeChar_cases`),
leaves nothing escaped behind it (`marksEscaped_escapeChar`), which carries the induction over the
text; that the bit is the parity of the backslashes is a fact on its own (`foldl_escapesNext`).
-/

set_option autoImplicit false

namespace ImageImports.Json

/-! ### What a backslash escapes -/

/-- Whether a text escapes the character behind it: it ends with an odd number of backslashes. This
is how a reader of the text tells which marks end a string. -/
def Escapes (chars : List Char) : Prop :=
  (chars.reverse.takeWhile (· == '\\')).length % 2 = 1

/-- Whether the next character is escaped, given whether this one is. -/
def escapesNext (escaped : Bool) (c : Char) : Bool := !escaped && c == '\\'

/-- Read from its end, a text escapes on or not by the parity of its first backslashes. -/
theorem foldr_escapesNext (chars : List Char) :
    chars.foldr (fun c escaped => escapesNext escaped c) false
      = decide ((chars.takeWhile (· == '\\')).length % 2 = 1) := by
  induction chars with
  | nil => rfl
  | cons c rest ih =>
      rw [List.foldr_cons, ih]
      by_cases hc : c = '\\'
      · have hparity : ((rest.takeWhile (· == '\\')).length + 1) % 2 = 1
            ↔ ¬ (rest.takeWhile (· == '\\')).length % 2 = 1 := by omega
        rw [List.takeWhile_cons_of_pos (by rw [hc]; rfl), List.length_cons,
          decide_eq_decide.2 hparity, decide_not, escapesNext, hc, beq_self_eq_true, Bool.and_true]
      · simp [escapesNext, hc]

/-- Going through a text from its front and keeping track of whether the next character is escaped
gives the same as counting the backslashes at its end. -/
theorem foldl_escapesNext (chars : List Char) :
    chars.foldl escapesNext false = true ↔ Escapes chars := by
  have h := foldr_escapesNext chars.reverse
  rw [List.foldr_reverse] at h
  rw [h, decide_eq_true_eq, Escapes]

/-! ### Marks inside a text -/

/-- Whether every quotation mark in a text is escaped and the text escapes nothing behind it, given
whether its first character is escaped. -/
def marksEscaped : Bool → List Char → Bool
  | escaped, [] => !escaped
  | escaped, c :: rest => (escaped || c != '"') && marksEscaped (escapesNext escaped c) rest

/-- A text in which every mark is escaped escapes each of its marks: what stands in front of the
mark ends with an odd number of backslashes. -/
theorem foldl_of_marksEscaped {before after : List Char} {escaped : Bool}
    (h : marksEscaped escaped (before ++ '"' :: after) = true) :
    before.foldl escapesNext escaped = true := by
  induction before generalizing escaped with
  | nil => simpa [marksEscaped] using (Bool.and_eq_true_iff.1 h).1
  | cons c rest ih => exact ih (Bool.and_eq_true_iff.1 h).2

/-- A text in which every mark is escaped escapes nothing behind it. -/
theorem foldl_of_marksEscaped_end {chars : List Char} {escaped : Bool}
    (h : marksEscaped escaped chars = true) : chars.foldl escapesNext escaped = false := by
  induction chars generalizing escaped with
  | nil => simpa [marksEscaped] using h
  | cons c rest ih => exact ih (Bool.and_eq_true_iff.1 h).2

/-! ### Quoted strings -/

/-- Hexadecimal digits are neither marks nor backslashes nor control characters. -/
theorem hexDigit_plain {n : Nat} (h : n < 16) :
    hexDigit n ≠ '"' ∧ hexDigit n ≠ '\\' ∧ 32 ≤ (hexDigit n).toNat := by
  revert n
  decide

/-- A character that is neither a mark nor a backslash stands for itself. -/
theorem marksEscaped_plain {c : Char} (hmark : c ≠ '"') (hbackslash : c ≠ '\\')
    (rest : List Char) : marksEscaped false (c :: rest) = marksEscaped false rest := by
  rw [marksEscaped, escapesNext, bne_iff_ne.2 hmark, beq_false_of_ne hbackslash]
  rfl

/-- The characters that are written as a backslash and a letter, each with its letter. -/
def letterEscapes : List (Char × Char) :=
  [('"', '"'), ('\\', '\\'), ('\n', 'n'), ('\r', 'r'), ('\t', 't'), (Char.ofNat 8, 'b'),
    (Char.ofNat 12, 'f')]

/-- The characters in the table are written as a backslash and their letter. -/
theorem escapeChar_of_mem {c letter : Char} (h : (c, letter) ∈ letterEscapes) :
    escapeChar c = ['\\', letter] := by
  have hall : ∀ pair ∈ letterEscapes, escapeChar pair.1 = ['\\', pair.2] := by decide
  exact hall _ h

/-- A character is written in one of three ways: as a letter behind a backslash, with its
hexadecimal digits if it is another control character, and as itself otherwise. -/
theorem escapeChar_cases (c : Char) :
    (∃ letter, (c, letter) ∈ letterEscapes ∧ escapeChar c = ['\\', letter])
      ∨ (c.toNat < 32 ∧ escapeChar c
        = ['\\', 'u', '0', '0', hexDigit (c.toNat / 16), hexDigit (c.toNat % 16)])
      ∨ (c ≠ '"' ∧ c ≠ '\\' ∧ 32 ≤ c.toNat ∧ escapeChar c = [c]) := by
  by_cases hletter : ∃ letter, (c, letter) ∈ letterEscapes
  · obtain ⟨letter, hletter⟩ := hletter
    exact .inl ⟨letter, hletter, escapeChar_of_mem hletter⟩
  · -- Two of the letters are asked for by their numbers.
    have hnumber (n : Nat) (h : c.toNat = n) : c = Char.ofNat n := by rw [← h, Char.ofNat_toNat]
    simp only [letterEscapes, List.mem_cons, Prod.mk.injEq, List.not_mem_nil, or_false, not_exists,
      not_or, not_and] at hletter
    have hquote : c ≠ '"' := fun h => (hletter '"').1 h rfl
    have hbackslash : c ≠ '\\' := fun h => (hletter '\\').2.1 h rfl
    have hline : c ≠ '\n' := fun h => (hletter 'n').2.2.1 h rfl
    have hreturn : c ≠ '\r' := fun h => (hletter 'r').2.2.2.1 h rfl
    have htab : c ≠ '\t' := fun h => (hletter 't').2.2.2.2.1 h rfl
    have hback : c.toNat ≠ 8 := fun h => (hletter 'b').2.2.2.2.2.1 (hnumber 8 h) rfl
    have hfeed : c.toNat ≠ 12 := fun h => (hletter 'f').2.2.2.2.2.2 (hnumber 12 h) rfl
    rw [escapeChar, if_neg hquote, if_neg hbackslash, if_neg hline, if_neg hreturn, if_neg htab,
      if_neg hback, if_neg hfeed]
    by_cases hcontrol : c.toNat < 32
    · exact .inr (.inl ⟨hcontrol, if_pos hcontrol⟩)
    · exact .inr (.inr ⟨hquote, hbackslash, Nat.not_lt.1 hcontrol, if_neg hcontrol⟩)

/-- What is written for a character has its marks escaped and escapes nothing behind it. So the
characters of a text can be dealt with one by one. -/
theorem marksEscaped_escapeChar (c : Char) (rest : List Char) :
    marksEscaped false (escapeChar c ++ rest) = marksEscaped false rest := by
  rcases escapeChar_cases c with ⟨letter, -, h⟩ | ⟨hcontrol, h⟩ | ⟨hmark, hbackslash, -, h⟩
  · -- The backslash escapes the letter, whichever it is, and the letter nothing.
    rw [h]
    rfl
  · obtain ⟨hmark, hbackslash, -⟩ := hexDigit_plain (show c.toNat / 16 < 16 by omega)
    obtain ⟨hmark', hbackslash', -⟩ := hexDigit_plain (Nat.mod_lt c.toNat (show 0 < 16 by decide))
    rw [h]
    show marksEscaped false (hexDigit (c.toNat / 16) :: hexDigit (c.toNat % 16) :: rest) = _
    rw [marksEscaped_plain hmark hbackslash, marksEscaped_plain hmark' hbackslash']
  · rw [h]
    exact marksEscaped_plain hmark hbackslash rest

/-- What is written for a text has its marks escaped and escapes nothing behind it. -/
theorem marksEscaped_escapeChars (chars : List Char) :
    marksEscaped false (escapeChars chars) = true := by
  induction chars with
  | nil => rfl
  | cons c rest ih => rw [escapeChars, marksEscaped_escapeChar, ih]

/-- No control character is left in what is written for a character. -/
theorem le_toNat_of_mem_escapeChar {c ch : Char} (h : c ∈ escapeChar ch) : 32 ≤ c.toNat := by
  rcases escapeChar_cases ch with ⟨letter, hletter, hch⟩ | ⟨hcontrol, hch⟩ | ⟨-, -, hplain, hch⟩
  · have hall : ∀ pair ∈ letterEscapes, 32 ≤ pair.2.toNat := by decide
    simp only [hch, List.mem_cons, List.not_mem_nil, or_false] at h
    rcases h with rfl | rfl
    · decide
    · exact hall _ hletter
  · have hhigh := (hexDigit_plain (show ch.toNat / 16 < 16 by omega)).2.2
    have hlow := (hexDigit_plain (Nat.mod_lt ch.toNat (show 0 < 16 by decide))).2.2
    simp only [hch, List.mem_cons, List.not_mem_nil, or_false] at h
    rcases h with rfl | rfl | rfl | rfl | rfl | rfl
    · decide
    · decide
    · decide
    · decide
    · exact hhigh
    · exact hlow
  · rw [hch, List.mem_singleton] at h
    rwa [h]

/-- No control character is left in what is written for a text. -/
theorem le_toNat_of_mem_escapeChars {c : Char} {chars : List Char} (h : c ∈ escapeChars chars) :
    32 ≤ c.toNat := by
  induction chars with
  | nil => simp [escapeChars] at h
  | cons ch rest ih =>
      rcases List.mem_append.1 h with h | h
      · exact le_toNat_of_mem_escapeChar h
      · exact ih h

/-- That a text stays inside the quotation marks put around it: no mark in it ends it early, and no
control character breaks the line. -/
structure Enclosed (inner : List Char) : Prop where
  /-- There are no control characters. -/
  plain : ∀ c ∈ inner, 32 ≤ c.toNat
  /-- Every mark is escaped. -/
  escapes : ∀ before after, inner = before ++ '"' :: after → Escapes before
  /-- The mark behind the text is not escaped. -/
  closed : ¬ Escapes inner

/-- What is written for a text stays inside the quotation marks put around it, whatever the text
is. -/
theorem enclosed_escapeChars (chars : List Char) : Enclosed (escapeChars chars) where
  plain _ hc := le_toNat_of_mem_escapeChars hc
  escapes before after h := by
    have hmarks := marksEscaped_escapeChars chars
    rw [h] at hmarks
    exact (foldl_escapesNext before).1 (foldl_of_marksEscaped hmarks)
  closed h := by
    have hend := foldl_of_marksEscaped_end (marksEscaped_escapeChars chars)
    rw [(foldl_escapesNext _).2 h] at hend
    cases hend

end ImageImports.Json
