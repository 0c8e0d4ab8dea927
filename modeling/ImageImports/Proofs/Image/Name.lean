import Mathlib.Data.Nat.Log
import ImageImports.Image.Import

/-!
# `ImageImports.Proofs.Image.Name`: what the text of a name says

A generated name starts with two underscores, the index in decimal digits and another underscore.
The digits end at that underscore, whatever digits and underscores the address brings, so the index
can be read back (`nameIndex_importName`) and names with different indexes differ.

Behind that stands the address without a leading `./`, unit by unit of its UTF-16 form
(`flatMap_wordChars_eq_map`): a word character stands for itself, and every other unit, the two
halves of a pair included, for an underscore.

Main statement: `importName_spelling`.
-/

set_option autoImplicit false

namespace ImageImports

/-- The number that the digits behind the first two characters of a name spell. A name goes on with
an underscore behind them, so the digits of the address are never taken along. -/
def nameIndex (name : String) : Nat :=
  Nat.ofDigitChars 10 ((name.toList.drop 2).takeWhile Char.isDigit) 0

/-- The characters of a name. -/
theorem toList_importName (index : Nat) (url : String) :
    (importName index url).toList
      = '_' :: '_' :: (Nat.toDigits 10 index
          ++ '_' :: ((withoutDotSlash url.toList).flatMap wordChars ++ ['_', '_'])) := by
  unfold importName
  simp [String.toList_append]

/-- Digits are taken up to the first character that is none. -/
theorem takeWhile_isDigit_toDigits (n : Nat) (rest : List Char) :
    (Nat.toDigits 10 n ++ '_' :: rest).takeWhile Char.isDigit = Nat.toDigits 10 n := by
  rw [List.takeWhile_append_of_pos fun c hc =>
    Nat.isDigit_of_mem_toDigits (by decide) (by decide) hc]
  simp

/-- The index of a name can be read back from its text. The digits behind the first two underscores
are followed by another underscore, so they end where the index ends. -/
theorem nameIndex_importName (index : Nat) (url : String) :
    nameIndex (importName index url) = index := by
  unfold nameIndex
  rw [toList_importName]
  show Nat.ofDigitChars 10 (List.takeWhile Char.isDigit (_ ++ '_' :: _)) 0 = index
  rw [takeWhile_isDigit_toDigits, Nat.ofDigitChars_ten_toDigits]

/-! ### The characters of a name -/

/-- The word characters are the decimal digits, the letters from `A` to `Z` and from `a` to `z`, and
the underscore. -/
theorem isWordChar_iff {c : Char} :
    isWordChar c = true
      ↔ ('0' ≤ c ∧ c ≤ '9') ∨ ('A' ≤ c ∧ c ≤ 'Z') ∨ ('a' ≤ c ∧ c ≤ 'z') ∨ c = '_' := by
  simp only [isWordChar, Bool.or_eq_true, Bool.and_eq_true, decide_eq_true_eq, beq_iff_eq, or_assoc]

/-- A digit may stand in a name. -/
theorem isWordChar_of_isDigit {c : Char} (h : c.isDigit = true) : isWordChar c = true := by
  have hrange : ('0' ≤ c && c ≤ '9') = true := h
  rw [isWordChar, hrange, Bool.true_or, Bool.true_or, Bool.true_or]

/-- What a character is replaced by consists of word characters, whatever the character is. -/
theorem isWordChar_of_mem_wordChars {c ch : Char} (h : c ∈ wordChars ch) : isWordChar c = true := by
  unfold wordChars at h
  split at h
  · rename_i hword
    rwa [List.mem_singleton.1 h]
  · rw [List.eq_of_mem_replicate h]
    rfl

/-- A name is made of digits, letters and underscores, whatever the address is, so it can be bound
in a program. -/
theorem isWordChar_of_mem_importName {index : Nat} {url : String} {c : Char}
    (h : c ∈ (importName index url).toList) : isWordChar c = true := by
  rw [toList_importName] at h
  simp only [List.mem_cons, List.mem_append, List.mem_flatMap, List.not_mem_nil, or_false] at h
  rcases h with rfl | rfl | hdigit | rfl | ⟨ch, -, hword⟩ | rfl | rfl
  · rfl
  · rfl
  · exact isWordChar_of_isDigit (Nat.isDigit_of_mem_toDigits (by decide) (by decide) hdigit)
  · rfl
  · exact isWordChar_of_mem_wordChars hword
  · rfl
  · rfl

/-- All word characters lie below the first character that takes more than one byte. -/
theorem toNat_lt_of_isWordChar {c : Char} (h : isWordChar c = true) : c.toNat < 128 := by
  have hle {last : Char} (hc : c ≤ last) (hlast : last.toNat < 128) : c.toNat < 128 :=
    Nat.lt_of_le_of_lt hc hlast
  rcases isWordChar_iff.1 h with ⟨-, h⟩ | ⟨-, h⟩ | ⟨-, h⟩ | rfl
  · exact hle h (by decide)
  · exact hle h (by decide)
  · exact hle h (by decide)
  · decide

/-! ### UTF-16 units -/

/-- The UTF-16 units of a character: its number, or a pair of surrogates for one that does not fit
into a unit. -/
def utf16Units (c : Char) : List Nat :=
  if c.toNat < 0x10000 then [c.toNat]
  else [0xD800 + (c.toNat - 0x10000) / 0x400, 0xDC00 + (c.toNat - 0x10000) % 0x400]

/-- The UTF-16 form of a text. `identifier_name` puts one underscore for each of its units, so this
is the form in which a name keeps the length of its address. -/
def utf16 (chars : List Char) : List Nat := chars.flatMap utf16Units

/-- The character that stands for a unit in a name: the word character with its number, or an
underscore if there is none. -/
def unitChar (unit : Nat) : Char := if isWordChar (.ofNat unit) then .ofNat unit else '_'

/-- A word character is a code unit of its own, and as such it is kept. -/
theorem unitChar_toNat {c : Char} (h : isWordChar c = true) : unitChar c.toNat = c := by
  rw [unitChar, Char.ofNat_toNat, if_pos h]

/-- A code unit that is no word character becomes an underscore, also when it is one half of a
pair. -/
theorem unitChar_eq_underscore {unit : Nat} (h : ∀ c, isWordChar c = true → unit ≠ c.toNat) :
    unitChar unit = '_' := by
  unfold unitChar
  split
  · rename_i hword
    by_cases hvalid : unit.isValidChar
    · rw [Char.ofNat, dif_pos hvalid] at hword
      exact absurd rfl (h _ hword)
    · -- A number that no character has stands for the one with the number zero.
      rw [Char.ofNat, dif_neg hvalid] at hword
      exact absurd hword (by decide)
  · rfl

/-- A character stands in a name as its units do, one after the other. -/
theorem wordChars_eq_map (c : Char) : wordChars c = (utf16Units c).map unitChar := by
  unfold wordChars utf16Units utf16Length
  by_cases hword : isWordChar c = true
  · have hsmall : c.toNat < 0x10000 := by
      have hbyte := toNat_lt_of_isWordChar hword
      omega
    rw [if_pos hword, if_pos hsmall, List.map_singleton, unitChar_toNat hword]
  · rw [if_neg hword]
    split
    · have hunit : unitChar c.toNat = '_' := by rw [unitChar, Char.ofNat_toNat, if_neg hword]
      rw [List.map_singleton, hunit]
      rfl
    · -- Surrogates lie above all word characters.
      have hunit {unit : Nat} (hlarge : 0xD800 ≤ unit) : unitChar unit = '_' :=
        unitChar_eq_underscore fun c hc => by
          have hbyte := toNat_lt_of_isWordChar hc
          omega
      rw [List.map_cons, List.map_singleton, hunit (by omega), hunit (by omega)]
      rfl

/-- The address in a name is spelled unit by unit. This is the form in which its places can be
counted. -/
theorem flatMap_wordChars_eq_map (chars : List Char) :
    chars.flatMap wordChars = (utf16 chars).map unitChar := by
  rw [utf16, List.map_flatMap]
  exact congrArg chars.flatMap (funext wordChars_eq_map)

/-- The units of a word character stand where those of the characters before it end. -/
theorem utf16_append_cons {c : Char} (h : isWordChar c = true) (before after : List Char) :
    utf16 (before ++ c :: after) = utf16 before ++ c.toNat :: utf16 after := by
  have hsmall : c.toNat < 0x10000 := by
    have hbyte := toNat_lt_of_isWordChar h
    omega
  rw [utf16, List.flatMap_append, List.flatMap_cons, utf16Units, if_pos hsmall,
    List.singleton_append]
  rfl

/-! ### The spelling of a name -/

/-- The number of decimal digits of a number. -/
theorem length_toDigits (n : Nat) : (Nat.toDigits 10 n).length = Nat.log 10 n + 1 := by
  rcases Nat.eq_zero_or_pos n with rfl | hn
  · rw [Nat.toDigits_zero, Nat.log_zero_right]
    rfl
  · have hle (k : Nat) : (Nat.toDigits 10 n).length ≤ k + 1 ↔ Nat.log 10 n < k + 1 := by
      rw [Nat.length_toDigits_le_iff (by decide) (Nat.succ_pos k),
        Nat.log_lt_iff_lt_pow (by decide) (Nat.ne_of_gt hn)]
    have hpos : 0 < (Nat.toDigits 10 n).length := Nat.length_toDigits_pos
    have hupper := (hle (Nat.log 10 n)).2 (Nat.lt_succ_self _)
    have hlower := (hle ((Nat.toDigits 10 n).length - 1)).1 (by omega)
    omega

/-- An address without the `./` at its start, if there is one; a second one stays. -/
theorem withoutDotSlash_eq (chars : List Char) :
    withoutDotSlash chars = if ['.', '/'] <+: chars then chars.drop 2 else chars := by
  unfold withoutDotSlash
  split
  · rename_i rest
    have hprefix : ['.', '/'] <+: '.' :: '/' :: rest := List.prefix_append ['.', '/'] rest
    rw [if_pos hprefix]
    rfl
  · rename_i hother
    rw [if_neg]
    rintro ⟨rest, rfl⟩
    exact hother rest rfl

/-- A name is the index between underscores, the address unit by unit, and two underscores. -/
theorem toList_importName_utf16 (index : Nat) (url : String) :
    (importName index url).toList
      = ('_' :: '_' :: (Nat.toDigits 10 index ++ ['_']))
        ++ ((utf16 (withoutDotSlash url.toList)).map unitChar ++ ['_', '_']) := by
  rw [toList_importName, flatMap_wordChars_eq_map]
  simp

/-- The units of the address stand in a name in their order, from behind the index on. -/
theorem getElem?_importName {index : Nat} {url : String} {offset unit : Nat}
    (h : (utf16 (withoutDotSlash url.toList))[offset]? = some unit) :
    (importName index url).toList[3 + (Nat.log 10 index + 1) + offset]? = some (unitChar unit) := by
  have hlength : ('_' :: '_' :: (Nat.toDigits 10 index ++ ['_'])).length
      = 3 + (Nat.log 10 index + 1) := by
    simp only [List.length_cons, List.length_append, length_toDigits, List.length_nil]
    omega
  have hoffset := (List.getElem?_eq_some_iff.1 h).1
  rw [toList_importName_utf16, ← hlength, List.getElem?_append_right (Nat.le_add_right _ _),
    Nat.add_sub_cancel_left, List.getElem?_append_left (by simpa using hoffset),
    List.getElem?_map, h]
  rfl

/-- A name is made of digits, letters and underscores, with two underscores at either end. Between
these and the index stands the address without a leading `./`, as long as its UTF-16 form: a digit,
a letter or an underscore stands where its unit does, and an underscore where any other unit does.
Names with different indexes differ, whatever their addresses are. -/
theorem importName_spelling (index : Nat) (url : String) :
    let name := (importName index url).toList
    let stripped := if ['.', '/'] <+: url.toList then url.toList.drop 2 else url.toList
    let digits := Nat.log 10 index + 1
    let word (c : Char) : Prop :=
      ('0' ≤ c ∧ c ≤ '9') ∨ ('A' ≤ c ∧ c ≤ 'Z') ∨ ('a' ≤ c ∧ c ≤ 'z') ∨ c = '_'
    (∀ c ∈ name, word c)
      ∧ ['_', '_'] <+: name ∧ ['_', '_'] <:+ name
      ∧ (importName index url).length = 5 + digits + (utf16 stripped).length
      ∧ (∀ before c after, stripped = before ++ c :: after → word c →
          name[3 + digits + (utf16 before).length]? = some c)
      ∧ (∀ offset unit, (utf16 stripped)[offset]? = some unit →
          (∀ c, word c → unit ≠ c.toNat) → name[3 + digits + offset]? = some '_')
      ∧ ∀ other otherUrl, importName index url = importName other otherUrl → index = other := by
  intro name stripped digits word
  have hstripped : withoutDotSlash url.toList = stripped := withoutDotSlash_eq url.toList
  -- Unit by unit the sanitised address is as long as the address itself, so every place in the name
  -- can be counted from the front.
  have hname : name = ('_' :: '_' :: (Nat.toDigits 10 index ++ ['_']))
      ++ ((utf16 stripped).map unitChar ++ ['_', '_']) := by
    rw [← hstripped]
    exact toList_importName_utf16 index url
  refine ⟨fun c hc => isWordChar_iff.1 (isWordChar_of_mem_importName hc), ?_, ?_, ?_, ?_, ?_, ?_⟩
  · rw [hname]
    exact List.prefix_append ['_', '_'] _
  · rw [hname, ← List.append_assoc]
    exact List.suffix_append _ _
  · rw [← String.length_toList]
    show name.length = _
    rw [hname]
    simp only [List.length_cons, List.length_append, List.length_map, length_toDigits,
      List.length_nil]
    omega
  · intro before c after hsplit hc
    have hword : isWordChar c = true := isWordChar_iff.2 hc
    have hunit : (utf16 (withoutDotSlash url.toList))[(utf16 before).length]? = some c.toNat := by
      rw [hstripped, hsplit, utf16_append_cons hword]
      simp
    rw [← unitChar_toNat hword]
    exact getElem?_importName hunit
  · intro offset unit hunit hother
    rw [← unitChar_eq_underscore fun c hword => hother c (isWordChar_iff.1 hword)]
    exact getElem?_importName (hstripped ▸ hunit)
  -- The index is read back from the digits behind the first two underscores.
  · intro other otherUrl hsame
    rw [← nameIndex_importName index url, hsame, nameIndex_importName]

/-- A character that takes two units is spelled with two underscores, and what follows it stands two
places on. -/
theorem importName_spelling_pair :
    (importName 12 "./1😀.png").length = 14
      ∧ (importName 12 "./1😀.png").toList[6]? = some '_'
      ∧ (importName 12 "./1😀.png").toList[7]? = some '_'
      ∧ (importName 12 "./1😀.png").toList[9]? = some 'p'
      ∧ importName 12 "./1😀.png" = importName 12 "./1__.png" := by
  obtain ⟨-, -, -, hlength, hword, hother, -⟩ := importName_spelling 12 "./1😀.png"
  have hdigits : Nat.log 10 12 = 1 := by decide +kernel
  rw [hdigits] at hlength hword hother
  have hsurrogate {unit : Nat} (hlarge : 128 ≤ unit) (c : Char)
      (hc : ('0' ≤ c ∧ c ≤ '9') ∨ ('A' ≤ c ∧ c ≤ 'Z') ∨ ('a' ≤ c ∧ c ≤ 'z') ∨ c = '_') :
      unit ≠ c.toNat := by
    have hbyte := toNat_lt_of_isWordChar (isWordChar_iff.2 hc)
    omega
  refine ⟨hlength.trans (by decide +kernel), hother 1 0xD83D (by decide +kernel)
    (hsurrogate (by decide)), hother 2 0xDE00 (by decide +kernel) (hsurrogate (by decide)),
    hword ['1', '😀', '.'] 'p' ['n', 'g'] (by decide +kernel) (by decide), by decide +kernel⟩

end ImageImports
