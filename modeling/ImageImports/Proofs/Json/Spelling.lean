import ImageImports.Json.Printer
import ImageImports.Proofs.Json.Nesting
import ImageImports.Proofs.Json.Quoted

/-!
# `ImageImports.Proofs.Json.Spelling`: texts of values are read back

The two ways to write a value differ only in where blanks stand. A `Layout` says where, and
`Json.spell` is the text of a value in a layout: `compact` and `pretty` are two of these.

The reader goes through such a text part by part, and each part is either read or found to be too
deep (`Cursor.Reads`). The parts of a list or an object come together in the same way
(`Cursor.Reads.bind`), so the whole is read exactly if it fits the depth.

Main statements: `Cursor.reads_value`, and `read_spell` and `parse_print` for whole texts.
-/

set_option autoImplicit false

namespace ImageImports.Json

open Cursor (isBlank)

/-! ### Layouts -/

/-- Where blanks stand in a text. The compact and the pretty form differ in nothing else, so one
proof serves both. -/
structure Layout where
  /-- What stands before an item of the given level, and before the end of its container. -/
  gap : Nat → List Char
  /-- What stands behind a colon. -/
  space : List Char
  /-- Only blanks stand before an item. -/
  gap_blank : ∀ level, ∀ ch ∈ gap level, isBlank ch = true
  /-- Only blanks stand behind a colon. -/
  space_blank : ∀ ch ∈ space, isBlank ch = true

namespace Layout

/-- No blanks at all. -/
def compact : Layout where
  gap _ := []
  space := []
  gap_blank := by simp
  space_blank := by simp

/-- The compact form has no blanks before an item. -/
@[simp]
theorem compact_gap (level : Nat) : compact.gap level = [] := rfl

/-- The compact form has no blanks behind a colon. -/
@[simp]
theorem compact_space : compact.space = [] := rfl

/-- Every item on a line of its own, indented by its level. -/
def pretty : Layout where
  gap level := '\n' :: List.replicate (2 * level) ' '
  space := [' ']
  gap_blank level ch h := by
    rcases List.mem_cons.1 h with rfl | h
    · rfl
    · rw [List.eq_of_mem_replicate h]
      rfl
  space_blank := by simp [isBlank]

/-- The pretty form has one blank behind a colon. -/
@[simp]
theorem pretty_space : pretty.space = [' '] := rfl

end Layout

mutual

/-- The text of a value inside a container of the given level, in any layout. The compact and the
pretty text are two of these, so what is shown of it holds for both. -/
def spell (lay : Layout) (level : Nat) : Json → List Char
  | .null => ['n', 'u', 'l', 'l']
  | .bool true => ['t', 'r', 'u', 'e']
  | .bool false => ['f', 'a', 'l', 's', 'e']
  | .number n => n.text.toList
  | .string s => quoteChars s.toList
  | .array [] => ['[', ']']
  | .array (x :: rest) =>
      '[' :: (lay.gap (level + 1) ++ (spell lay (level + 1) x
        ++ (spellItems lay (level + 1) rest ++ (lay.gap level ++ [']']))))
  | .object [] => ['\x7b', '\x7d']
  | .object ((k, x) :: rest) =>
      '\x7b' :: (lay.gap (level + 1) ++ (quoteChars k.toList ++ (':' :: (lay.space
        ++ (spell lay (level + 1) x
          ++ (spellMembers lay (level + 1) rest ++ (lay.gap level ++ ['\x7d'])))))))

/-- The items after the first one, each behind a comma. -/
def spellItems (lay : Layout) (level : Nat) : List Json → List Char
  | [] => []
  | x :: rest => ',' :: (lay.gap level ++ (spell lay level x ++ spellItems lay level rest))

/-- The members after the first one, each behind a comma. -/
def spellMembers (lay : Layout) (level : Nat) : List (String × Json) → List Char
  | [] => []
  | (k, x) :: rest =>
      ',' :: (lay.gap level ++ (quoteChars k.toList ++ (':' :: (lay.space
        ++ (spell lay level x ++ spellMembers lay level rest)))))

end

/-- The line break of the printer is the gap of the pretty layout. -/
theorem toList_newline (level : Nat) : (newline level).toList = Layout.pretty.gap level := by
  simp [newline, Layout.pretty]

mutual

/-- The printer of the pretty form spells values in the pretty layout. -/
theorem toList_prettyAt (level : Nat) : ∀ value : Json,
    (prettyAt level value).toList = spell .pretty level value
  | .null => by simp [prettyAt, spell]
  | .bool true => by simp [prettyAt, spell]
  | .bool false => by simp [prettyAt, spell]
  | .number n => by simp [prettyAt, spell]
  | .string s => by simp [prettyAt, spell, quote]
  | .array [] => by simp [prettyAt, spell]
  | .array (x :: rest) => by
      simp [prettyAt, spell, toList_newline, toList_prettyAt (level + 1) x,
        toList_prettyItems (level + 1) rest]
  | .object [] => by simp [prettyAt, spell]
  | .object ((k, x) :: rest) => by
      simp [prettyAt, spell, toList_newline, toList_prettyAt (level + 1) x,
        toList_prettyMembers (level + 1) rest, quote]

/-- The printer of the pretty form spells further items in the pretty layout. -/
theorem toList_prettyItems (level : Nat) : ∀ items : List Json,
    (prettyItems level items).toList = spellItems .pretty level items
  | [] => rfl
  | x :: rest => by
      simp [prettyItems, spellItems, toList_newline, toList_prettyAt level x,
        toList_prettyItems level rest]

/-- The printer of the pretty form spells further members in the pretty layout. -/
theorem toList_prettyMembers (level : Nat) : ∀ members : List (String × Json),
    (prettyMembers level members).toList = spellMembers .pretty level members
  | [] => rfl
  | (k, x) :: rest => by
      simp [prettyMembers, spellMembers, toList_newline, toList_prettyAt level x,
        toList_prettyMembers level rest, quote]

end

mutual

/-- The printer of the compact form spells values in the compact layout, whatever the level is said
to be. -/
theorem toList_compact (level : Nat) : ∀ value : Json,
    (compact value).toList = spell .compact level value
  | .null => rfl
  | .bool true => rfl
  | .bool false => rfl
  | .number n => rfl
  | .string s => by simp [compact, spell, quote]
  | .array [] => rfl
  | .array (x :: rest) => by
      have hitems := spellItems_compact (level + 1) (x :: rest) (by simp)
      simp only [spellItems, List.cons.injEq, true_and] at hitems
      simp [compact, spell, ← hitems]
  | .object [] => rfl
  | .object ((k, x) :: rest) => by
      have hmembers := spellMembers_compact (level + 1) ((k, x) :: rest) (by simp)
      simp only [spellMembers, List.cons.injEq, true_and] at hmembers
      simp [compact, spell, ← hmembers]

/-- In the compact form the items stand behind one another with commas between them. -/
theorem spellItems_compact (level : Nat) : ∀ items : List Json, items ≠ [] →
    spellItems .compact level items = ',' :: (compactItems items).toList
  | [], h => absurd rfl h
  | [x], _ => by simp [compactItems, spellItems, toList_compact level x]
  | x :: y :: rest, _ => by
      rw [spellItems, spellItems_compact level (y :: rest) (by simp), ← toList_compact level x]
      simp [compactItems]

/-- In the compact form the members stand behind one another with commas between them. -/
theorem spellMembers_compact (level : Nat) : ∀ members : List (String × Json), members ≠ [] →
    spellMembers .compact level members = ',' :: (compactMembers members).toList
  | [], h => absurd rfl h
  | [(k, x)], _ => by
      simp [compactMembers, spellMembers, quote, toList_compact level x]
  | (k, x) :: (l, y) :: rest, _ => by
      rw [spellMembers, spellMembers_compact level ((l, y) :: rest) (by simp),
        ← toList_compact level x]
      simp [compactMembers, quote]

end

namespace Cursor

/-! ### Steps of the reader -/

/-- A step of the reader on a text: where the text fits, it gives a result and leaves the rest, and
where it does not, it is found to be too deep. Both halves go through the same steps, so they are
proved together. -/
def Reads {α : Type} (fits : Prop) (step : Except ReadError (α × Cursor)) (result : α)
    (rest : List Char) : Prop :=
  (fits → ∃ behind, step = .ok (result, behind) ∧ behind.rest = rest)
    ∧ (¬ fits → ∃ place, step = .error (.fault .tooDeep place))

namespace Reads

variable {α β : Type} {fits inner : Prop} {step : Except ReadError (α × Cursor)} {result : α}
  {rest final : List Char}

/-- A step that gives a result reads a text without a condition. -/
theorem of_ok {behind : Cursor} (h : step = .ok (result, behind)) (hrest : behind.rest = rest) :
    Reads True step result rest :=
  ⟨fun _ => ⟨behind, h, hrest⟩, fun hno => absurd trivial hno⟩

/-- The condition under which a step reads a text may be put in other words. -/
theorem congr (h : Reads fits step result rest) (hiff : fits ↔ inner) :
    Reads inner step result rest := by
  rwa [← propext hiff]

/-- Two steps behind one another read a text where each of them does. -/
theorem bind (h : Reads fits step result rest) {f : α × Cursor → Except ReadError (β × Cursor)}
    {value : β} (hf : ∀ behind : Cursor, behind.rest = rest →
      Reads inner (f (result, behind)) value final) :
    Reads (fits ∧ inner) (step >>= f) value final := by
  by_cases hfits : fits
  · obtain ⟨behind, hstep, hbehind⟩ := h.1 hfits
    rw [hstep]
    exact (hf behind hbehind).congr (by simp [hfits])
  · obtain ⟨place, hstep⟩ := h.2 hfits
    exact ⟨fun hboth => absurd hboth.1 hfits, fun _ => ⟨place, by rw [hstep]; rfl⟩⟩

/-- What is read may be wrapped up. -/
theorem map (h : Reads fits step result rest) (f : α → β) :
    Reads fits (step >>= fun (a, c) => .ok (f a, c)) (f result) rest := by
  refine (h.bind (f := fun (a, c) => .ok (f a, c)) fun behind hbehind => ?_).congr
    (Iff.of_eq (and_true fits))
  exact of_ok rfl hbehind

end Reads

/-! ### Blanks and literals -/

/-- Skipping blanks leaves the text from its first other character on. -/
theorem skipBlanks_rest (c : Cursor) : c.skipBlanks.rest = c.rest.dropWhile isBlank := by
  have hfrom : ∀ (chars : List Char) (line column : Nat),
      (skipBlanksFrom chars line column).rest = chars.dropWhile isBlank := by
    intro chars
    induction chars with
    | nil => exact fun _ _ => rfl
    | cons ch rest ih =>
        intro line column
        rw [skipBlanksFrom, List.dropWhile_cons]
        split
        · split <;> exact ih _ _
        · rfl
  exact hfrom _ _ _

/-- Skipping blanks makes a text no longer. -/
theorem skipBlanks_length_le (c : Cursor) : c.skipBlanks.rest.length ≤ c.rest.length := by
  rw [skipBlanks_rest]
  exact (List.dropWhile_sublist _).length_le

/-- Blanks in front of a character that is none are skipped. -/
theorem skipBlanks_rest_eq {c : Cursor} {blanks rest : List Char} {ch : Char}
    (hblanks : ∀ ch ∈ blanks, isBlank ch = true) (hch : isBlank ch = false)
    (h : c.rest = blanks ++ ch :: rest) : c.skipBlanks.rest = ch :: rest := by
  rw [skipBlanks_rest, h, List.dropWhile_append_of_pos hblanks, List.dropWhile_cons, hch]
  rfl

/-- Where no blank stands, nothing is skipped. -/
theorem skipBlanks_rest_of_start {c : Cursor} {rest : List Char} {ch : Char}
    (hch : isBlank ch = false) (h : c.rest = ch :: rest) : c.skipBlanks.rest = ch :: rest :=
  skipBlanks_rest_eq (List.forall_mem_nil _) hch h

/-- An expected word is read where it stands. -/
theorem literal_eq (expected : List Char) {c : Cursor} {rest : List Char}
    (h : c.rest = expected ++ rest) :
    ∃ behind, c.literal expected = .ok behind ∧ behind.rest = rest := by
  induction expected generalizing c with
  | nil => exact ⟨c, rfl, h⟩
  | cons ch more ih =>
      obtain ⟨behind, hread, hbehind⟩ := ih (next_rest_eq h)
      exact ⟨behind, by rw [literal, head?_eq h]; simpa using hread, hbehind⟩

/-! ### Starts of values -/

/-- How a text of a value may start: not with a blank, and not with the end of a container. By its
first character a further item is told from the end. -/
structure Starts (ch : Char) : Prop where
  blank : isBlank ch = false
  bracket : ch ≠ ']'

/-- A number starts like a value. -/
theorem starts_of_digit {ch : Char} (h : ch = '-' ∨ isDigit ch = true) : Starts ch := by
  rcases h with rfl | h
  · exact ⟨rfl, by decide⟩
  · refine ⟨?_, ?_⟩
    · by_contra hblank
      simp only [isBlank, Bool.not_eq_false, Bool.or_eq_true, beq_iff_eq] at hblank
      rcases hblank with ((rfl | rfl) | rfl) | rfl <;> exact absurd h (by decide)
    · rintro rfl
      exact absurd h (by decide)

/-- The text of a number starts with a minus sign or a digit. -/
theorem exists_number_start {n : Number} (h : n.Valid) :
    ∃ ch more, n.text.toList = ch :: more ∧ (ch = '-' ∨ isDigit ch = true) := by
  obtain ⟨numeral, hchars, hwellFormed, -⟩ := Number.exists_numeral h
  obtain ⟨first, more, hwhole⟩ := List.exists_cons_of_ne_nil hwellFormed.whole_ne
  rw [← hchars, Numeral.chars, hwhole]
  cases numeral.negative with
  | true => exact ⟨_, _, rfl, .inl rfl⟩
  | false => exact ⟨_, _, rfl, .inr (hwellFormed.whole first (by simp [hwhole]))⟩

/-- The text of a value starts with a character that tells it from the end of a container. -/
theorem exists_start (lay : Layout) (level : Nat) {depth : Nat} {value : Json}
    (h : value.Fits depth) : ∃ ch more, spell lay level value = ch :: more ∧ Starts ch := by
  cases value with
  | number n =>
      obtain ⟨ch, more, htext, hch⟩ := exists_number_start (fits_number.1 h)
      exact ⟨ch, more, by rw [spell, htext], starts_of_digit hch⟩
  | bool b => cases b <;> exact ⟨_, _, by rw [spell], rfl, by decide⟩
  | array items => cases items <;> exact ⟨_, _, by rw [spell], rfl, by decide⟩
  | object members =>
      cases members with
      | nil => exact ⟨_, _, by rw [spell], rfl, by decide⟩
      | cons head rest =>
          obtain ⟨k, x⟩ := head
          exact ⟨_, _, by rw [spell], rfl, by decide⟩
  | string s => exact ⟨_, _, by rw [spell, quoteChars], rfl, by decide⟩
  | null => exact ⟨_, _, by rw [spell], rfl, by decide⟩

/-! ### Moving through containers -/

section
variable {c : Cursor} {blanks rest : List Char} {ch : Char}
  (hblanks : ∀ ch ∈ blanks, isBlank ch = true)
include hblanks

/-- The end of a list is found behind blanks. -/
theorem nextItem_end (first : Bool) (h : c.rest = blanks ++ ']' :: rest) :
    ∃ behind, c.nextItem first = .ok (false, behind) ∧ behind.rest = rest := by
  have hskip := skipBlanks_rest_eq hblanks rfl h
  refine ⟨c.skipBlanks.next, ?_, next_rest_eq hskip⟩
  simp [nextItem, head?_eq hskip]

/-- The first item of a list is found behind blanks. -/
theorem nextItem_first (hch : Starts ch) (h : c.rest = blanks ++ ch :: rest) :
    ∃ behind, c.nextItem true = .ok (true, behind) ∧ behind.rest = ch :: rest := by
  have hskip := skipBlanks_rest_eq hblanks hch.blank h
  refine ⟨c.skipBlanks, ?_, hskip⟩
  simp [nextItem, head?_eq hskip, hch.bracket]

/-- A further item of a list is found behind a comma and blanks. -/
theorem nextItem_more (hch : Starts ch) (h : c.rest = ',' :: (blanks ++ ch :: rest)) :
    ∃ behind, c.nextItem false = .ok (true, behind) ∧ behind.rest = ch :: rest := by
  have hcomma : c.skipBlanks.rest = ',' :: (blanks ++ ch :: rest) :=
    skipBlanks_rest_of_start rfl h
  have hskip := skipBlanks_rest_eq hblanks hch.blank (next_rest_eq hcomma)
  refine ⟨c.skipBlanks.next.skipBlanks, ?_, hskip⟩
  simp [nextItem, head?_eq hcomma, head?_eq hskip, hch.bracket]

/-- The end of an object is found behind blanks. -/
theorem nextKey_end (first : Bool) (h : c.rest = blanks ++ '}' :: rest) :
    ∃ behind, c.nextKey first = .ok (false, behind) ∧ behind.rest = rest := by
  have hskip := skipBlanks_rest_eq hblanks rfl h
  refine ⟨c.skipBlanks.next, ?_, next_rest_eq hskip⟩
  simp [nextKey, head?_eq hskip]

/-- The first key of an object is found behind blanks. -/
theorem nextKey_first (h : c.rest = blanks ++ '"' :: rest) :
    ∃ behind, c.nextKey true = .ok (true, behind) ∧ behind.rest = '"' :: rest := by
  have hskip := skipBlanks_rest_eq hblanks rfl h
  refine ⟨c.skipBlanks, ?_, hskip⟩
  simp [nextKey, head?_eq hskip]

/-- A further key of an object is found behind a comma and blanks. -/
theorem nextKey_more (h : c.rest = ',' :: (blanks ++ '"' :: rest)) :
    ∃ behind, c.nextKey false = .ok (true, behind) ∧ behind.rest = '"' :: rest := by
  have hcomma : c.skipBlanks.rest = ',' :: (blanks ++ '"' :: rest) :=
    skipBlanks_rest_of_start rfl h
  have hskip := skipBlanks_rest_eq hblanks rfl (next_rest_eq hcomma)
  refine ⟨c.skipBlanks.next.skipBlanks, ?_, hskip⟩
  simp [nextKey, head?_eq hcomma, head?_eq hskip]

omit hblanks in
/-- A character that no number has inside it ends every number in front of it. -/
theorem ends_cons (h : isDigit ch = false ∧ ch ≠ '.' ∧ ch ≠ 'e' ∧ ch ≠ 'E') (rest : List Char) :
    Numeral.Ends (ch :: rest) :=
  ⟨by simp [NoDigit, h.1], by simpa using h.2.1, by simpa using h.2.2.1, by simpa using h.2.2.2⟩

/-- What stands behind a part of a container cannot belong to a number in front of it. -/
theorem ends_of_blanks (hends : Numeral.Ends (ch :: rest)) :
    Numeral.Ends (blanks ++ ch :: rest) := by
  cases blanks with
  | nil => exact hends
  | cons blank more =>
      have hblank := hblanks blank List.mem_cons_self
      simp only [isBlank, Bool.or_eq_true, beq_iff_eq] at hblank
      rcases hblank with ((rfl | rfl) | rfl) | rfl <;> exact ends_cons (by decide) _

end

/-! ### Containers -/

section
variable (lay : Layout) (level limit : Nat)

/-- The reader reads the text of a value of the given level wherever it stands, given that what
stands behind it cannot belong to a number. -/
def ReadsText (item : ValueReader) (fits : Prop) (value : Json) : Prop :=
  ∀ (c : Cursor) (rest : List Char), Numeral.Ends rest →
    c.skipBlanks.rest = spell lay level value ++ rest → c.rest.length ≤ limit →
    Reads fits (item c) value.reread rest

variable {lay level limit} {item : ValueReader} {fits : Json → Prop}

/-- A value behind some blanks is read, and what comes next goes on behind it. -/
theorem ReadsText.bind {α : Type} {value : Json} {good inner : Prop}
    (h : ReadsText lay level limit item good value) {depth : Nat} (hvalue : value.Fits depth)
    {blanks tail final : List Char} (hblanks : ∀ ch ∈ blanks, isBlank ch = true)
    (htail : Numeral.Ends tail) {c : Cursor}
    (hc : c.rest = blanks ++ (spell lay level value ++ tail))
    (hlimit : c.rest.length ≤ limit)
    {f : Json × Cursor → Except ReadError (α × Cursor)} {result : α}
    (hf : ∀ behind : Cursor, behind.rest = tail → behind.rest.length ≤ limit →
      Reads inner (f (value.reread, behind)) result final) :
    Reads (good ∧ inner) (item c >>= f) result final := by
  obtain ⟨ch, more, hspell, hch⟩ := exists_start lay level hvalue
  have hskip : c.skipBlanks.rest = spell lay level value ++ tail := by
    rw [hspell, List.cons_append] at hc ⊢
    exact skipBlanks_rest_eq hblanks hch.blank hc
  refine (h c tail htail hskip hlimit).bind fun behind hbehind => hf behind hbehind ?_
  rw [hc] at hlimit
  rw [hbehind]
  simp only [List.length_append] at hlimit
  omega

/-- A colon is read where it stands. In both layouts it follows its key directly. -/
theorem colon_eq {c : Cursor} {rest : List Char} (h : c.rest = ':' :: rest) :
    ∃ behind, c.colon = .ok behind ∧ behind.rest = rest := by
  have hskip := skipBlanks_rest_of_start rfl h
  exact ⟨c.skipBlanks.next, by simp [colon, head?_eq hskip], next_rest_eq hskip⟩

/-- A key and its value are read, and what comes next goes on behind them. -/
theorem ReadsText.member {α : Type} {value : Json} {good inner : Prop}
    (h : ReadsText lay level limit item good value) {depth : Nat} (hvalue : value.Fits depth)
    (key : String) {tail final : List Char} (htail : Numeral.Ends tail) {c : Cursor}
    (hc : c.rest = quoteChars key.toList ++ ':' :: (lay.space ++ (spell lay level value ++ tail)))
    (hlimit : c.rest.length ≤ limit)
    {f : String → Json → Cursor → Except ReadError (α × Cursor)} {result : α}
    (hf : ∀ behind : Cursor, behind.rest = tail → behind.rest.length ≤ limit →
      Reads inner (f key value.reread behind) result final) :
    Reads (good ∧ inner)
      (c.next.string limit >>= fun (key, c) => c.colon >>= fun c => item c >>= fun (value, c) =>
        f key value c) result final := by
  obtain ⟨afterKey, hkey, hafterKey⟩ := string_quote key hc hlimit
  obtain ⟨afterColon, hcolon, hafterColon⟩ := colon_eq hafterKey
  have hshorter : afterColon.rest.length ≤ limit := by
    rw [hc] at hlimit
    rw [hafterColon]
    simp only [List.length_cons, List.length_append] at hlimit ⊢
    omega
  have hread := h.bind hvalue lay.space_blank htail hafterColon hshorter
    (f := fun (value, c) => f key value c) hf
  simpa [hkey, hcolon, Bind.bind, Except.bind] using hread

/-- What stands behind an item cannot belong to a number in front of it: a comma, blanks or a
bracket. -/
theorem ends_of_items (list : List Json) {close rest : List Char}
    (hclose : ∀ ch ∈ close, isBlank ch = true) :
    Numeral.Ends (spellItems lay level list ++ (close ++ ']' :: rest)) := by
  cases list with
  | nil => exact ends_of_blanks hclose (ends_cons (by decide) rest)
  | cons y list => exact ends_cons (by decide) _

/-- What stands behind a member cannot belong to a number in front of it: a comma, blanks or a
brace. -/
theorem ends_of_members (list : Members) {close rest : List Char}
    (hclose : ∀ ch ∈ close, isBlank ch = true) :
    Numeral.Ends (spellMembers lay level list ++ (close ++ '}' :: rest)) := by
  cases list with
  | nil => exact ends_of_blanks hclose (ends_cons (by decide) rest)
  | cons head list =>
      obtain ⟨k, x⟩ := head
      exact ends_cons (by decide) _

section
variable {close : List Char} (hclose : ∀ ch ∈ close, isBlank ch = true)
include hclose

/-- The items behind the first one are read one after the other. -/
theorem reads_moreItems {depth : Nat} (list : List Json) (hlist : ∀ x ∈ list, x.Fits depth)
    (hitem : ∀ x ∈ list, ReadsText lay level limit item (fits x) x) {seen : List Json}
    (hseen : seen ≠ []) {n : Nat} (hn : list.length < n) {c : Cursor} {rest : List Char}
    (hc : c.rest = spellItems lay level list ++ (close ++ ']' :: rest))
    (hlimit : c.rest.length ≤ limit) :
    Reads (∀ x ∈ list, fits x) (items item n seen c) (seen.reverse ++ list.map reread) rest := by
  have hfirst : seen.isEmpty = false := by simpa using hseen
  -- The induction is on the items that are left; those already seen grow by one with each of them,
  -- and the count of steps, which is greater than what is left, goes down by one.
  induction list generalizing seen n c with
  | nil =>
      obtain ⟨n, rfl⟩ := Nat.exists_eq_add_one_of_ne_zero (Nat.ne_of_gt hn)
      obtain ⟨behind, hnext, hbehind⟩ := nextItem_end hclose seen.isEmpty hc
      have hread : items item (n + 1) seen c = .ok (seen.reverse, behind) := by
        simp [items, hnext, Bind.bind, Except.bind]
      simpa using Reads.of_ok hread hbehind
  | cons x list ih =>
      obtain ⟨n, rfl⟩ := Nat.exists_eq_add_one_of_ne_zero (Nat.ne_of_gt (Nat.zero_lt_of_lt hn))
      obtain ⟨hx, hlist⟩ := List.forall_mem_cons.1 hlist
      obtain ⟨hitemX, hitem⟩ := List.forall_mem_cons.1 hitem
      obtain ⟨ch, more, hspell, hch⟩ := exists_start lay level hx
      rw [spellItems, List.cons_append, List.append_assoc, List.append_assoc] at hc
      -- Behind the comma and the blanks the reader sees how the item starts.
      have hstarts := hc
      rw [hspell, List.cons_append] at hstarts
      obtain ⟨start, hnext, hstart⟩ := nextItem_more (lay.gap_blank level) hch hstarts
      rw [← List.cons_append, ← hspell] at hstart
      have hstep : items item (n + 1) seen c
          = item start >>= fun (value, c) => items item n (value :: seen) c := by
        simp [items, hfirst, hnext, Bind.bind, Except.bind]
      have hshorter : start.rest.length ≤ limit := by
        rw [hc] at hlimit
        rw [hstart]
        simp only [List.length_cons, List.length_append] at hlimit ⊢
        omega
      rw [hstep]
      refine (hitemX.bind hx (List.forall_mem_nil _) (ends_of_items list hclose) hstart hshorter
        fun behind hbehind hafter => ?_).congr List.forall_mem_cons.symm
      simpa using ih hlist hitem (List.cons_ne_nil x.reread seen) (Nat.lt_of_succ_lt_succ hn)
        hbehind hafter rfl

/-- The members behind the first one are read one after the other. -/
theorem reads_moreMembers {depth : Nat} (list : Members) (hlist : ∀ m ∈ list, m.2.Fits depth)
    (hitem : ∀ m ∈ list, ReadsText lay level limit item (fits m.2) m.2) {seen : Members}
    (hseen : seen ≠ []) {n : Nat} (hn : list.length < n) {c : Cursor} {rest : List Char}
    (hc : c.rest = spellMembers lay level list ++ (close ++ '}' :: rest))
    (hlimit : c.rest.length ≤ limit) :
    Reads (∀ m ∈ list, fits m.2) (members limit item n seen c)
      (seen.reverse ++ list.mapValues reread) rest := by
  have hfirst : seen.isEmpty = false := by simpa using hseen
  -- As for items, with the key and its colon read before the value.
  induction list generalizing seen n c with
  | nil =>
      obtain ⟨n, rfl⟩ := Nat.exists_eq_add_one_of_ne_zero (Nat.ne_of_gt hn)
      obtain ⟨behind, hnext, hbehind⟩ := nextKey_end hclose seen.isEmpty hc
      have hread : members limit item (n + 1) seen c = .ok (seen.reverse, behind) := by
        simp [members, hnext, Bind.bind, Except.bind]
      simpa [Members.mapValues] using Reads.of_ok hread hbehind
  | cons head list ih =>
      obtain ⟨k, x⟩ := head
      obtain ⟨n, rfl⟩ := Nat.exists_eq_add_one_of_ne_zero (Nat.ne_of_gt (Nat.zero_lt_of_lt hn))
      obtain ⟨hx, hlist⟩ := List.forall_mem_cons.1 hlist
      obtain ⟨hitemX, hitem⟩ := List.forall_mem_cons.1 hitem
      simp only [spellMembers, List.cons_append, List.append_assoc] at hc
      obtain ⟨start, hnext, hstart⟩ := nextKey_more (lay.gap_blank level) (by
        rw [hc, quoteChars, List.cons_append])
      have hkey : start.rest = quoteChars k.toList ++ ':' :: (lay.space ++ (spell lay level x
          ++ (spellMembers lay level list ++ (close ++ '\x7d' :: rest)))) := by
        rw [hstart, quoteChars, List.cons_append]
      have hstep : members limit item (n + 1) seen c
          = start.next.string limit >>= fun (key, c) => c.colon >>= fun c =>
              item c >>= fun (value, c) => members limit item n ((key, value) :: seen) c := by
        simp [members, hfirst, hnext, Bind.bind, Except.bind]
      have hshorter : start.rest.length ≤ limit := by
        rw [hc] at hlimit
        rw [hkey]
        simp only [List.length_cons, List.length_append] at hlimit ⊢
        omega
      rw [hstep]
      have hmember := hitemX.member hx k (ends_of_members list hclose) hkey hshorter
        (f := fun key value c => members limit item n ((key, value) :: seen) c)
        fun behind hbehind hafter => ih hlist hitem (List.cons_ne_nil (k, x.reread) seen)
          (Nat.lt_of_succ_lt_succ hn) hbehind hafter rfl
      simpa [Members.mapValues] using hmember

end

/-- There are no more items than characters in their text, so the length of the text bounds the loop
over them. -/
theorem length_le_spellItems (lay : Layout) (level : Nat) (list : List Json) :
    list.length ≤ (spellItems lay level list).length := by
  induction list with
  | nil => exact Nat.zero_le _
  | cons x list ih =>
      simp only [spellItems, List.length_cons, List.length_append]
      omega

/-- There are no more members than characters in their text, so the length of the text bounds the
loop over them. -/
theorem length_le_spellMembers (lay : Layout) (level : Nat) (list : Members) :
    list.length ≤ (spellMembers lay level list).length := by
  induction list with
  | nil => exact Nat.zero_le _
  | cons head list ih =>
      obtain ⟨k, x⟩ := head
      simp only [spellMembers, List.length_cons, List.length_append]
      omega

/-- The items of an array are read behind its bracket. -/
theorem reads_items {depth : Nat} {list : List Json} (hlist : ∀ x ∈ list, x.Fits depth)
    (hitem : ∀ x ∈ list, ReadsText lay (level + 1) limit item (fits x) x) {c : Cursor}
    {rest : List Char} (hc : '[' :: c.rest = spell lay level (.array list) ++ rest)
    (hlimit : c.rest.length < limit) :
    Reads (∀ x ∈ list, fits x) (items item limit [] c) (list.map reread) rest := by
  obtain ⟨n, rfl⟩ := Nat.exists_eq_add_one_of_ne_zero (Nat.ne_of_gt (Nat.zero_lt_of_lt hlimit))
  -- The first item has no comma in front of it; the others are read after it.
  cases list with
  | nil =>
      rw [spell] at hc
      obtain ⟨behind, hnext, hbehind⟩ :=
        nextItem_end (List.forall_mem_nil _) true (List.cons.inj hc).2
      have hread : items item (n + 1) [] c = .ok ([], behind) := by
        simp [items, hnext, Bind.bind, Except.bind]
      simpa using Reads.of_ok hread hbehind
  | cons x list =>
      obtain ⟨hx, hlist⟩ := List.forall_mem_cons.1 hlist
      obtain ⟨hitemX, hitem⟩ := List.forall_mem_cons.1 hitem
      simp only [spell, List.cons_append, List.append_assoc, List.cons.injEq, true_and,
        List.nil_append] at hc
      obtain ⟨ch, more, hspell, hch⟩ := exists_start lay (level + 1) hx
      have hstarts := hc
      rw [hspell, List.cons_append] at hstarts
      obtain ⟨start, hnext, hstart⟩ := nextItem_first (lay.gap_blank (level + 1)) hch hstarts
      rw [← List.cons_append, ← hspell] at hstart
      -- Each item takes a character at least, so the steps last for all of them.
      have hlength := length_le_spellItems lay (level + 1) list
      rw [hc] at hlimit
      simp only [List.length_cons, List.length_append] at hlimit
      have hstep : items item (n + 1) [] c
          = item start >>= fun (value, c) => items item n [value] c := by
        simp [items, hnext, Bind.bind, Except.bind]
      rw [hstep]
      have hshorter : start.rest.length ≤ n + 1 := by
        rw [hstart]
        simp only [List.length_cons, List.length_append]
        omega
      have hread := hitemX.bind hx (List.forall_mem_nil _)
        (ends_of_items list (lay.gap_blank level)) hstart hshorter
        (f := fun (value, c) => items item n [value] c) fun behind hbehind hafter =>
          reads_moreItems (lay.gap_blank level) list hlist hitem (List.cons_ne_nil x.reread [])
            (by omega : list.length < n) hbehind hafter
      simpa using hread

/-- The members of an object are read behind its brace. -/
theorem reads_members {depth : Nat} {list : Members} (hlist : ∀ m ∈ list, m.2.Fits depth)
    (hitem : ∀ m ∈ list, ReadsText lay (level + 1) limit item (fits m.2) m.2) {c : Cursor}
    {rest : List Char} (hc : '\x7b' :: c.rest = spell lay level (.object list) ++ rest)
    (hlimit : c.rest.length < limit) :
    Reads (∀ m ∈ list, fits m.2) (members limit item limit [] c) (list.mapValues reread) rest := by
  obtain ⟨n, rfl⟩ := Nat.exists_eq_add_one_of_ne_zero (Nat.ne_of_gt (Nat.zero_lt_of_lt hlimit))
  cases list with
  | nil =>
      rw [spell] at hc
      obtain ⟨behind, hnext, hbehind⟩ :=
        nextKey_end (List.forall_mem_nil _) true (List.cons.inj hc).2
      have hread : members (n + 1) item (n + 1) [] c = .ok ([], behind) := by
        simp [members, hnext, Bind.bind, Except.bind]
      simpa [Members.mapValues] using Reads.of_ok hread hbehind
  | cons head list =>
      obtain ⟨k, x⟩ := head
      obtain ⟨hx, hlist⟩ := List.forall_mem_cons.1 hlist
      obtain ⟨hitemX, hitem⟩ := List.forall_mem_cons.1 hitem
      simp only [spell, List.cons_append, List.append_assoc, List.cons.injEq, true_and,
        List.nil_append] at hc
      obtain ⟨start, hnext, hstart⟩ := nextKey_first (lay.gap_blank (level + 1)) (by
        rw [hc, quoteChars, List.cons_append])
      have hkey : start.rest = quoteChars k.toList ++ ':' :: (lay.space
          ++ (spell lay (level + 1) x ++ (spellMembers lay (level + 1) list
            ++ (lay.gap level ++ '\x7d' :: rest)))) := by
        rw [hstart, quoteChars, List.cons_append]
      -- Each member takes a character at least, so the steps suffice for all that follow.
      have hlength := length_le_spellMembers lay (level + 1) list
      rw [hc] at hlimit
      simp only [List.length_cons, List.length_append] at hlimit
      have hstep : members (n + 1) item (n + 1) [] c
          = start.next.string (n + 1) >>= fun (key, c) => c.colon >>= fun c =>
              item c >>= fun (value, c) => members (n + 1) item n [(key, value)] c := by
        simp [members, hnext, Bind.bind, Except.bind]
      rw [hstep]
      have hshorter : start.rest.length ≤ n + 1 := by
        rw [hkey]
        simp only [List.length_cons, List.length_append]
        omega
      have hread := hitemX.member hx k (ends_of_members list (lay.gap_blank level)) hkey hshorter
        (f := fun key value c => members (n + 1) item n [(key, value)] c)
        fun behind hbehind hafter =>
          reads_moreMembers (lay.gap_blank level) list hlist hitem
            (List.cons_ne_nil (k, x.reread) []) (by omega : list.length < n) hbehind hafter
      simpa [Members.mapValues] using hread

end

/-! ### Values -/

/-- A value that does not start with a bracket or a brace is read as one that is no container. -/
theorem value_of_leaf (limit depth : Nat) {c : Cursor} {ch : Char} {rest : List Char}
    (h : c.skipBlanks.rest = ch :: rest) (hbracket : ch ≠ '[') (hbrace : ch ≠ '\x7b') :
    value limit depth c = leaf limit ch c.skipBlanks := by
  cases depth <;> simp [value, head?_eq h, hbracket, hbrace]

/-- Null and the truth values are read by the words that stand for them. -/
theorem reads_word (limit depth : Nat) {c : Cursor} {first : Char} {more rest : List Char}
    {word : Json} (h : c.skipBlanks.rest = first :: (more ++ rest)) (hbracket : first ≠ '[')
    (hbrace : first ≠ '\x7b')
    (hleaf : ∀ c : Cursor, leaf limit first c
      = (c.next.literal more >>= fun c => .ok (word, c))) :
    Reads True (value limit depth c) word rest := by
  obtain ⟨behind, hread, hbehind⟩ := literal_eq more (next_rest_eq h)
  refine Reads.of_ok ?_ hbehind
  rw [value_of_leaf limit depth h hbracket hbrace, hleaf, hread]
  rfl

/-- A number is read where its text stands. -/
theorem reads_number (limit depth : Nat) {n : Number} (hn : n.Valid) {c : Cursor}
    {rest : List Char} (hrest : Numeral.Ends rest) (h : c.skipBlanks.rest = n.text.toList ++ rest) :
    Reads True (value limit depth c) (.number n.reread) rest := by
  obtain ⟨first, more, htext, hfirst⟩ := exists_number_start hn
  obtain ⟨behind, hread, hbehind⟩ := Number.number_text hn hrest h
  have hstart : c.skipBlanks.rest = first :: (more ++ rest) := by
    rw [h, htext, List.cons_append]
  -- No other kind of value starts with a minus sign or a digit.
  have hother : ∀ ch, ch ≠ '-' → isDigit ch = false → first ≠ ch := by
    rintro ch hminus hdigit rfl
    rcases hfirst with hfirst | hfirst
    · exact hminus hfirst
    · rw [hdigit] at hfirst
      cases hfirst
  refine Reads.of_ok ?_ hbehind
  rw [value_of_leaf limit depth hstart (hother _ (by decide) (by decide))
    (hother _ (by decide) (by decide)), leaf, if_neg (hother _ (by decide) (by decide)),
    if_neg (hother _ (by decide) (by decide)), if_neg (hother _ (by decide) (by decide)),
    if_neg (hother _ (by decide) (by decide)), if_pos hfirst, hread]
  rfl

/-- The text of a value that is no container is read at any depth. -/
theorem reads_leaf (lay : Layout) (level limit depth : Nat) {v : Json} (hv : v.Fits 0) :
    ReadsText lay level limit (value limit depth) True v := by
  intro c rest hrest hc hlimit
  cases v with
  | null =>
      exact reads_word limit depth (by rw [hc, spell]; rfl) (by decide) (by decide) fun _ => rfl
  | bool b =>
      cases b with
      | true =>
          exact reads_word limit depth (by rw [hc, spell]; rfl) (by decide) (by decide) fun _ => rfl
      | false =>
          exact reads_word limit depth (by rw [hc, spell]; rfl) (by decide) (by decide) fun _ => rfl
  | number n => exact reads_number limit depth (fits_number.1 hv) hrest (by rw [hc, spell])
  | string s =>
      -- Behind its opening quote a string is read by its own function, whatever comes after it.
      have hstart : c.skipBlanks.rest = '"' :: (escapeChars s.toList ++ ['"'] ++ rest) := by
        rw [hc, spell, quoteChars, List.cons_append]
      have hshorter := (skipBlanks_length_le c).trans hlimit
      obtain ⟨behind, hread, hbehind⟩ := string_quote s (by rw [hc, spell]) hshorter
      refine Reads.of_ok ?_ hbehind
      rw [value_of_leaf limit depth hstart (by decide) (by decide)]
      simp [leaf, hread, reread, Bind.bind, Except.bind]
  | array items => exact absurd hv id
  | object members => exact absurd hv id

/-- The text of a list starts with a bracket. -/
theorem exists_spell_array (lay : Layout) (level : Nat) (list : List Json) :
    ∃ more, spell lay level (.array list) = '[' :: more := by
  cases list <;> exact ⟨_, by rw [spell]⟩

/-- The text of an object starts with a brace. -/
theorem exists_spell_object (lay : Layout) (level : Nat) (list : Members) :
    ∃ more, spell lay level (.object list) = '\x7b' :: more := by
  cases list with
  | nil => exact ⟨_, by rw [spell]⟩
  | cons head rest =>
      obtain ⟨key, value⟩ := head
      exact ⟨_, by rw [spell]⟩

/-- An array is read one level deeper than its items. -/
theorem reads_array {lay : Layout} {limit depth level deep : Nat} {list : List Json}
    (hlist : ∀ x ∈ list, x.Fits deep)
    (hitem : ∀ x ∈ list,
      ReadsText lay (level + 1) limit (value limit depth) (x.Fits depth) x) :
    ReadsText lay level limit (value limit (depth + 1)) ((Json.array list).Fits (depth + 1))
      (.array list) := by
  intro c rest _ hc hlimit
  obtain ⟨more, hspell⟩ := exists_spell_array lay level list
  have hstart := hc
  rw [hspell, List.cons_append] at hstart
  have hshorter := (skipBlanks_length_le c).trans hlimit
  rw [hstart, List.length_cons, ← next_rest_eq hstart] at hshorter
  have hread := reads_items hlist hitem (by rw [next_rest_eq hstart, ← hstart, hc]) hshorter
  have hstep : value limit (depth + 1) c
      = items (value limit depth) limit [] c.skipBlanks.next >>= fun found =>
          .ok (.array found.1, found.2) := by
    simp [value, head?_eq hstart]
  rw [hstep, reread, rereadItems_eq_map]
  exact (hread.map Json.array).congr fits_array_succ.symm

/-- An object is read one level deeper than its members. -/
theorem reads_object {lay : Layout} {limit depth level deep : Nat} {list : Members}
    (hlist : ∀ m ∈ list, m.2.Fits deep)
    (hitem : ∀ m ∈ list,
      ReadsText lay (level + 1) limit (value limit depth) (m.2.Fits depth) m.2) :
    ReadsText lay level limit (value limit (depth + 1)) ((Json.object list).Fits (depth + 1))
      (.object list) := by
  intro c rest _ hc hlimit
  obtain ⟨more, hspell⟩ := exists_spell_object lay level list
  have hstart := hc
  rw [hspell, List.cons_append] at hstart
  have hshorter := (skipBlanks_length_le c).trans hlimit
  rw [hstart, List.length_cons, ← next_rest_eq hstart] at hshorter
  have hread := reads_members hlist hitem (by rw [next_rest_eq hstart, ← hstart, hc]) hshorter
  have hstep : value limit (depth + 1) c
      = members limit (value limit depth) limit [] c.skipBlanks.next >>= fun found =>
          .ok (.object found.1, found.2) := by
    simp [value, head?_eq hstart]
  rw [hstep, reread, rereadMembers_eq_mapValues]
  exact (hread.map Json.object).congr fits_object_succ.symm

/-- Without any depth left a container is found to be too deep where it starts. -/
theorem reads_container_zero {limit : Nat} {c : Cursor} {start : Char} {more : List Char}
    (h : c.skipBlanks.rest = start :: more) (hstart : start = '[' ∨ start = '\x7b') {v : Json}
    {rest : List Char} : Reads False (value limit 0 c) v rest := by
  refine ⟨False.elim, fun _ => ⟨c.skipBlanks.peeked, ?_⟩⟩
  rcases hstart with rfl | rfl <;> simp [value, head?_eq h, failPeeked]

/-- The text of a value is read as far as the value fits the depth. The induction is on the depth of
the reader, and the cases are those of the value. -/
theorem reads_value (lay : Layout) (limit depth level : Nat) {deep : Nat} {v : Json}
    (hv : v.Fits deep) : ReadsText lay level limit (value limit depth) (v.Fits depth) v := by
  have hleaf : v.Fits 0 →
      ReadsText lay level limit (value limit depth) (v.Fits depth) v := fun hzero c rest hrest hc
      hlimit => (reads_leaf lay level limit depth hzero c rest hrest hc hlimit).congr
        (iff_of_true trivial (hzero.mono (Nat.zero_le _)))
  -- The recursion follows the value: the depth that is left goes down with each container, and a
  -- container is too deep where none is left.
  cases v with
  | array list =>
      obtain ⟨inner, -, hlist⟩ := fits_array.1 hv
      cases depth with
      | zero =>
          intro c rest _ hc _
          obtain ⟨more, hspell⟩ := exists_spell_array lay level list
          rw [hspell, List.cons_append] at hc
          exact reads_container_zero hc (.inl rfl)
      | succ depth =>
          exact reads_array hlist fun x hx => reads_value lay limit depth (level + 1) (hlist x hx)
  | object list =>
      obtain ⟨inner, -, hlist⟩ := fits_object.1 hv
      cases depth with
      | zero =>
          intro c rest _ hc _
          obtain ⟨more, hspell⟩ := exists_spell_object lay level list
          rw [hspell, List.cons_append] at hc
          exact reads_container_zero hc (.inr rfl)
      | succ depth =>
          exact reads_object hlist fun m hm => reads_value lay limit depth (level + 1) (hlist m hm)
  | number n => exact hleaf (fits_number.2 (fits_number.1 hv))
  | _ => exact hleaf (by simp)
termination_by depth

/-- Nothing is left behind the value. -/
theorem finish_nil {c : Cursor} (h : c.rest = []) : c.finish = .ok () := by
  have hskip : c.skipBlanks.rest = [] := by
    rw [skipBlanks_rest, h]
    rfl
  simp [finish, hskip]

end Cursor

/-! ### Texts -/

/-- The text of a value, compact or pretty, spells the value in one of the layouts. -/
theorem exists_layout (isPretty : Bool) (v : Json) :
    ∃ lay, (if isPretty then v.pretty else v.compact).toList = spell lay 0 v := by
  cases isPretty with
  | true => exact ⟨.pretty, toList_prettyAt 0 v⟩
  | false => exact ⟨.compact, toList_compact 0 v⟩

/-- Within any depth that it fits, a value is read from its text, in whatever layout. -/
theorem reads_text (lay : Layout) {deep : Nat} {v : Json} (hv : v.Fits deep) {text : String}
    (htext : text.toList = spell lay 0 v) (depth : Nat) :
    Cursor.Reads (v.Fits depth) (Cursor.value (loopLimit text) depth (Cursor.ofString text))
      v.reread [] := by
  have hends : Numeral.Ends [] := ⟨by simp [NoDigit], by simp, by simp, by simp⟩
  obtain ⟨ch, more, hspell, hch⟩ := Cursor.exists_start lay 0 hv
  have hstart : (Cursor.ofString text).skipBlanks.rest = spell lay 0 v ++ [] := by
    rw [List.append_nil, hspell]
    exact Cursor.skipBlanks_rest_of_start hch.blank (by rw [← hspell, ← htext]; rfl)
  exact Cursor.reads_value lay (loopLimit text) depth 0 hv (Cursor.ofString text) [] hends hstart
    (Nat.le_succ _)

/-- A value is read from its text, in whatever layout, exactly if it is not too deep. Depth is the
only reason to refuse a text that was written. -/
theorem read_spell (lay : Layout) {deep : Nat} {v : Json} (hv : v.Fits deep) {text : String}
    (htext : text.toList = spell lay 0 v) :
    (v.Fits maxDepth → read text = .ok v.reread)
      ∧ (¬ v.Fits maxDepth → ∃ place, read text = .error (.fault .tooDeep place)) := by
  obtain ⟨hread, hdeep⟩ := reads_text lay hv htext maxDepth
  constructor
  · intro hfits
    obtain ⟨behind, hvalue, hbehind⟩ := hread hfits
    simp [read, hvalue, Cursor.finish_nil hbehind, bind, Except.bind]
  · intro hfits
    obtain ⟨place, hvalue⟩ := hdeep hfits
    exact ⟨place, by simp [read, hvalue, bind, Except.bind]⟩

/-- The text of a value, compact or pretty, is parsed as the normal form of the value but for its
floating point numbers, unless the value is too deep. -/
theorem parse_print (isPretty : Bool) {deep : Nat} {v : Json} (hv : v.Fits deep) :
    (v.Fits maxDepth →
        parse (if isPretty then v.pretty else v.compact) = .ok v.normalize.reread)
      ∧ (¬ v.Fits maxDepth →
        ∃ place, parse (if isPretty then v.pretty else v.compact)
          = .error (.fault .tooDeep place)) := by
  obtain ⟨lay, hlay⟩ := exists_layout isPretty v
  obtain ⟨hread, hdeep⟩ := read_spell lay hv hlay
  constructor
  · intro hfits
    simp [parse, hread hfits, bind, Except.bind, pure, Except.pure, normalize_reread]
  · intro hfits
    obtain ⟨place, herror⟩ := hdeep hfits
    exact ⟨place, by simp [parse, herror, bind, Except.bind]⟩

end ImageImports.Json
