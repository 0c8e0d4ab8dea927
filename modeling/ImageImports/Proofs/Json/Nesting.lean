import ImageImports.Proofs.Json.Canonical
import ImageImports.Proofs.Json.Numeral

/-!
# `ImageImports.Proofs.Json.Nesting`: how deep a value is

A value fits a depth if at most that many arrays and objects lie inside one another and all its
numbers are numbers of 64 bits (`Json.Fits`). Whatever the reader gives fits the depth that it was
given (`Cursor.fits_of_value`), and bringing a value into normal form does not make it deeper.

Reading the text of a value gives the value back but for its floating point numbers
(`Json.reread`), which changes neither the depth nor the order of members.
-/

set_option autoImplicit false

namespace ImageImports

/-- Sorting keeps no member that was not there. -/
theorem Members.mem_of_mem_sort {members : Members} {m : String × Json} (h : m ∈ members.sort) :
    m ∈ members := by
  induction members using List.reverseRecOn with
  | nil => simp [sort] at h
  | append_singleton front last ih =>
      obtain ⟨key, value⟩ := last
      rw [sort_append_single] at h
      rcases mem_keys_insert h with rfl | hfront
      · simp
      · exact List.mem_append_left _ (ih hfront)

namespace Json

/-! ### Fitting a depth -/

/-- At most the given number of arrays and objects lie inside one another, and all numbers are
valid. This is exactly what a reader with that limit can take. -/
def Fits : Nat → Json → Prop
  | _, .null => True
  | _, .bool _ => True
  | _, .number n => n.Valid
  | _, .string _ => True
  | 0, .array _ => False
  | depth + 1, .array items => ∀ item ∈ items, Fits depth item
  | 0, .object _ => False
  | depth + 1, .object members => ∀ m ∈ members, Fits depth m.2

/-- Null fits every depth. -/
@[simp]
theorem fits_null (depth : Nat) : Fits depth .null := by cases depth <;> trivial

/-- A truth value fits every depth. -/
@[simp]
theorem fits_bool (depth : Nat) (b : Bool) : Fits depth (.bool b) := by cases depth <;> trivial

/-- A text fits every depth. -/
@[simp]
theorem fits_string (depth : Nat) (s : String) : Fits depth (.string s) := by
  cases depth <;> trivial

/-- A number fits every depth if it is one that can be written. -/
@[simp]
theorem fits_number {depth : Nat} {n : Number} : Fits depth (.number n) ↔ n.Valid := by
  cases depth <;> exact Iff.rfl

/-- A list takes one level of nesting, and its items fit what is left. -/
theorem fits_array {depth : Nat} {items : List Json} :
    Fits depth (.array items)
      ↔ ∃ inner, depth = inner + 1 ∧ ∀ item ∈ items, Fits inner item := by
  cases depth <;> simp [Fits]

/-- An object takes one level of nesting, and its values fit what is left. -/
theorem fits_object {depth : Nat} {members : Members} :
    Fits depth (.object members)
      ↔ ∃ inner, depth = inner + 1 ∧ ∀ m ∈ members, Fits inner m.2 := by
  cases depth <;> simp [Fits]

/-- A list fits one more than its items do. -/
@[simp]
theorem fits_array_succ {depth : Nat} {items : List Json} :
    Fits (depth + 1) (.array items) ↔ ∀ item ∈ items, Fits depth item := Iff.rfl

/-- An object fits one more than its values do. -/
@[simp]
theorem fits_object_succ {depth : Nat} {members : Members} :
    Fits (depth + 1) (.object members) ↔ ∀ m ∈ members, Fits depth m.2 := Iff.rfl

/-- A list does not fit where no level is left, even if it is empty. -/
@[simp]
theorem not_fits_array_zero (items : List Json) : ¬ Fits 0 (.array items) := id

/-- An object does not fit where no level is left, even if it is empty. -/
@[simp]
theorem not_fits_object_zero (members : Members) : ¬ Fits 0 (.object members) := id

/-- What fits a depth fits every greater one. -/
theorem Fits.mono {depth deeper : Nat} (h : depth ≤ deeper) {value : Json}
    (hfits : value.Fits depth) :
    value.Fits deeper := by
  induction depth generalizing deeper value with
  | zero => cases value <;> simp_all
  | succ depth ih =>
      obtain ⟨deeper, rfl⟩ := Nat.exists_eq_add_one_of_ne_zero (by omega : deeper ≠ 0)
      have hle : depth ≤ deeper := Nat.le_of_succ_le_succ h
      cases value with
      | array items => exact fun item hitem => ih hle (hfits item hitem)
      | object members => exact fun m hm => ih hle (hfits m hm)
      | number n => simpa using hfits
      | _ => simp

/-! ### What is read -/

namespace Cursor

variable {item : ValueReader} {p : Json → Prop}

/-- Every item of an array is one that was read. -/
theorem forall_of_items (hitem : ∀ c value behind, item c = .ok (value, behind) → p value) (n : Nat)
    {seen list : List Json} {c behind : Cursor} (hseen : ∀ x ∈ seen, p x)
    (h : items item n seen c = .ok (list, behind)) : ∀ x ∈ list, p x := by
  induction n generalizing seen c with
  | zero => cases h
  | succ n ih =>
      obtain ⟨⟨more, next⟩, -, h⟩ := bind_ok_iff.1 h
      cases more with
      | false =>
          cases h
          simpa using hseen
      | true =>
          obtain ⟨⟨value, after⟩, hread, hrest⟩ := bind_ok_iff.1 h
          exact ih (List.forall_mem_cons.2 ⟨hitem _ _ _ hread, hseen⟩) hrest

/-- Every value of an object is one that was read. -/
theorem forall_of_members (hitem : ∀ c value behind, item c = .ok (value, behind) → p value)
    (limit n : Nat) {seen list : Members} {c behind : Cursor} (hseen : ∀ m ∈ seen, p m.2)
    (h : members limit item n seen c = .ok (list, behind)) : ∀ m ∈ list, p m.2 := by
  induction n generalizing seen c with
  | zero => cases h
  | succ n ih =>
      obtain ⟨⟨more, next⟩, -, h⟩ := bind_ok_iff.1 h
      cases more with
      | false =>
          cases h
          simpa using hseen
      | true =>
          obtain ⟨⟨key, afterKey⟩, -, h⟩ := bind_ok_iff.1 h
          obtain ⟨afterColon, -, h⟩ := bind_ok_iff.1 h
          obtain ⟨⟨value, after⟩, hread, hrest⟩ := bind_ok_iff.1 h
          exact ih (List.forall_mem_cons.2 ⟨hitem _ _ _ hread, hseen⟩) hrest

/-- What is neither a list nor an object fits every depth that it was read at. -/
theorem fits_of_leaf {limit depth : Nat} {ch : Char} {c behind : Cursor} {value : Json}
    (h : leaf limit ch c = .ok (value, behind)) : value.Fits depth := by
  -- The cases are `null`, `true`, `false`, a text, a number and anything else.
  unfold leaf at h
  split at h
  · obtain ⟨_, -, h⟩ := bind_ok_iff.1 h
    cases h
    simp
  split at h
  · obtain ⟨_, -, h⟩ := bind_ok_iff.1 h
    cases h
    simp
  split at h
  · obtain ⟨_, -, h⟩ := bind_ok_iff.1 h
    cases h
    simp
  split at h
  · obtain ⟨_, -, h⟩ := bind_ok_iff.1 h
    cases h
    simp
  split at h
  · obtain ⟨⟨n, _⟩, hnumber, h⟩ := bind_ok_iff.1 h
    cases h
    exact fits_number.2 (valid_of_number hnumber)
  · cases h

/-- What the reader gives fits the depth that it was given. An array or an object takes one level
before its parts are read. -/
theorem fits_of_value (limit depth : Nat) (c : Cursor) (value : Json) (behind : Cursor)
    (h : Cursor.value limit depth c = .ok (value, behind)) : value.Fits depth := by
  induction depth generalizing c value behind with
  | zero =>
      -- Where no depth is left, an array and an object are refused at their opening bracket.
      rw [Cursor.value] at h
      split at h
      · cases h
      split at h
      · cases h
      split at h
      · cases h
      · exact fits_of_leaf h
  | succ depth ih =>
      rw [Cursor.value] at h
      split at h
      · cases h
      split at h
      · obtain ⟨⟨list, _⟩, hitems, h⟩ := bind_ok_iff.1 h
        cases h
        exact forall_of_items ih limit (by simp) hitems
      split at h
      · obtain ⟨⟨list, _⟩, hmembers, h⟩ := bind_ok_iff.1 h
        cases h
        exact forall_of_members ih limit limit (by simp) hmembers
      · exact fits_of_leaf h

end Cursor

/-! ### Normal form -/

/-- The normal form of a value fits where the value does. -/
theorem Fits.normalize {depth : Nat} {value : Json} (h : value.Fits depth) :
    value.normalize.Fits depth := by
  induction depth generalizing value with
  | zero => cases value <;> simp_all [Json.normalize]
  | succ depth ih =>
      cases value with
      | array items =>
          rw [Json.normalize, normalizeItems_eq_map]
          intro item hitem
          obtain ⟨found, hfound, rfl⟩ := List.mem_map.1 hitem
          exact ih (h found hfound)
      | object members =>
          rw [Json.normalize, normalizeMembers_eq_mapValues]
          intro m hm
          obtain ⟨found, hfound, rfl⟩ := List.mem_map.1 (Members.mem_of_mem_sort hm)
          exact ih (h found hfound)
      | number n => simpa [Json.normalize] using h
      | _ => simp [Json.normalize]

/-- The value of a text fits the depth that the reader keeps to. -/
theorem fits_of_parse {text : String} {value : Json} (h : parse text = .ok value) :
    value.Fits maxDepth := by
  obtain ⟨written, hread, hwritten⟩ := bind_ok_iff.1 h
  obtain ⟨⟨found, behind⟩, hvalue, hrest⟩ := bind_ok_iff.1 hread
  obtain ⟨-, -, hfound⟩ := bind_ok_iff.1 hrest
  cases hfound
  cases hwritten
  exact (Cursor.fits_of_value _ _ _ _ _ hvalue).normalize

/-! ### Reading a text back -/

mutual

/-- The value that the text of a value is read as: the same but for the magnitudes of floating point
numbers. -/
def reread : Json → Json
  | .null => .null
  | .bool b => .bool b
  | .number n => .number n.reread
  | .string s => .string s
  | .array items => .array (rereadItems items)
  | .object members => .object (rereadMembers members)

/-- Every item as it is read back. -/
def rereadItems : List Json → List Json
  | [] => []
  | x :: rest => reread x :: rereadItems rest

/-- Every member with its value as it is read back. -/
def rereadMembers : List (String × Json) → List (String × Json)
  | [] => []
  | (k, x) :: rest => (k, reread x) :: rereadMembers rest

end

/-- Reading items back is reading each of them back. -/
theorem rereadItems_eq_map (items : List Json) : rereadItems items = items.map reread := by
  induction items with
  | nil => rfl
  | cons x rest ih => simp [rereadItems, ih]

/-- Reading members back changes their values and no key. -/
theorem rereadMembers_eq_mapValues (members : Members) :
    rereadMembers members = members.mapValues reread := by
  induction members with
  | nil => rfl
  | cons head rest ih => simp [rereadMembers, Members.mapValues, ih]

mutual

/-- It does not matter whether a value is read back before or after it is brought into normal
form. -/
theorem normalize_reread : ∀ value : Json, value.reread.normalize = value.normalize.reread
  | .null | .bool _ | .number _ | .string _ => rfl
  | .array items => by
      simp only [reread, normalize, normalizeItems_rereadItems items]
  | .object members => by
      simp only [reread, normalize, normalizeMembers_rereadMembers members]
      rw [rereadMembers_eq_mapValues, rereadMembers_eq_mapValues, Members.sort_mapValues]

/-- Items can be read back before or after they are brought into normal form. -/
theorem normalizeItems_rereadItems :
    ∀ items : List Json, normalizeItems (rereadItems items) = rereadItems (normalizeItems items)
  | [] => rfl
  | x :: rest => by
      simp only [rereadItems, normalizeItems, normalize_reread x, normalizeItems_rereadItems rest]

/-- Members can be read back before or after they are brought into normal form. -/
theorem normalizeMembers_rereadMembers :
    ∀ members : Members,
      normalizeMembers (rereadMembers members) = rereadMembers (normalizeMembers members)
  | [] => rfl
  | (k, x) :: rest => by
      simp only [rereadMembers, normalizeMembers, normalize_reread x,
        normalizeMembers_rereadMembers rest]

end

end Json

end ImageImports
