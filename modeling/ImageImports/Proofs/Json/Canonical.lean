import ImageImports.Proofs.Json.Record

/-!
# `ImageImports.Proofs.Json.Canonical`: values in normal form

In a value in normal form the members of every object are sorted (`sorted_of_normal`) and all that
stands under a key or in a list is in normal form again (`normalValues_of_normal`,
`normal_of_mem`). So what is read from a value in normal form is read from parts in normal form.

What is said of nodes goes down a value by its lists of children. `induction_children` is that
induction.
-/

set_option autoImplicit false

namespace ImageImports

open Json

namespace Members

/-! ### Parts of a value in normal form -/

/-- What stands under a key is in normal form. The reader of a text leaves all values like that. -/
def NormalValues (members : Members) : Prop :=
  ∀ key value, last? members key = some value → value.normalize = value

/-- Members that are kept of some in normal form are in normal form. -/
theorem NormalValues.keep {members : Members} (h : members.NormalValues) (p : String → Bool) :
    (members.keep p).NormalValues := by
  intro key value hvalue
  rw [last?_keep] at hvalue
  split at hvalue
  · exact h key value hvalue
  · cases hvalue

/-- The members of an object in normal form are sorted, and no key is there twice. What stands under
a key is then the same for a search from either end. -/
theorem sorted_of_normal {members : Members}
    (h : (Json.object members).normalize = .object members) : members.Sorted := by
  rw [← Json.object.inj h]
  exact sorted_sort _

/-- The values of an object in normal form are in normal form. -/
theorem normalValues_of_normal {members : Members}
    (h : (Json.object members).normalize = .object members) : members.NormalValues := by
  intro key value hvalue
  have hmap := last?_canonical members key
  rw [Json.object.inj ((normalize_object members).symm.trans h), hvalue] at hmap
  exact (Option.some.inj hmap).symm

end Members

/-- The items of a list in normal form are in normal form. -/
theorem Json.normal_of_mem {items : List Json}
    (h : (Json.array items).normalize = .array items) {item : Json} (hitem : item ∈ items) :
    item.normalize = item := by
  have hmap : items.map normalize = items.map id := by
    rw [List.map_id, ← normalizeItems_eq_map]
    exact Json.array.inj h
  exact List.map_inj_left.1 hmap item hitem

/-! ### Going down by children -/

/-- What is found under a key is among the members. -/
theorem Members.mem_of_last? {members : Members} {key : String} {value : Json}
    (h : last? members key = some value) : (key, value) ∈ members := by
  induction members with
  | nil => cases h
  | cons head rest ih =>
      obtain ⟨k, v⟩ := head
      rw [last?_cons] at h
      cases hrest : last? rest key with
      | some found =>
          obtain rfl : found = value := by simpa [hrest] using h
          exact List.mem_cons_of_mem _ (ih hrest)
      | none =>
          by_cases hk : k = key
          · obtain rfl : v = value := by simpa [hrest, hk] using h
            exact hk ▸ List.mem_cons_self
          · simp [hrest, hk] at h

/-- A child is a smaller value than the object that lists it. -/
theorem Json.sizeOf_child_lt {members : Members} {key : String} {items : List Json} {item : Json}
    (h : members.last? key = some (.array items)) (hitem : item ∈ items) :
    sizeOf item < sizeOf (Json.object members) := by
  have hitems := List.sizeOf_lt_of_mem hitem
  have hmembers := List.sizeOf_lt_of_mem (Members.mem_of_last? h)
  simp only [Prod.mk.sizeOf_spec, Json.array.sizeOf_spec, Json.object.sizeOf_spec] at hmembers ⊢
  omega

/-- A statement about all values that may be assumed of the children of an object. The readers of
nodes recurse into nothing else, so this is the induction that goes with them. -/
theorem Json.induction_children {motive : Json → Prop}
    (step : ∀ value, (∀ (members : Members) (items : List Json), value = .object members →
      members.last? "children" = some (.array items) → ∀ item ∈ items, motive item) →
      motive value) (value : Json) : motive value :=
  step value fun members items hvalue hchildren item hitem => by
    have hlt : sizeOf item < sizeOf value := hvalue ▸ Json.sizeOf_child_lt hchildren hitem
    exact Json.induction_children step item
termination_by sizeOf value
decreasing_by exact hlt

end ImageImports
