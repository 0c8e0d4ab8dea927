import ImageImports.Json.Basic

/-!
# `ImageImports.Json.Normal`: the normal form of a value

Sorting the members of an object gives strictly increasing keys (`Members.sorted_sort`) and leaves
members alone that already have them (`Members.sort_of_sorted`). Sorting and a change of the values
commute (`Members.sort_mapValues`). So normalizing twice is normalizing once
(`Json.normalize_normalize`), and `CanonicalJson` is the type of the values in normal form.
-/

set_option autoImplicit false

namespace ImageImports

namespace Members

/-- Strictly increasing keys: the members are sorted and no key occurs twice. -/
def Sorted (members : Members) : Prop := members.Pairwise fun a b => a.1 < b.1

/-- A change of the values under their keys. -/
def mapValues (f : Json → Json) (members : Members) : Members :=
  members.map fun (k, v) => (k, f v)

/-! ### Insertion -/

/-- Inserting goes by the key alone, so it commutes with a change of the values. -/
theorem insert_mapValues (f : Json → Json) (members : Members) (key : String) (value : Json) :
    insert (mapValues f members) key (f value) = mapValues f (insert members key value) := by
  induction members with
  | nil => rfl
  | cons head rest ih =>
      obtain ⟨k, v⟩ := head
      simp only [mapValues, List.map_cons, insert]
      split
      · rfl
      · split
        · rfl
        · simpa [mapValues] using ih

/-- Every key after an insertion was there before or is the inserted one. -/
theorem mem_keys_insert {members : Members} {key : String} {value : Json} {m : String × Json}
    (h : m ∈ insert members key value) : m = (key, value) ∨ m ∈ members := by
  induction members with
  | nil => simpa [insert] using h
  | cons head rest ih =>
      obtain ⟨k, v⟩ := head
      simp only [insert] at h
      split at h
      · simpa using h
      · split at h
        · rcases List.mem_cons.1 h with h | h
          · exact .inl h
          · exact .inr (List.mem_cons_of_mem _ h)
        · rcases List.mem_cons.1 h with h | h
          · exact .inr (by simp [h])
          · rcases ih h with h | h
            · exact .inl h
            · exact .inr (List.mem_cons_of_mem _ h)

/-- Of two different keys one comes before the other. -/
theorem lt_of_not_lt_of_ne {a b : String} (h : ¬ a < b) (hne : a ≠ b) : b < a := by
  rcases Std.lt_trichotomy a b with h' | h' | h'
  · exact absurd h' h
  · exact absurd h' hne
  · exact h'

/-- Inserting keeps members sorted. A key that is there already keeps its place and takes the new
value. -/
theorem Sorted.insert {members : Members} (h : Sorted members) (key : String) (value : Json) :
    Sorted (members.insert key value) := by
  induction members with
  | nil => exact List.pairwise_singleton _ _
  | cons head rest ih =>
      obtain ⟨k, v⟩ := head
      obtain ⟨hhead, hrest⟩ := List.pairwise_cons.1 h
      simp only [Members.insert]
      split
      -- The new key goes before the first one, replaces its value, or goes on behind it.
      · rename_i hlt
        refine List.pairwise_cons.2 ⟨fun m hm => ?_, h⟩
        rcases List.mem_cons.1 hm with rfl | hm
        · exact hlt
        · exact String.lt_trans hlt (hhead m hm)
      · split
        · rename_i heq
          exact List.pairwise_cons.2 ⟨fun m hm => heq ▸ hhead m hm, hrest⟩
        · rename_i hlt hne
          refine List.pairwise_cons.2 ⟨fun m hm => ?_, ih hrest⟩
          rcases mem_keys_insert hm with rfl | hm
          · exact lt_of_not_lt_of_ne hlt hne
          · exact hhead m hm

/-- A key behind all others is inserted at the end. -/
theorem insert_of_forall_lt {members : Members} {key : String} (value : Json)
    (h : ∀ m ∈ members, m.1 < key) : members.insert key value = members ++ [(key, value)] := by
  induction members with
  | nil => rfl
  | cons head rest ih =>
      obtain ⟨k, v⟩ := head
      have hk : k < key := h (k, v) (by simp)
      have h1 : ¬ key < k := fun h' => String.lt_irrefl _ (String.lt_trans hk h')
      have h2 : key ≠ k := fun h' => String.lt_irrefl k (h' ▸ hk)
      simp only [insert, h1, h2, if_false, List.cons_append]
      rw [ih fun m hm => h m (List.mem_cons_of_mem _ hm)]

/-! ### Sorting -/

/-- Sorting inserts one member after the other, from the first to the last. -/
theorem sort_append_single (members : Members) (key : String) (value : Json) :
    sort (members ++ [(key, value)]) = (sort members).insert key value := by
  simp [sort, List.foldl_append]

/-- Inserting any number of members keeps them sorted. -/
theorem sorted_foldl_insert {members start : Members} (h : Sorted start) :
    Sorted (members.foldl (fun sorted (k, v) => sorted.insert k v) start) := by
  induction members generalizing start with
  | nil => exact h
  | cons head rest ih => exact ih (h.insert _ _)

/-- Sorted members are sorted, whatever they were before. -/
theorem sorted_sort (members : Members) : Sorted members.sort :=
  sorted_foldl_insert List.Pairwise.nil

/-- Inserting members in their order, behind all those that are there, appends them. -/
theorem foldl_insert_of_sorted {members start : Members} (h : Sorted (start ++ members)) :
    members.foldl (fun sorted (k, v) => sorted.insert k v) start = start ++ members := by
  induction members generalizing start with
  | nil => simp
  | cons head rest ih =>
      obtain ⟨k, v⟩ := head
      have hlt : ∀ m ∈ start, m.1 < k := fun m hm =>
        (List.pairwise_append.1 h).2.2 m hm (k, v) (by simp)
      simp only [List.foldl_cons, insert_of_forall_lt v hlt]
      rw [ih (by simpa using h)]
      simp

/-- Members that are sorted already stay as they are. -/
theorem sort_of_sorted {members : Members} (h : Sorted members) : members.sort = members := by
  simpa [sort] using @foldl_insert_of_sorted members [] (by simpa using h)

/-- Inserting any number of members commutes with a change of the values. -/
theorem foldl_insert_mapValues (f : Json → Json) (members start : Members) :
    (mapValues f members).foldl (fun sorted (k, v) => sorted.insert k v) (mapValues f start)
      = mapValues f (members.foldl (fun sorted (k, v) => sorted.insert k v) start) := by
  induction members generalizing start with
  | nil => rfl
  | cons head rest ih =>
      obtain ⟨k, v⟩ := head
      show (mapValues f rest).foldl _ ((mapValues f start).insert k (f v)) = _
      rw [insert_mapValues]
      exact ih (start.insert k v)

/-- Sorting goes by the keys alone, so it commutes with a change of the values. -/
theorem sort_mapValues (f : Json → Json) (members : Members) :
    sort (mapValues f members) = mapValues f (sort members) :=
  foldl_insert_mapValues f members []

/-- A change of the values keeps members sorted. -/
theorem Sorted.mapValues {members : Members} (h : Sorted members) (f : Json → Json) :
    Sorted (members.mapValues f) := by
  simpa [Sorted, Members.mapValues, List.pairwise_map] using h

/-- Members that are sorted stay so when some of them are taken out. -/
theorem Sorted.keep {members : Members} (h : Sorted members) (p : String → Bool) :
    Sorted (members.keep p) :=
  List.Pairwise.filter _ h

end Members

namespace Json

open Members

/-- The items of a list are put in normal form one by one. -/
theorem normalizeItems_eq_map (items : List Json) :
    normalizeItems items = items.map normalize := by
  induction items with
  | nil => rfl
  | cons x xs ih => simp [normalizeItems, ih]

/-- The values of an object are put in normal form one by one, under the keys they have. -/
theorem normalizeMembers_eq_mapValues (members : Members) :
    normalizeMembers members = members.mapValues normalize := by
  induction members with
  | nil => rfl
  | cons head rest ih => simp [normalizeMembers, Members.mapValues, ih]

mutual

/-- Normal form is reached in one step: a value in normal form stays as it is. It goes by the
structure of the value. -/
theorem normalize_normalize : ∀ value : Json, value.normalize.normalize = value.normalize
  | .null | .bool _ | .number _ | .string _ => rfl
  | .array items => by simp only [normalize, normalizeItems_normalizeItems items]
  | .object members => by
      simp only [normalize, normalizeMembers_eq_mapValues]
      rw [← sort_mapValues, ← normalizeMembers_eq_mapValues, ← normalizeMembers_eq_mapValues,
        normalizeMembers_normalizeMembers members, sort_of_sorted (sorted_sort _)]

/-- Items in normal form stay as they are. -/
theorem normalizeItems_normalizeItems :
    ∀ items : List Json, normalizeItems (normalizeItems items) = normalizeItems items
  | [] => rfl
  | x :: xs => by
      simp only [normalizeItems, normalize_normalize x, normalizeItems_normalizeItems xs]

/-- Members whose values are in normal form stay as they are. -/
theorem normalizeMembers_normalizeMembers :
    ∀ members : Members,
      normalizeMembers (normalizeMembers members) = normalizeMembers members
  | [] => rfl
  | (k, x) :: xs => by
      simp only [normalizeMembers, normalize_normalize x, normalizeMembers_normalizeMembers xs]

end

end Json

/-- A JSON value in normal form. -/
structure CanonicalJson where
  /-- The value. -/
  value : Json
  /-- Normalizing the value changes nothing. -/
  normal : value.normalize = value

namespace CanonicalJson

/-- The normal form of a value. -/
def ofJson (value : Json) : CanonicalJson := ⟨value.normalize, value.normalize_normalize⟩

instance : BEq CanonicalJson := ⟨fun a b => a.value.same b.value⟩

end CanonicalJson

end ImageImports
