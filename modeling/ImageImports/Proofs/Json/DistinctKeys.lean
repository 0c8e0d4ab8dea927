import ImageImports.Proofs.Json.Spelling

/-!
# `ImageImports.Proofs.Json.DistinctKeys`: values that repeat no key

No object in a value in normal form repeats a key, since its keys are sorted. A record that is
written with its typed fields in front of its other members is not sorted, and repeats a key if one
of its other members bears the name of a typed field. So what has to be known of the other members
of everything that is written is that they avoid these names (`OtherMembers.Tidy`); then the record
repeats no key (`writable_record`).

The other half of the module follows other members through what is done to them: they are tidy where
they were read (`tidy_ofMembers`), where they were made (`Tidy.set`), and where some of them were
taken out (`Tidy.trimmed`).

To say that the text of a value repeats no key it has to be read without being brought into normal
form (`exists_value_print`). That needs numbers that have a text, which `Json.Valid` asks for.
-/

set_option autoImplicit false

namespace ImageImports

open Json

/-- Sorted members repeat no key, because each key is less than those behind it. -/
theorem Members.Sorted.nodup_keys {members : Members} (h : members.Sorted) :
    (members.map Prod.fst).Nodup := by
  refine List.pairwise_map.2 (List.Pairwise.imp ?_ h)
  intro a b hlt heq
  exact String.lt_irrefl _ (heq ▸ hlt)

namespace Json

open Members

/-! ### Repeated keys -/

/-- No object in a value has two members with the same key. It is said of values before they are
brought into normal form, which would hide a repetition. -/
inductive DistinctKeys : Json → Prop where
  | null : DistinctKeys .null
  | bool (b : Bool) : DistinctKeys (.bool b)
  | number (n : Number) : DistinctKeys (.number n)
  | string (s : String) : DistinctKeys (.string s)
  | array {items : List Json} (h : ∀ item ∈ items, DistinctKeys item) : DistinctKeys (.array items)
  | object {members : List (String × Json)} (hkeys : (members.map Prod.fst).Nodup)
      (h : ∀ m ∈ members, DistinctKeys m.2) : DistinctKeys (.object members)

mutual

/-- A value in normal form repeats no key. -/
theorem distinctKeys_normalize : ∀ value : Json, value.normalize.DistinctKeys
  | .null => .null
  | .bool b => .bool b
  | .number n => .number n
  | .string s => .string s
  | .array items => .array (distinctKeys_normalizeItems items)
  | .object members =>
      .object (sorted_canonical members).nodup_keys fun m hm =>
        distinctKeys_normalizeMembers members m (mem_of_mem_sort hm)

/-- The items of a list in normal form repeat no key. -/
theorem distinctKeys_normalizeItems :
    ∀ items : List Json, ∀ item ∈ normalizeItems items, item.DistinctKeys
  | [], _, h => by cases h
  | x :: rest, item, h => by
      rcases List.mem_cons.1 h with rfl | h
      · exact distinctKeys_normalize x
      · exact distinctKeys_normalizeItems rest item h

/-- The values of an object in normal form repeat no key. -/
theorem distinctKeys_normalizeMembers :
    ∀ members : List (String × Json), ∀ m ∈ normalizeMembers members, m.2.DistinctKeys
  | [], _, h => by cases h
  | (_, x) :: rest, m, h => by
      rcases List.mem_cons.1 h with rfl | h
      · exact distinctKeys_normalize x
      · exact distinctKeys_normalizeMembers rest m h

end

/-- What is read back from the text of a value has the keys of the value. -/
theorem DistinctKeys.reread {value : Json} (h : value.DistinctKeys) :
    value.reread.DistinctKeys := by
  induction h with
  | null => exact .null
  | bool b => exact .bool b
  | number n => exact .number _
  | string s => exact .string s
  | array h ih =>
      rw [Json.reread, rereadItems_eq_map]
      exact .array (List.forall_mem_map.2 ih)
  | object hkeys h ih =>
      rw [Json.reread, rereadMembers_eq_mapValues]
      refine .object ?_ (List.forall_mem_map.2 ih)
      rw [Members.mapValues, List.map_map]
      exact hkeys

/-! ### Values that can be written -/

/-- All numbers in a value have a text. The depth is only there to share the definition of what
fits. -/
def Valid (value : Json) : Prop := ∃ depth, value.Fits depth

/-- Finitely many values that fit some depth each fit one depth all. -/
theorem exists_fits_of_forall {α : Type} {f : α → Json} {list : List α}
    (h : ∀ a ∈ list, (f a).Valid) : ∃ depth, ∀ a ∈ list, (f a).Fits depth := by
  induction list with
  | nil => exact ⟨0, by simp⟩
  | cons first rest ih =>
      obtain ⟨depth, hfirst⟩ := h first List.mem_cons_self
      obtain ⟨depth', hrest⟩ := ih fun a ha => h a (List.mem_cons_of_mem _ ha)
      refine ⟨max depth depth', List.forall_mem_cons.2 ⟨?_, fun a ha => ?_⟩⟩
      · exact hfirst.mono (Nat.le_max_left _ _)
      · exact (hrest a ha).mono (Nat.le_max_right _ _)

/-- The numbers in a list have a text if those in each item do. -/
theorem valid_array_iff {items : List Json} :
    Valid (.array items) ↔ ∀ item ∈ items, item.Valid := by
  constructor
  · rintro ⟨depth, hfits⟩ item hitem
    obtain ⟨inner, -, hitems⟩ := fits_array.1 hfits
    exact ⟨inner, hitems item hitem⟩
  · intro h
    obtain ⟨depth, hfits⟩ := exists_fits_of_forall h
    exact ⟨depth + 1, hfits⟩

/-- The numbers in an object have a text if those in each value do. -/
theorem valid_object_iff {members : Members} :
    Valid (.object members) ↔ ∀ m ∈ members, m.2.Valid := by
  constructor
  · rintro ⟨depth, hfits⟩ m hm
    obtain ⟨inner, -, hmembers⟩ := fits_object.1 hfits
    exact ⟨inner, hmembers m hm⟩
  · intro h
    obtain ⟨depth, hfits⟩ := exists_fits_of_forall h
    exact ⟨depth + 1, hfits⟩

/-- There are no numbers in a text. -/
theorem valid_string (text : String) : Valid (.string text) := ⟨0, fits_string _ _⟩

/-- Normal form changes no number. -/
theorem Valid.normalize {value : Json} (h : value.Valid) : value.normalize.Valid := by
  obtain ⟨depth, hfits⟩ := h
  exact ⟨depth, hfits.normalize⟩

/-- A value that repeats no key and has a text. Every number that a reader gives has one. -/
structure Writable (value : Json) : Prop where
  /-- No key is repeated. -/
  distinct : value.DistinctKeys
  /-- All numbers have a text. -/
  valid : value.Valid

/-- Null can be written. -/
@[simp]
theorem writable_null : Writable .null := ⟨.null, 0, fits_null _⟩

/-- Every text can be written. -/
@[simp]
theorem writable_string (text : String) : Writable (.string text) :=
  ⟨.string text, valid_string text⟩

/-- A list can be written if each of its items can. -/
theorem Writable.array {items : List Json} (h : ∀ item ∈ items, item.Writable) :
    Writable (.array items) where
  distinct := .array fun item hitem => (h item hitem).distinct
  valid := valid_array_iff.2 fun item hitem => (h item hitem).valid

/-- An object can be written if its keys are distinct and each of its values can. -/
theorem Writable.object {members : Members} (hkeys : (members.map Prod.fst).Nodup)
    (h : ∀ m ∈ members, m.2.Writable) : Writable (.object members) where
  distinct := .object hkeys fun m hm => (h m hm).distinct
  valid := valid_object_iff.2 fun m hm => (h m hm).valid

/-- The items of a list are written one by one. -/
theorem Writable.list {α : Type} {write : α → Json} {items : List α}
    (h : ∀ a ∈ items, (write a).Writable) : Writable (.array (items.map write)) :=
  .array (List.forall_mem_map.2 h)

/-- Read as it stands, the text of a value is the value but for its floating point numbers. The
members keep their order here and no key is dropped, which is what tells a repeated key from a
single one. -/
theorem exists_value_print (isPretty : Bool) {value : Json} (h : value.Writable) :
    let text := if isPretty then value.pretty else value.compact
    ∃ deep, ∀ depth, deep ≤ depth → ∃ behind,
      Cursor.value (loopLimit text) depth (Cursor.ofString text) = .ok (value.reread, behind)
        ∧ behind.rest = [] := by
  intro text
  obtain ⟨deep, hfits⟩ := h.valid
  obtain ⟨lay, hlay⟩ := exists_layout isPretty value
  exact ⟨deep, fun depth hdeep => (reads_text lay hfits hlay depth).1 (hfits.mono hdeep)⟩

end Json

/-- A value that is kept as it is can be written. -/
theorem CanonicalJson.writable {value : CanonicalJson} (h : value.value.Valid) :
    value.value.Writable where
  distinct := value.normal ▸ distinctKeys_normalize value.value
  valid := h

/-! ### Other members -/

/-- The numbers in all values have a text. -/
def Members.Valid (members : Members) : Prop := ∀ m ∈ members, m.2.Valid

/-- The members of an object whose numbers have a text are of this kind. -/
theorem Members.valid_of_object {members : Members} (h : (Json.object members).Valid) :
    members.Valid :=
  valid_object_iff.1 h

namespace OtherMembers

/-- That other members can be written beside typed fields of the given names: they avoid these
names, and their numbers have a text. -/
structure Tidy (others : OtherMembers) (typed : List String) : Prop where
  /-- No key is `type` or the name of a typed field. -/
  avoids : others.Avoids typed
  /-- The numbers in all values have a text. -/
  valid : Members.Valid others.entries

/-- What is left of other members after some keys were taken out. -/
def Trimmed (others rest : OtherMembers) : Prop :=
  ∃ keys : List String, rest = keys.foldl erase others

variable {others rest : OtherMembers} {typed : List String} {members : Members}

/-- No other members are tidy beside any fields. -/
theorem tidy_empty (typed : List String) : empty.Tidy typed :=
  ⟨avoids_empty typed, by simp [Members.Valid, empty]⟩

/-- Bringing members into normal form changes no number in them. -/
theorem valid_normalized (h : members.Valid) : Members.Valid (normalized members).entries := by
  have hcanonical : (Json.object members).normalize.Valid := (valid_object_iff.2 h).normalize
  rw [Members.normalize_object] at hcanonical
  exact valid_object_iff.1 hcanonical

/-- Other members are tidy when they are read, since the reader takes them after the typed fields
and leaves out what these have taken. -/
theorem tidy_ofMembers (h : members.Valid) (typed : List String) :
    (ofMembers typed members).Tidy typed where
  avoids := avoids_ofMembers typed members
  valid := valid_normalized fun m hm => h m (List.mem_of_mem_filter hm)

/-- Putting a value under a key that is not that of a field leaves other members tidy. -/
theorem Tidy.set (h : others.Tidy typed) {key : String} {value : Json} (hvalue : value.Valid)
    (hkey : key ∉ "type" :: typed) : (others.set key value).Tidy typed where
  avoids := h.avoids.set value hkey
  valid := by
    refine valid_normalized fun m hm => ?_
    rcases List.mem_append.1 hm with hm | hm
    · exact h.valid m hm
    · rw [List.mem_singleton.1 hm]
      exact hvalue

/-- Taking a key out leaves other members tidy. -/
theorem Tidy.erase (h : others.Tidy typed) (key : String) : (others.erase key).Tidy typed where
  avoids sought hsought hmem := by
    obtain ⟨m, hm, heq⟩ := List.mem_map.1 hmem
    exact h.avoids sought hsought (List.mem_map.2 ⟨m, List.mem_of_mem_filter hm, heq⟩)
  valid m hm := h.valid m (List.mem_of_mem_filter hm)

/-- What is left of tidy members is tidy. -/
theorem Tidy.trimmed (h : others.Tidy typed) (htrimmed : others.Trimmed rest) :
    rest.Tidy typed := by
  obtain ⟨keys, rfl⟩ := htrimmed
  induction keys generalizing others with
  | nil => exact h
  | cons key keys ih => exact ih (h.erase key)

end OtherMembers

/-- A record repeats no key if its typed fields do not and its other members are tidy. All records
are written in this form: the type and the fields first and the other members behind them. -/
theorem writable_record {others : OtherMembers} {typed : List String} {fields : Members}
    (h : others.Tidy typed) (hkeys : (fields.map Prod.fst).Nodup)
    (hnames : ∀ m ∈ fields, m.1 ∈ "type" :: typed) (hfields : ∀ m ∈ fields, m.2.Writable) :
    (Json.object (fields ++ others.entries)).Writable := by
  refine .object ?_ fun m hm => ?_
  · rw [List.map_append, List.nodup_append]
    refine ⟨hkeys, others.sorted.nodup_keys, fun key hkey other hother heq => ?_⟩
    obtain ⟨m, hm, rfl⟩ := List.mem_map.1 hkey
    exact h.avoids m.1 (hnames m hm) (heq ▸ hother)
  · rcases List.mem_append.1 hm with hm | hm
    · exact hfields m hm
    · have hdistinct := distinctKeys_normalizeMembers others.entries m
      rw [others.normal] at hdistinct
      exact ⟨hdistinct hm, h.valid m hm⟩

end ImageImports
