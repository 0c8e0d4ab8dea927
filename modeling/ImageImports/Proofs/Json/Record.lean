import ImageImports.Json.Record
import ImageImports.OtherMembers
import ImageImports.Proofs.Json.Lookup
import Mathlib.Data.List.Forall2

/-!
# `ImageImports.Proofs.Json.Record`: typed fields and lookups

A reader of a typed field goes through the members from the front and refuses a key that comes back.
The statements here say what that means for the last value under the key, which is all that counts
elsewhere. A field that was read is what stands under its key (`required_ok`, `optional_ok`,
`defaulted_ok`), for any members at all; and under sorted keys a value that fits is read
(`Sorted.required`, `Sorted.optional`, `Sorted.defaulted`).

A record is written as its typed fields followed by its other members. `OtherMembers.Avoids` says
that the two do not meet; then the written record holds both (`holds_written`), and `Members.Holds`
is all that a reader needs to find them again.
-/

set_option autoImplicit false

namespace ImageImports

open Json

/-! ### Results of readers -/

/-- A sequence of two readers succeeds where both do. -/
theorem bind_ok_iff {ε α β : Type} {x : Except ε α} {f : α → Except ε β} {b : β} :
    (x >>= f) = .ok b ↔ ∃ a, x = .ok a ∧ f a = .ok b := by
  cases x with
  | error e => simp [bind, Except.bind]
  | ok a => simp [bind, Except.bind]

/-- A result that is changed comes from one that was there before the change. -/
theorem map_ok_iff {ε α β : Type} {x : Except ε α} {f : α → β} {b : β} :
    x.map f = .ok b ↔ ∃ a, x = .ok a ∧ f a = b := by
  cases x with
  | error e => simp [Except.map]
  | ok a => simp [Except.map]

namespace Checked

/-- A settled field is the field that was read. -/
theorem settle_ok_iff {α : Type} {x : Checked α} {a : α} : x.settle = .ok a ↔ x = .ok a := by
  cases x with
  | error e => simp [settle]
  | ok b => simp [settle]

/-- Two fields are read together if each of them is read. -/
theorem both_ok_iff {α β : Type} {x : Checked α} {y : Checked β} {p : α × β} :
    x.both y = .ok p ↔ x = .ok p.1 ∧ y = .ok p.2 := by
  obtain ⟨a, b⟩ := p
  -- Which of two complaints counts makes no difference to success.
  cases x with
  | error e =>
      cases y with
      | error e' =>
          simp only [both]
          split <;> simp
      | ok b' => simp [both]
  | ok a' =>
      cases y with
      | error e' => simp [both]
      | ok b' => simp [both]

end Checked

namespace Members

/-! ### The first and the last value under a key -/

/-- There is no first value under a key exactly if there is no last one. -/
theorem first?_eq_none_iff {members : Members} {key : String} :
    first? members key = none ↔ last? members key = none := by
  induction members with
  | nil => simp [first?, last?]
  | cons head rest ih =>
      obtain ⟨k, v⟩ := head
      rw [last?_cons, first?]
      by_cases hk : k = key
      · simp [hk]
      · simp [hk, ih]

/-- A first value is found under a key if some member has the key. -/
theorem isSome_first? (members : Members) (key : String) :
    (first? members key).isSome = members.hasKey key := by
  induction members with
  | nil => rfl
  | cons head rest ih =>
      obtain ⟨k, v⟩ := head
      rw [first?, show hasKey ((k, v) :: rest) key = (k == key || hasKey rest key) from rfl, ← ih]
      by_cases hk : k = key
      · simp [hk]
      · simp [hk]

/-- The first value under a key is the last one too if the key does not come back behind it. -/
theorem last?_of_first? {members rest : Members} {key : String} {place : Nat} {value : Json}
    (h : first? members key = some (place, value, rest)) (hrest : first? rest key = none) :
    last? members key = some value := by
  -- The induction is on the members in front of the first one with the key; none of them has it.
  induction members generalizing place with
  | nil => simp [first?] at h
  | cons head tail ih =>
      obtain ⟨k, v⟩ := head
      rw [first?] at h
      rw [last?_cons]
      by_cases hk : k = key
      · obtain ⟨-, rfl, rfl⟩ : 0 = place ∧ v = value ∧ tail = rest := by simpa [hk] using h
        simp [hk, first?_eq_none_iff.1 hrest]
      · simp only [hk, if_false, Option.map_eq_some_iff] at h
        obtain ⟨⟨before, found⟩, hfound, heq⟩ := h
        obtain ⟨rfl, rfl⟩ := Prod.mk.inj heq
        simp [ih hfound]

/-- Under sorted keys the last value under a key is the first one, and the key does not come back
behind it. -/
theorem Sorted.first?_of_last? {members : Members} (hs : Sorted members) {key : String}
    {value : Json} (h : last? members key = some value) :
    ∃ place rest, first? members key = some (place, value, rest) ∧ first? rest key = none := by
  induction members with
  | nil => simp [last?] at h
  | cons head tail ih =>
      obtain ⟨k, v⟩ := head
      rw [last?_cons] at h
      by_cases hk : k = key
      · subst hk
        have hv : v = value := by simpa [hs.last?_tail] using h
        exact ⟨0, tail, by simp [first?, hv], first?_eq_none_iff.2 hs.last?_tail⟩
      · obtain ⟨place, rest, hfirst, hrest⟩ := ih hs.tail (by simpa [hk] using h)
        exact ⟨place + 1, rest, by simp [first?, hk, hfirst], hrest⟩

/-! ### Fields -/

section
variable {α : Type} {members : Members} {key : String} {read : Json → Except Mismatch α}

/-- A field that was found missing has nothing under its key. -/
theorem field?_ok_none (h : members.field? key read = .ok none) : last? members key = none := by
  unfold field? at h
  cases hfirst : first? members key with
  | none => exact first?_eq_none_iff.1 hfirst
  | some found =>
      obtain ⟨place, value, rest⟩ := found
      simp only [hfirst] at h
      cases hread : read value with
      | error cause => simp [hread] at h
      | ok a =>
          simp only [hread] at h
          split at h <;> simp at h

/-- A field that was read is what stands under its key. -/
theorem field?_ok_some {a : α} (h : members.field? key read = .ok (some a)) :
    ∃ value, last? members key = some value ∧ read value = .ok a := by
  unfold field? at h
  cases hfirst : first? members key with
  | none => simp [hfirst] at h
  | some found =>
      obtain ⟨place, value, rest⟩ := found
      simp only [hfirst] at h
      cases hread : read value with
      | error cause => simp [hread] at h
      | ok b =>
          simp only [hread] at h
          cases hrest : first? rest key with
          | some again => simp [hrest] at h
          | none =>
              obtain rfl : b = a := by simpa [hrest] using h
              exact ⟨value, last?_of_first? hfirst hrest, hread⟩

/-- A field with nothing under its key is found missing. -/
theorem field?_none (h : last? members key = none) : members.field? key read = .ok none := by
  unfold field?
  rw [first?_eq_none_iff.2 h]

/-- A field is read from what stands under its key. Sorted members cannot hold the key a second
time, which would be a fault. -/
theorem Sorted.field?_some (hs : Sorted members) {value : Json} {a : α}
    (h : last? members key = some value) (hread : read value = .ok a) :
    members.field? key read = .ok (some a) := by
  obtain ⟨place, rest, hfirst, hrest⟩ := hs.first?_of_last? h
  simp [field?, hfirst, hread, hrest]

/-- A required field that was read is what stands under its key. -/
theorem required_ok {a : α} (h : members.required key read = .ok a) :
    ∃ value, last? members key = some value ∧ read value = .ok a := by
  unfold required at h
  cases hfield : members.field? key read with
  | error e => simp [hfield] at h
  | ok found =>
      cases found with
      | none => simp [hfield] at h
      | some b =>
          obtain rfl : b = a := by simpa [hfield] using h
          exact field?_ok_some hfield

/-- A required field is read from what stands under its key. -/
theorem Sorted.required (hs : Sorted members) {value : Json} {a : α}
    (h : last? members key = some value) (hread : read value = .ok a) :
    members.required key read = .ok a := by
  simp [Members.required, hs.field?_some h hread]

/-- A required field depends on nothing but what stands under its key. -/
theorem Sorted.required_congr {members' : Members} (hs : Sorted members')
    (h : last? members key = last? members' key) {a : α} (hok : members.required key read = .ok a) :
    members'.required key read = .ok a := by
  obtain ⟨value, hvalue, hread⟩ := required_ok hok
  exact hs.required (h ▸ hvalue) hread

/-- A field with a default that was read is what stands under its key, or the default if nothing
does. -/
theorem defaulted_ok {default a : α} (h : members.defaulted key default read = .ok a) :
    last? members key = none ∧ a = default
      ∨ ∃ value, last? members key = some value ∧ read value = .ok a := by
  unfold defaulted at h
  cases hfield : members.field? key read with
  | error e => simp [hfield] at h
  | ok found =>
      cases found with
      | none =>
          obtain rfl : default = a := by simpa [hfield] using h
          exact .inl ⟨field?_ok_none hfield, rfl⟩
      | some b =>
          obtain rfl : b = a := by simpa [hfield] using h
          exact .inr (field?_ok_some hfield)

/-- A field with a default is the default if nothing stands under its key. -/
theorem defaulted_none {default : α} (h : last? members key = none) :
    members.defaulted key default read = .ok default := by
  simp [defaulted, field?_none h]

/-- A field with a default is read from what stands under its key. -/
theorem Sorted.defaulted (hs : Sorted members) {default : α} {value : Json} {a : α}
    (h : last? members key = some value) (hread : read value = .ok a) :
    members.defaulted key default read = .ok a := by
  simp [Members.defaulted, hs.field?_some h hread]

/-- A field with a default depends on nothing but what stands under its key. -/
theorem Sorted.defaulted_congr {members' : Members} (hs : Sorted members')
    (h : last? members key = last? members' key) {default a : α}
    (hok : members.defaulted key default read = .ok a) :
    members'.defaulted key default read = .ok a := by
  rcases defaulted_ok hok with ⟨hnone, rfl⟩ | ⟨value, hvalue, hread⟩
  · exact defaulted_none (h ▸ hnone)
  · exact hs.defaulted (h ▸ hvalue) hread

/-- A field that may be absent or null and was read is what stands under its key, unless that is
null. -/
theorem optional_ok {found : Option α} (h : members.optional key read = .ok found) :
    (last? members key = none ∨ last? members key = some .null) ∧ found = none
      ∨ ∃ value a, last? members key = some value ∧ value ≠ .null ∧ read value = .ok a
          ∧ found = some a := by
  rcases defaulted_ok h with ⟨hnone, rfl⟩ | ⟨value, hvalue, hread⟩
  · exact .inl ⟨.inl hnone, rfl⟩
  · -- Null is taken out before the value is read, so a read value is never null.
    by_cases hnull : value = .null
    · subst hnull
      obtain rfl : none = found := by simpa using hread
      exact .inl ⟨.inr hvalue, rfl⟩
    · have hmap : (read value).map some = .ok found := by
        cases value <;> first | exact absurd rfl hnull | exact hread
      obtain ⟨a, ha, rfl⟩ := map_ok_iff.1 hmap
      exact .inr ⟨value, a, hvalue, hnull, ha, rfl⟩

/-- What was found in a field that may be absent or null is what stands under its key. -/
theorem exists_of_mem_optional {found : Option α} (h : members.optional key read = .ok found)
    {a : α} (ha : a ∈ found) :
    ∃ value, last? members key = some value ∧ value ≠ .null ∧ read value = .ok a := by
  rcases optional_ok h with ⟨-, rfl⟩ | ⟨value, b, hvalue, hnull, hread, rfl⟩
  · cases ha
  · cases ha
    exact ⟨value, hvalue, hnull, hread⟩

/-- An optional field is none if nothing stands under its key. -/
theorem optional_none (h : last? members key = none) : members.optional key read = .ok none :=
  defaulted_none h

/-- An optional field is none if null stands under its key. -/
theorem Sorted.optional_null (hs : Sorted members) (h : last? members key = some .null) :
    members.optional key read = .ok none :=
  hs.defaulted h rfl

/-- An optional field is read from what stands under its key, if that is not null. -/
theorem Sorted.optional_some (hs : Sorted members) {value : Json} {a : α}
    (h : last? members key = some value) (hnull : value ≠ .null) (hread : read value = .ok a) :
    members.optional key read = .ok (some a) := by
  refine hs.defaulted h ?_
  cases value <;> first | exact absurd rfl hnull | simp [hread, Except.map]

end

end Members

/-- A value in normal form is kept as it is. -/
theorem CanonicalJson.ofJson_value (value : CanonicalJson) :
    CanonicalJson.ofJson value.value = value := by
  cases value with
  | mk v hv => simp [ofJson, hv]

/-- A value in normal form is kept as it is, also after it was brought into normal form once
more. -/
theorem CanonicalJson.ofJson_normalize_value (value : CanonicalJson) :
    CanonicalJson.ofJson value.value.normalize = value := by
  rw [value.normal, value.ofJson_value]

/-! ### Lists -/

/-- Whatever stands in the second of two related lists is related to something in the first. -/
theorem exists_mem_of_forall₂ {α β : Type} {R : α → β → Prop} {left : List α} {right : List β}
    (h : List.Forall₂ R left right) {b : β} (hb : b ∈ right) : ∃ a ∈ left, R a b := by
  induction h with
  | nil => cases hb
  | @cons first found left right hfirst _ ih =>
      rcases List.mem_cons.1 hb with rfl | hb
      · exact ⟨first, List.mem_cons_self, hfirst⟩
      · obtain ⟨a, ha, hab⟩ := ih hb
        exact ⟨a, List.mem_cons_of_mem _ ha, hab⟩

namespace Json

open Members

section
variable {α : Type} {read : Json → Except Mismatch α} {values : List Json} {items : List α}

/-- A list is read where each value is read as the item at its place. Facts about lists of items
come from Mathlib through this. -/
theorem readItems_ok_iff :
    readItems read values = .ok items
      ↔ List.Forall₂ (fun value a => read value = .ok a) values items := by
  induction values generalizing items with
  | nil => rw [readItems, List.forall₂_nil_left_iff, Except.ok.injEq, eq_comm]
  | cons value rest ih =>
      rw [readItems, List.forall₂_cons_left_iff]
      cases read value with
      | error cause => simp
      | ok a => simp [map_ok_iff, ih, eq_comm (a := items)]

/-- Items whose written forms read back one by one read back as a list. -/
theorem readList_written {write : α → Json} (h : ∀ a ∈ items, read (write a).normalize = .ok a) :
    readList read (Json.array (items.map write)).normalize = .ok items := by
  rw [Json.normalize, normalizeItems_eq_map, List.map_map]
  exact readItems_ok_iff.2 (List.forall₂_map_left_iff.2 (List.forall₂_same.2 h))

/-- What ties every value to what is read from it ties a list of values to what is read from it. -/
theorem map_eq_of_readItems {β : Type} {f : Json → β} {g : α → β}
    (hread : ∀ value a, read value = .ok a → f value = g a)
    (h : readItems read values = .ok items) :
    values.map f = items.map g := by
  have heach := (readItems_ok_iff.1 h).imp hread
  rwa [← List.forall₂_map_right_iff, ← List.forall₂_map_left_iff, List.forall₂_eq_eq_eq] at heach

/-- What holds of whatever is read from one of some values holds of every item of the list that is
read from them. -/
theorem forall_mem_of_readItems {p : α → Prop}
    (hread : ∀ value ∈ values, ∀ a, read value = .ok a → p a)
    (h : readItems read values = .ok items) : ∀ a ∈ items, p a := by
  intro a ha
  obtain ⟨value, hvalue, hok⟩ := exists_mem_of_forall₂ (readItems_ok_iff.1 h) ha
  exact hread value hvalue a hok

end

/-- A list was read from a list, item by item. -/
theorem readList_ok {α : Type} {read : Json → Except Mismatch α} {value : Json} {items : List α}
    (h : readList read value = .ok items) :
    ∃ values, value = .array values ∧ readItems read values = .ok items := by
  cases value with
  | array values => exact ⟨values, rfl, h⟩
  | _ => simp [readList, wrongType] at h

/-- A text was read from a text. -/
theorem readString_ok {value : Json} {text : String} (h : readString value = .ok text) :
    value = .string text := by
  cases value with
  | string s =>
      obtain rfl : s = text := by simpa [readString] using h
      rfl
  | _ => simp [readString, wrongType] at h

/-- A record was read from an object with its members. -/
theorem readRecord_ok {name : String} {value : Json} {members : Members}
    (h : readRecord name value = .ok members) : value = .object members := by
  cases value with
  | object found =>
      obtain rfl : found = members := by simpa [readRecord] using h
      rfl
  | _ => simp [readRecord, wrongType] at h

/-! ### Names of variants -/

/-- A tag with its position replaced by the name at that position. A name stays as it is. -/
def namedTag (names : List String) : Json → Json
  | .number (.integer (.ofNat place)) =>
      match names[place]? with
      | some name => .string name
      | none => .number (.integer (.ofNat place))
  | tag => tag

/-- A variant that is found under a name stands in the list with that name. -/
theorem mem_of_lookup {α : Type} {variants : List (String × α)} {name : String} {a : α}
    (h : variants.lookup name = some a) : (name, a) ∈ variants := by
  obtain ⟨before, after, rfl, -⟩ := List.lookup_eq_some_iff.1 h
  simp

/-- A variant that was read from a tag stands in the list under the name that the tag gives. -/
theorem readTag_ok {α : Type} {form : TagForm} {variants : List (String × α)} {tag : Json} {a : α}
    (h : readTag form variants tag = .ok a) :
    ∃ name, (name, a) ∈ variants ∧ namedTag (variants.map Prod.fst) tag = .string name := by
  cases tag with
  | string s =>
      simp only [readTag] at h
      cases hlookup : variants.lookup s with
      | none => simp [hlookup] at h
      | some b =>
          obtain rfl : b = a := by simpa [hlookup] using h
          exact ⟨s, mem_of_lookup hlookup, rfl⟩
  | number n =>
      cases n with
      | integer n =>
          simp only [readTag] at h
          split at h
          · -- A position counts from the front, so it is no negative number.
            rename_i hform
            obtain ⟨place, rfl⟩ := Int.eq_ofNat_of_zero_le hform.2
            rw [Int.toNat_natCast] at h
            cases hget : variants[place]? with
            | none => simp [hget] at h
            | some pair =>
                obtain ⟨name, b⟩ := pair
                obtain rfl : b = a := by simpa [hget] using h
                refine ⟨name, List.mem_of_getElem? hget, ?_⟩
                show namedTag _ (.number (.integer (.ofNat place))) = _
                simp [namedTag, hget]
          · simp [wrongType] at h
      | float negative magnitude => simp [readTag, wrongType] at h
  | _ => simp [readTag, wrongType] at h

/-- A bare name that was read stands for what was read, alone or as the only key of an object. -/
theorem readChoice_ok {α : Type} {variants : List (String × α)} {saysNothing : Json → Bool}
    {value : Json} {a : α} (h : readChoice variants saysNothing value = .ok a) :
    ∃ name, variants.lookup name = some a
      ∧ (value = .string name
        ∨ ∃ nothing, saysNothing nothing = true ∧ value = .object [(name, nothing)]) := by
  unfold readChoice at h
  split at h
  · rename_i name
    cases hlookup : variants.lookup name with
    | none => simp [hlookup] at h
    | some found =>
        obtain rfl : found = a := by simpa [hlookup] using h
        exact ⟨name, hlookup, .inl rfl⟩
  · rename_i name nothing
    cases hlookup : variants.lookup name with
    | none => simp [hlookup] at h
    | some found =>
        simp only [hlookup] at h
        split at h
        · rename_i hnothing
          cases h
          exact ⟨name, hlookup, .inr ⟨nothing, hnothing, rfl⟩⟩
        · simp [wrongType] at h
  · simp at h
  · simp [wrongType] at h

/-- A tagged object that was read: its tag names the variant, and the rest of its members is read as
that variant. -/
theorem readTagged_ok {α : Type} {name : String} {form : TagForm} {variants : List (String × α)}
    {value : Json} {a : α} {kept : Members}
    (h : readTagged name form variants value = .ok (a, .object kept)) :
    ∃ (members : Members) (tag : Json), value = .object members ∧ members.last? "type" = some tag
      ∧ readTag form variants tag = .ok a ∧ kept = members.keep (· != "type") := by
  cases value with
  | object members =>
      simp only [readTagged] at h
      cases htag : Members.required members "type" (readTag form variants) with
      | error e => simp [htag] at h
      | ok b =>
          simp only [htag, Except.ok.injEq, Prod.mk.injEq, Json.object.injEq] at h
          obtain ⟨rfl, rfl⟩ := h
          obtain ⟨tag, hlast, hread⟩ := Members.required_ok htag
          exact ⟨members, tag, rfl, hlast, hread, rfl⟩
  | array items =>
      cases items with
      | nil => simp [readTagged] at h
      | cons first rest =>
          simp only [readTagged] at h
          obtain ⟨b, -, hb⟩ := map_ok_iff.1 h
          simp at hb
  | _ => simp [readTagged, wrongType] at h

/-- A tagged object with sorted members is read by the name in its tag. -/
theorem readTagged_object {α : Type} {name : String} {form : TagForm}
    {variants : List (String × α)} {members : Members} (hs : members.Sorted) {tag : String} {a : α}
    (htag : members.last? "type" = some (.string tag)) (ha : variants.lookup tag = some a) :
    readTagged name form variants (.object members)
      = .ok (a, .object (members.keep (· != "type"))) := by
  have hread : readTag form variants (.string tag) = .ok a := by simp [readTag, ha]
  simp [readTagged, hs.required htag hread]

end Json

/-! ### The other members of a record -/

namespace OtherMembers

/-- Other members are determined by their entries, as the rest of them is proof. -/
theorem ext_entries {a b : OtherMembers} (h : a.entries = b.entries) : a = b := by
  cases a
  cases b
  cases h
  rfl

/-- Other members are what stands under their keys. -/
theorem ext_get? {a b : OtherMembers} (h : ∀ key, a.get? key = b.get? key) : a = b :=
  ext_entries (a.sorted.ext b.sorted h)

/-- What stands under a key of other members is in normal form. -/
theorem map_normalize_get? (others : OtherMembers) (key : String) :
    (others.get? key).map Json.normalize = others.get? key := by
  unfold get?
  conv => rhs; rw [← others.normal]
  rw [normalizeMembers_eq_mapValues, Members.last?_mapValues]

/-- What is read as other members of an object: everything but its type and its typed fields. -/
theorem get?_ofMembers (typed : List String) (members : Members) (key : String) :
    (ofMembers typed members).get? key
      = if key ∈ "type" :: typed then none else (members.last? key).map Json.normalize := by
  show Members.last? (Members.canonical _) key = _
  rw [Members.last?_canonical, Members.last?_keep]
  -- The reader drops `type` and the typed fields by two conditions that are here one list.
  by_cases hkey : key ∈ "type" :: typed
  · have hdrop : (key != "type" && !typed.contains key) = false := by
      rcases List.mem_cons.1 hkey with rfl | hkey
      · simp
      · simp [hkey]
    rw [hdrop, if_pos hkey]
    rfl
  · have hkeep : (key != "type" && !typed.contains key) = true := by
      simpa [not_or] using hkey
    rw [hkeep, if_neg hkey, if_pos rfl]

/-- The keys of typed fields do not occur among the other members, nor does `type`. This is what
keeps them apart when an object is written and read again. -/
def Avoids (others : OtherMembers) (typed : List String) : Prop :=
  ∀ key ∈ "type" :: typed, key ∉ others.keys

instance (others : OtherMembers) (typed : List String) : Decidable (others.Avoids typed) :=
  inferInstanceAs (Decidable (∀ key ∈ "type" :: typed, key ∉ others.keys))

section
variable {others : OtherMembers} {typed : List String}

/-- Nothing stands under the key of a typed field. -/
theorem Avoids.get?_eq_none (h : others.Avoids typed) {key : String}
    (hkey : key ∈ "type" :: typed) : others.get? key = none :=
  Members.last?_eq_none_iff.2 fun m hm heq =>
    h key hkey (List.mem_map.2 ⟨m, hm, heq⟩)

/-- No members avoid all fields. -/
theorem avoids_empty (typed : List String) : empty.Avoids typed :=
  fun key _ => by simp [keys, empty]

/-- What is read as other members avoids the typed fields. -/
theorem avoids_ofMembers (typed : List String) (members : Members) :
    (ofMembers typed members).Avoids typed := by
  intro key hkey hmem
  have hnone : (ofMembers typed members).get? key = none := by
    rw [get?_ofMembers, if_pos hkey]
  obtain ⟨m, hm, heq⟩ := List.mem_map.1 hmem
  exact Members.last?_eq_none_iff.1 hnone m hm heq

/-- Another member under a key that is no typed field. -/
theorem Avoids.set (h : others.Avoids typed) {key : String} (value : Json)
    (hkey : key ∉ "type" :: typed) : (others.set key value).Avoids typed := by
  intro sought hsought hmem
  have hne : ¬ key = sought := fun heq => hkey (heq ▸ hsought)
  have hnone : (others.set key value).get? sought = none := by
    show Members.last? (Members.canonical _) sought = none
    rw [Members.last?_canonical, Members.last?_append, Members.last?_cons, if_neg hne]
    exact congrArg (Option.map Json.normalize) (h.get?_eq_none hsought)
  obtain ⟨m, hm, heq⟩ := List.mem_map.1 hmem
  exact Members.last?_eq_none_iff.1 hnone m hm heq

end

/-- It makes no difference to the other members whether the type was taken out before. -/
theorem ofMembers_keep_type (typed : List String) (members : Members) :
    ofMembers typed (members.keep (· != "type")) = ofMembers typed members := by
  refine ext_get? fun key => ?_
  rw [get?_ofMembers, get?_ofMembers, Members.last?_keep]
  by_cases hkey : key ∈ "type" :: typed
  · rw [if_pos hkey, if_pos hkey]
  · have hne : (key != "type") = true := by
      simp only [List.mem_cons, not_or] at hkey
      simpa using hkey.1
    rw [if_neg hkey, if_neg hkey, hne, if_pos rfl]

end OtherMembers

namespace Members

/-- That members hold the normal form of some typed fields beside other members, and that nothing
else is to be found by the reader of a record with these fields. -/
structure Holds (members : Members) (typed : List String) (fields : Members)
    (others : OtherMembers) : Prop where
  /-- The members are sorted. -/
  sorted : members.Sorted
  /-- Under the name of a typed field stands that field. -/
  lookup : ∀ key ∈ typed, members.last? key = (fields.last? key).map Json.normalize
  /-- What is read as other members are the other members. -/
  others_eq : OtherMembers.ofMembers typed members = others

/-- The normal form of a written record holds what it was written from. All round trips of records
are read off this. -/
theorem holds_written {others : OtherMembers} {typed : List String} (h : others.Avoids typed)
    (fields : Members) (hfields : ∀ m ∈ fields, m.1 ∈ typed) :
    ∃ members : Members, (Json.object (fields ++ others.entries)).normalize = .object members
      ∧ members.Holds typed fields others := by
  refine ⟨_, normalize_object _, sorted_canonical _, ?_, ?_⟩
  · -- The other members stand behind the fields and would hide a field of the same name.
    intro key hkey
    have hnone : others.entries.last? key = none := h.get?_eq_none (List.mem_cons_of_mem _ hkey)
    rw [last?_canonical, last?_append, hnone, Option.none_or]
  · refine OtherMembers.ext_get? fun key => ?_
    rw [OtherMembers.get?_ofMembers]
    -- Under any other key there is no field, so what stands there is the other member.
    by_cases hkey : key ∈ "type" :: typed
    · rw [if_pos hkey, h.get?_eq_none hkey]
    · have hnone : fields.last? key = none :=
        last?_eq_none_iff.2 fun m hm heq => hkey (List.mem_cons_of_mem _ (heq ▸ hfields m hm))
      rw [if_neg hkey, last?_canonical, last?_append, hnone, Option.or_none]
      show ((others.get? key).map Json.normalize).map Json.normalize = others.get? key
      rw [others.map_normalize_get?, others.map_normalize_get?]

/-- With a type in front of its fields a written record holds the same, and the type besides. -/
theorem holds_tagged {others : OtherMembers} {typed : List String} (h : others.Avoids typed)
    (htype : "type" ∉ typed) (tag : String) (fields : Members)
    (hfields : ∀ m ∈ fields, m.1 ∈ typed) :
    ∃ members : Members,
      (Json.object (("type", .string tag) :: (fields ++ others.entries))).normalize
        = .object members
      ∧ members.last? "type" = some (.string tag)
      ∧ members.Holds typed fields others := by
  have hnone : (fields ++ others.entries).last? "type" = none := by
    have hfield : fields.last? "type" = none :=
      last?_eq_none_iff.2 fun m hm heq => htype (heq ▸ hfields m hm)
    have hother : others.entries.last? "type" = none := h.get?_eq_none List.mem_cons_self
    rw [last?_append, hother, hfield]
    rfl
  obtain ⟨members, heq, hold⟩ := holds_written h fields hfields
  -- The two normal forms differ under `type` only, so the facts about the one go over to the other.
  have hlast : ∀ key, key ≠ "type" →
      (canonical (("type", .string tag) :: (fields ++ others.entries))).last? key
        = members.last? key := by
    intro key hkey
    obtain rfl : (fields ++ others.entries).canonical = members := Json.object.inj heq
    rw [last?_canonical, last?_canonical, last?_cons, if_neg hkey.symm, Option.or_none]
  refine ⟨_, normalize_object _, ?_, sorted_canonical _, ?_, ?_⟩
  · rw [last?_canonical, last?_cons, hnone]
    rfl
  · intro key hkey
    rw [hlast key fun heq => htype (heq ▸ hkey), hold.lookup key hkey]
  · refine (OtherMembers.ext_get? fun key => ?_).trans hold.others_eq
    rw [OtherMembers.get?_ofMembers, OtherMembers.get?_ofMembers]
    by_cases hkey : key ∈ "type" :: typed
    · rw [if_pos hkey, if_pos hkey]
    · rw [if_neg hkey, if_neg hkey, hlast key fun heq => hkey (heq ▸ List.mem_cons_self)]

namespace Holds

variable {members : Members} {typed : List String} {fields : Members} {others : OtherMembers}
variable {α : Type} {key : String} {read : Json → Except Mismatch α}

/-- The members without their type hold the same fields. -/
theorem keep_type (h : members.Holds typed fields others) (htype : "type" ∉ typed) :
    (members.keep (· != "type")).Holds typed fields others where
  sorted := h.sorted.keep _
  lookup key hkey := by
    have hne : (key != "type") = true := by
      simpa using fun heq : key = "type" => htype (heq ▸ hkey)
    rw [last?_keep, hne, if_pos rfl, h.lookup key hkey]
  others_eq := by rw [OtherMembers.ofMembers_keep_type, h.others_eq]

/-- A typed field of a written record is read back as a required one. -/
theorem required (h : members.Holds typed fields others) (value : Json) (hkey : key ∈ typed) {a : α}
    (hvalue : fields.last? key = some value) (hread : read value.normalize = .ok a) :
    members.required key read = .ok a :=
  h.sorted.required (by rw [h.lookup key hkey, hvalue]; rfl) hread

/-- A typed field of a written record is read back as one with a default. -/
theorem defaulted (h : members.Holds typed fields others) (value : Json) (hkey : key ∈ typed)
    {default a : α} (hvalue : fields.last? key = some value)
    (hread : read value.normalize = .ok a) : members.defaulted key default read = .ok a :=
  h.sorted.defaulted (by rw [h.lookup key hkey, hvalue]; rfl) hread

/-- A field that is written where it has a value is read back, whether it has one or not. -/
theorem optional_map (h : members.Holds typed fields others) (write : α → Json) (hkey : key ∈ typed)
    {found : Option α} (hvalue : fields.last? key = found.map write)
    (hread : ∀ a ∈ found, (write a).normalize ≠ .null ∧ read (write a).normalize = .ok a) :
    members.optional key read = .ok found := by
  cases found with
  | none => exact Members.optional_none (by rw [h.lookup key hkey, hvalue]; rfl)
  | some a =>
      obtain ⟨hnull, hok⟩ := hread a rfl
      exact h.sorted.optional_some (by rw [h.lookup key hkey, hvalue]; rfl) hnull hok

/-- A field that is written as null where it has no value is read back too. -/
theorem optional_getD (h : members.Holds typed fields others) (write : α → Json)
    (hkey : key ∈ typed) {found : Option α}
    (hvalue : fields.last? key = some ((found.map write).getD .null))
    (hread : ∀ a ∈ found, (write a).normalize ≠ .null ∧ read (write a).normalize = .ok a) :
    members.optional key read = .ok found := by
  have hlast : members.last? key = some ((found.map write).getD .null).normalize := by
    rw [h.lookup key hkey, hvalue]
    rfl
  cases found with
  | none => exact h.sorted.optional_null hlast
  | some a =>
      obtain ⟨hnull, hok⟩ := hread a rfl
      exact h.sorted.optional_some hlast hnull hok

end Holds

end Members

/-- A written record with its type in front is read as the variant of that type, and what is left
of it holds what it was written from. -/
theorem Json.readTagged_written {others : OtherMembers} {typed : List String}
    (h : others.Avoids typed) (htype : "type" ∉ typed) {α : Type} (name : String) (form : TagForm)
    {variants : List (String × α)} {tag : String} {a : α} (ha : variants.lookup tag = some a)
    (fields : Members) (hfields : ∀ m ∈ fields, m.1 ∈ typed) :
    ∃ kept : Members,
      readTagged name form variants
          (Json.object (("type", .string tag) :: (fields ++ others.entries))).normalize
        = .ok (a, .object kept)
      ∧ kept.Holds typed fields others := by
  obtain ⟨members, heq, hlast, hold⟩ := Members.holds_tagged h htype tag fields hfields
  rw [heq, readTagged_object hold.sorted hlast ha]
  exact ⟨_, rfl, hold.keep_type htype⟩

end ImageImports
