import ImageImports.Proofs.Json.Canonical

/-!
# `ImageImports.Proofs.Json.Grammar`: the values that typed fields take

A typed field takes a value of some shape, and a shape is a predicate on values that mentions no
reader. `Members.Has` and `Members.MayHave` say what a record asks of the member under a key. In a
value in normal form a field is read exactly if its member is of its shape: one lemma for each way
to ask for a member (`Members.Sorted.exists_required_iff`, `exists_optional_iff`,
`exists_defaulted_iff`), each in terms of the shape of the value alone.
-/

set_option autoImplicit false

namespace ImageImports

/-! ### Success of readers -/

/-- A result that is only changed is there if it was there before. -/
theorem exists_map_iff {ε α β : Type} {x : Except ε α} {f : α → β} :
    (∃ b, x.map f = .ok b) ↔ ∃ a, x = .ok a := by
  cases x <;> simp [Except.map]

/-- Two steps succeed if the first one does and the second one does with its result. -/
theorem exists_bind_iff {ε α β : Type} {x : Except ε α} {f : α → Except ε β} :
    (∃ b, (x >>= f) = .ok b) ↔ ∃ a, x = .ok a ∧ ∃ b, f a = .ok b := by
  cases x <;> simp [bind, Except.bind]

/-- A reader whose last step cannot fail succeeds where its first step does. -/
theorem exists_bind_iff_of_ok {ε α β : Type} {x : Except ε α} {f : α → Except ε β}
    (h : ∀ a, ∃ b, f a = .ok b) : (∃ b, (x >>= f) = .ok b) ↔ ∃ a, x = .ok a := by
  simp [exists_bind_iff, h]

/-- A field that was checked is settled if it was read. What kind of fault it had otherwise makes no
difference. -/
theorem Checked.exists_settle_iff {α : Type} {x : Checked α} :
    (∃ a, x.settle = .ok a) ↔ ∃ a, x = .ok a := by
  simp only [settle_ok_iff]

/-- Two fields of a record are read together where each of them is. -/
theorem Checked.exists_both_iff {α β : Type} {x : Checked α} {y : Checked β} :
    (∃ p, (x.both y).settle = .ok p) ↔ (∃ a, x = .ok a) ∧ ∃ b, y = .ok b := by
  simp only [exists_settle_iff, both_ok_iff, Prod.exists, exists_and_left, exists_and_right]

/-! ### Shapes -/

namespace Json

/-- A text. -/
def IsText (value : Json) : Prop := ∃ text, value = .string text

/-- An object. -/
def IsObject (value : Json) : Prop := ∃ members, value = .object members

/-- Null, or a value of the given shape. Optional fields take values of this kind. -/
def NullOr (shape : Json → Prop) (value : Json) : Prop := value = .null ∨ shape value

/-- A list of values of the given shape. -/
def ListOf (shape : Json → Prop) (value : Json) : Prop :=
  ∃ items, value = .array items ∧ ∀ item ∈ items, shape item

/-- The name of a variant, or its position in the list of variants. Positions are taken where a
value was read before it was known what it is. -/
def IsTag {α : Type} (variants : List (String × α)) (a : α) (tag : Json) : Prop :=
  ∃ (place : Nat) (name : String), variants[place]? = some (name, a)
    ∧ (tag = .string name ∨ tag = Json.integer place)

/-- A bare name: one of some names, or an object with it as its only key and nothing under it. -/
def IsChoice (names : List String) (value : Json) : Prop :=
  ∃ name ∈ names, value = .string name ∨ value = .object [(name, .null)]
    ∨ value = .object [(name, .object [])]

end Json

namespace Members

open Json

/-- There is a member under the key, and it is of the shape. -/
def Has (members : Members) (key : String) (shape : Json → Prop) : Prop :=
  ∃ value, members.last? key = some value ∧ shape value

/-- There is no member under the key unless it is of the shape. -/
def MayHave (members : Members) (key : String) (shape : Json → Prop) : Prop :=
  ∀ value, members.last? key = some value → shape value

/-- Keeping the members under a key keeps what stands there. -/
theorem has_keep {members : Members} {key : String} {shape : Json → Prop} {p : String → Bool}
    (hkey : p key = true) : (members.keep p).Has key shape ↔ members.Has key shape := by
  unfold Has
  rw [last?_keep, if_pos hkey]

/-- Keeping the members under a key keeps what may stand there. -/
theorem mayHave_keep {members : Members} {key : String} {shape : Json → Prop} {p : String → Bool}
    (hkey : p key = true) : (members.keep p).MayHave key shape ↔ members.MayHave key shape := by
  unfold MayHave
  rw [last?_keep, if_pos hkey]

/-! ### Fields -/

section
variable {α : Type} {members : Members} {read : Json → Except Mismatch α} {shape : Json → Prop}

/-- A required field is read exactly if it is there and of the shape that its reader takes. Together
with its siblings for other fields it turns a reader into a shape, field by field. -/
theorem Sorted.exists_required_iff (hs : members.Sorted) (key : String)
    (h : ∀ value, members.last? key = some value → ((∃ a, read value = .ok a) ↔ shape value)) :
    (∃ a, members.required key read = .ok a) ↔ members.Has key shape := by
  constructor
  · rintro ⟨a, ha⟩
    obtain ⟨value, hvalue, hread⟩ := required_ok ha
    exact ⟨value, hvalue, (h value hvalue).1 ⟨a, hread⟩⟩
  · rintro ⟨value, hvalue, hshape⟩
    obtain ⟨a, hread⟩ := (h value hvalue).2 hshape
    exact ⟨a, hs.required hvalue hread⟩

/-- A field with a default is read exactly if it is missing or of the shape that its reader
takes. -/
theorem Sorted.exists_defaulted_iff (hs : members.Sorted) (key : String) {default : α}
    (h : ∀ value, members.last? key = some value → ((∃ a, read value = .ok a) ↔ shape value)) :
    (∃ a, members.defaulted key default read = .ok a) ↔ members.MayHave key shape := by
  constructor
  · rintro ⟨a, ha⟩ value hvalue
    rcases defaulted_ok ha with ⟨hnone, -⟩ | ⟨found, hfound, hread⟩
    · rw [hvalue] at hnone
      cases hnone
    · obtain rfl : found = value := Option.some.inj (hfound.symm.trans hvalue)
      exact (h found hvalue).1 ⟨a, hread⟩
  · intro hmay
    cases hlast : members.last? key with
    | none => exact ⟨default, defaulted_none hlast⟩
    | some value =>
        obtain ⟨a, hread⟩ := (h value hlast).2 (hmay value hlast)
        exact ⟨a, hs.defaulted hlast hread⟩

/-- An optional field is read exactly if it is missing, null or of the shape that its reader
takes. -/
theorem Sorted.exists_optional_iff (hs : members.Sorted) (key : String)
    (h : ∀ value, members.last? key = some value → ((∃ a, read value = .ok a) ↔ shape value)) :
    (∃ found, members.optional key read = .ok found) ↔ members.MayHave key (NullOr shape) := by
  refine hs.exists_defaulted_iff key fun value hvalue => ?_
  -- Null is taken whatever the reader makes of it, and any other value is left to the reader.
  by_cases hnull : value = .null
  · subst hnull
    exact ⟨fun _ => .inl rfl, fun _ => ⟨none, rfl⟩⟩
  · have hvalueRead : (∃ a, read value = .ok a) ↔ NullOr shape value := by
      rw [h value hvalue, NullOr, or_iff_right hnull]
    rw [← hvalueRead]
    cases value <;> first | exact absurd rfl hnull | exact exists_map_iff

end

end Members

/-! ### Values -/

namespace Json

variable {α : Type} {value : Json}

/-- A text is read exactly if the value is one. -/
theorem exists_readString_iff : (∃ text, readString value = .ok text) ↔ value.IsText := by
  constructor
  · rintro ⟨text, htext⟩
    exact ⟨text, readString_ok htext⟩
  · rintro ⟨text, rfl⟩
    exact ⟨text, rfl⟩

/-- Items are read exactly if each of them is of the shape that the reader of an item takes. -/
theorem exists_readItems_iff {read : Json → Except Mismatch α} {shape : Json → Prop}
    {items : List Json} (h : ∀ item ∈ items, ((∃ a, read item = .ok a) ↔ shape item)) :
    (∃ list, readItems read items = .ok list) ↔ ∀ item ∈ items, shape item := by
  induction items with
  | nil => simp [readItems]
  | cons item rest ih =>
      obtain ⟨hitem, hrest⟩ := List.forall_mem_cons.1 h
      rw [List.forall_mem_cons, ← hitem, ← ih hrest, readItems]
      cases hread : read item with
      | error cause => simp
      | ok a => simpa using exists_map_iff

/-- A list is read exactly if each of its items is. -/
theorem exists_readList_iff {read : Json → Except Mismatch α} {shape : Json → Prop}
    (h : ∀ items, value = .array items → ∀ item ∈ items,
      ((∃ a, read item = .ok a) ↔ shape item)) :
    (∃ list, readList read value = .ok list) ↔ ListOf shape value := by
  constructor
  · rintro ⟨list, hlist⟩
    obtain ⟨items, rfl, hitems⟩ := readList_ok hlist
    exact ⟨items, rfl, (exists_readItems_iff (h items rfl)).1 ⟨list, hitems⟩⟩
  · rintro ⟨items, rfl, hitems⟩
    exact (exists_readItems_iff (h items rfl)).2 hitems

/-- A name stands for the variant at its place if no two variants have the same name. -/
theorem lookup_eq_some_iff {variants : List (String × α)} (h : (variants.map Prod.fst).Nodup)
    {name : String} {a : α} :
    variants.lookup name = some a ↔ ∃ place : Nat, variants[place]? = some (name, a) := by
  rw [← List.mem_iff_getElem?]
  constructor
  · exact mem_of_lookup
  · intro hmem
    obtain ⟨before, after, rfl⟩ := List.append_of_mem hmem
    refine List.lookup_eq_some_iff.2 ⟨before, after, rfl, fun other hother => ?_⟩
    -- A variant in front of it with the same name would be the second one of that name.
    rw [List.map_append, List.map_cons, List.nodup_append] at h
    have hne := h.2.2 other.1 (List.mem_map_of_mem hother) name List.mem_cons_self
    simpa using fun heq => hne heq.symm

/-- A tag that may be a position is read as the variants that it names. -/
theorem readTag_eq_ok_iff {variants : List (String × α)} (h : (variants.map Prod.fst).Nodup)
    {a : α} {tag : Json} :
    readTag .nameOrPosition variants tag = .ok a ↔ IsTag variants a tag := by
  cases tag with
  | string name =>
      have hname : readTag .nameOrPosition variants (.string name) = .ok a
          ↔ variants.lookup name = some a := by
        rw [readTag]
        cases variants.lookup name <;> simp
      rw [hname, lookup_eq_some_iff h]
      simp [IsTag, Json.integer]
  | number n =>
      cases n with
      | integer n =>
          cases n with
          | ofNat place =>
              -- Of the numbers only a position of the list can be a tag.
              have hplace : readTag .nameOrPosition variants (Json.integer place) = .ok a
                  ↔ ∃ name, variants[place]? = some (name, a) := by
                rw [Json.integer, readTag]
                cases hget : variants[place]? with
                | none => simp [hget]
                | some found => simp [hget, Prod.ext_iff]
              refine hplace.trans (Iff.intro ?_ ?_)
              · rintro ⟨name, hname⟩
                exact ⟨place, name, hname, .inr rfl⟩
              · rintro ⟨other, name, hname, heq | heq⟩
                · cases heq
                · cases heq
                  exact ⟨name, hname⟩
          | negSucc n => simp [readTag, wrongType, IsTag, Json.integer]
      | float negative magnitude => simp [readTag, wrongType, IsTag, Json.integer]
  | _ => simp [readTag, wrongType, IsTag, Json.integer]

/-- A name is found among variants exactly if one of them has it. -/
theorem exists_lookup_iff {variants : List (String × α)} {name : String} :
    (∃ a, variants.lookup name = some a) ↔ name ∈ variants.map Prod.fst := by
  rw [← Option.isSome_iff_exists, List.lookup_isSome_iff]
  simp

/-- What may stand under the only key of a choice is null or an object without members. -/
theorem isNullOrEmpty_iff : isNullOrEmpty value = true ↔ value = .null ∨ value = .object [] := by
  cases value with
  | object members => cases members <;> simp [isNullOrEmpty]
  | _ => simp [isNullOrEmpty]

/-- A bare name is read if it is one of the names, whatever they stand for. -/
theorem exists_readChoice_iff {variants : List (String × α)} :
    (∃ a, readChoice variants isNullOrEmpty value = .ok a)
      ↔ IsChoice (variants.map Prod.fst) value := by
  constructor
  · rintro ⟨a, h⟩
    obtain ⟨name, hlookup, hvalue⟩ := readChoice_ok h
    refine ⟨name, exists_lookup_iff.1 ⟨a, hlookup⟩, ?_⟩
    rcases hvalue with rfl | ⟨nothing, hnothing, rfl⟩
    · exact .inl rfl
    · rcases isNullOrEmpty_iff.1 hnothing with rfl | rfl
      · exact .inr (.inl rfl)
      · exact .inr (.inr rfl)
  · rintro ⟨name, hname, hvalue⟩
    obtain ⟨a, hlookup⟩ := exists_lookup_iff.2 hname
    refine ⟨a, ?_⟩
    rcases hvalue with rfl | rfl | rfl <;> simp [readChoice, hlookup, isNullOrEmpty]

end Json

/-- The member under a key is read as the variant that it names. -/
theorem Members.Sorted.required_tag_iff {α : Type} {members : Members} (hs : members.Sorted)
    {variants : List (String × α)} (h : (variants.map Prod.fst).Nodup) {key : String} {a : α} :
    members.required key (Json.readTag .nameOrPosition variants) = .ok a
      ↔ members.Has key (Json.IsTag variants a) := by
  constructor
  · intro hread
    obtain ⟨tag, htag, htagRead⟩ := required_ok hread
    exact ⟨tag, htag, (Json.readTag_eq_ok_iff h).1 htagRead⟩
  · rintro ⟨tag, htag, hshape⟩
    exact hs.required htag ((Json.readTag_eq_ok_iff h).2 hshape)

/-- A tagged object is read where its tag names a variant and the rest of it is read as that one. -/
theorem Json.exists_readTagged_iff {α β : Type} {members : Members} (hs : members.Sorted)
    {name : String} {variants : List (String × α)} (h : (variants.map Prod.fst).Nodup)
    {f : α × Json → Except Mismatch β} :
    (∃ b, (readTagged name .nameOrPosition variants (.object members) >>= f) = .ok b)
      ↔ ∃ a, members.Has "type" (IsTag variants a)
        ∧ ∃ b, f (a, .object (members.keep (· != "type"))) = .ok b := by
  simp only [← hs.required_tag_iff h, exists_bind_iff, readTagged]
  cases Members.required members "type" (readTag .nameOrPosition variants) <;> simp

end ImageImports
