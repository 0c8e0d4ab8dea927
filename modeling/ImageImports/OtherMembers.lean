import ImageImports.Json.Normal

/-!
# `ImageImports.OtherMembers`: the members of a node outside its typed fields

Trees carry more than their node types describe: positions, data of plugins, optional properties.
Every typed thing keeps those members as they are, sorted by key and in normal form, so that a tree
is written back unchanged except where it was edited. The member `type` is never among the members
read from an object, because the owner of the other members writes its own type.

Main definitions: `OtherMembers`, which stands for `Extra`, and `OtherMembers.ofMembers`, the
members of an object that no typed field took.
-/

set_option autoImplicit false

namespace ImageImports

open Json

/-- Members outside the typed fields of a node, sorted by key (`Extra`). Order and normal form are
part of the type, so two of these are equal exactly if they hold equal values under the same
keys. -/
structure OtherMembers where
  /-- The members. -/
  entries : Members
  /-- The keys increase, so no key occurs twice. -/
  sorted : entries.Sorted
  /-- The values are in normal form. -/
  normal : normalizeMembers entries = entries

namespace OtherMembers

instance : BEq OtherMembers := ⟨fun a b => sameMembers a.entries b.entries⟩

/-- No members at all. -/
def empty : OtherMembers := ⟨[], List.Pairwise.nil, rfl⟩

instance : Inhabited OtherMembers := ⟨empty⟩

/-- Members that are sorted with values in normal form are in normal form: sorting brings in no
value of its own. -/
theorem normal_sort (members : Members) :
    normalizeMembers (normalizeMembers members).sort = (normalizeMembers members).sort := by
  have h := normalize_normalize (.object members)
  simp only [Json.normalize] at h
  have h := Json.object.inj h
  rw [normalizeMembers_eq_mapValues (Members.sort _),
    Members.sort_of_sorted ((Members.sorted_sort _).mapValues _),
    ← normalizeMembers_eq_mapValues] at h
  exact h

/-- The sorted normal form of some members; of a repeated key the last value stays. -/
def normalized (members : Members) : OtherMembers :=
  ⟨(normalizeMembers members).sort, Members.sorted_sort _, normal_sort members⟩

/-- The members of an object other than `type` and the given typed fields: what the reader of a
record with further members leaves for `Extra`. -/
def ofMembers (typed : List String) (members : Members) : OtherMembers :=
  normalized (members.keep fun key => key != "type" && !typed.contains key)

/-- The value under a key. -/
def get? (others : OtherMembers) (key : String) : Option Json := others.entries.last? key

/-- The text under a key, if there is one (`get_str`). A value of another kind counts as absent. -/
def getString? (others : OtherMembers) (key : String) : Option String :=
  others.get? key >>= Json.string?

/-- The keys in their order. -/
def keys (others : OtherMembers) : List String := others.entries.map Prod.fst

/-- The position that a parser recorded, if any. -/
def position? (others : OtherMembers) : Option Json := others.get? "position"

/-- Puts a value under a key. -/
def set (others : OtherMembers) (key : String) (value : Json) : OtherMembers :=
  normalized (others.entries ++ [(key, value)])

/-- Takes a key out. -/
def erase (others : OtherMembers) (key : String) : OtherMembers where
  entries := others.entries.keep (· != key)
  sorted := others.sorted.keep _
  normal := by
    have h := others.normal
    rw [normalizeMembers_eq_mapValues] at h ⊢
    conv => rhs; rw [← h]
    simp only [Members.keep, Members.mapValues, List.filter_map]
    rfl

end OtherMembers

end ImageImports
