import ImageImports.Json.Normal

/-!
# `ImageImports.Proofs.Json.Lookup`: an object is what stands under its keys

Of an object only the last value under every key counts: its normal form depends on nothing else
(`Members.canonical_eq`). So two objects are compared key by key, and every operation on members is
known by what it does to a lookup: `last?_append`, `last?_keep`, `last?_insert`, `last?_sort` and
`last?_change` are those laws.

`Members.canonical` names the members of a normalized object.
-/

set_option autoImplicit false

namespace ImageImports

namespace Members

/-! ### Lookups -/

/-- There is nothing under a key of no members. -/
@[simp]
theorem last?_nil (key : String) : last? [] key = none := rfl

/-- What stands under a key is told by the members behind the first one, and by the first one if
they have no such key. -/
@[simp]
theorem last?_cons (key : String) (value : Json) (rest : Members) (sought : String) :
    last? ((key, value) :: rest) sought
      = (last? rest sought).or (if key = sought then some value else none) := by
  rw [last?]
  cases last? rest sought <;> rfl

/-- Of two groups of members the second one decides what stands under a key, if it has the key. A
written record is such a pair of groups. -/
@[simp]
theorem last?_append (front back : Members) (key : String) :
    last? (front ++ back) key = (last? back key).or (last? front key) := by
  -- The induction is on the front: what stands behind it always comes first.
  induction front with
  | nil => simp [last?]
  | cons head rest ih =>
      obtain ⟨k, v⟩ := head
      rw [List.cons_append, last?_cons, last?_cons, ih, Option.or_assoc]

/-- Nothing stands under a key exactly if no member has it. -/
theorem last?_eq_none_iff {members : Members} {key : String} :
    last? members key = none ↔ ∀ m ∈ members, m.1 ≠ key := by
  induction members with
  | nil => simp [last?]
  | cons head rest ih =>
      obtain ⟨k, v⟩ := head
      rw [last?_cons, Option.or_eq_none_iff, ih]
      by_cases hk : k = key
      · simp [hk]
      · simp [hk]

/-- Changing all values changes what stands under each key. -/
theorem last?_mapValues (f : Json → Json) (members : Members) (key : String) :
    last? (mapValues f members) key = (last? members key).map f := by
  induction members with
  | nil => rfl
  | cons head rest ih =>
      obtain ⟨k, v⟩ := head
      show last? ((k, f v) :: mapValues f rest) key = _
      rw [last?_cons, last?_cons, ih, Option.map_or]
      by_cases hk : k = key
      · simp [hk]
      · simp [hk]

/-- Keeping the members with some keys keeps what stands under these and nothing else. -/
theorem last?_keep (members : Members) (p : String → Bool) (key : String) :
    last? (keep members p) key = if p key then last? members key else none := by
  induction members with
  | nil => simp [keep, last?]
  | cons head rest ih =>
      obtain ⟨k, v⟩ := head
      -- Whether the head is kept depends on its key alone, so it matters only if that is the sought
      -- one.
      by_cases hp : p k
      · rw [show keep ((k, v) :: rest) p = (k, v) :: keep rest p from List.filter_cons_of_pos hp,
          last?_cons, last?_cons, ih]
        by_cases hk : k = key
        · subst hk
          simp [hp]
        · simp [hk]
      · rw [show keep ((k, v) :: rest) p = keep rest p from List.filter_cons_of_neg hp, ih,
          last?_cons]
        by_cases hk : k = key
        · subst hk
          simp [hp]
        · simp [hk]

/-! ### Sorted members -/

/-- The head of sorted members does not occur again. -/
theorem Sorted.last?_tail {key : String} {value : Json} {rest : Members}
    (h : Sorted ((key, value) :: rest)) : last? rest key = none := by
  refine last?_eq_none_iff.2 fun m hm heq => ?_
  have hlt := (List.pairwise_cons.1 h).1 m hm
  rw [heq] at hlt
  exact String.lt_irrefl _ hlt

/-- What is behind the first of some sorted members is sorted. -/
theorem Sorted.tail {head : String × Json} {rest : Members} (h : Sorted (head :: rest)) :
    Sorted rest :=
  (List.pairwise_cons.1 h).2

/-- Under sorted keys the last value under a key is also the first one, so a search from the front
finds the same value. -/
theorem Sorted.lookup_eq_last? {members : Members} (h : Sorted members) (key : String) :
    members.lookup key = last? members key := by
  induction members with
  | nil => rfl
  | cons head rest ih =>
      obtain ⟨k, v⟩ := head
      rw [List.lookup_cons, last?_cons, ih h.tail]
      by_cases hk : k = key
      · subst hk
        simp [h.last?_tail]
      · have hne : (key == k) = false := by simpa using Ne.symm hk
        simp [hk, hne]

/-- A key in front of the first one is in front of all and not among them. -/
theorem Sorted.last?_of_lt {key sought : String} {value : Json} {rest : Members}
    (h : Sorted ((key, value) :: rest)) (hlt : sought < key) :
    last? ((key, value) :: rest) sought = none := by
  refine last?_eq_none_iff.2 fun m hm heq => String.lt_irrefl sought ?_
  rcases List.mem_cons.1 hm with rfl | hm
  · exact heq ▸ hlt
  · exact String.lt_trans hlt (heq ▸ (List.pairwise_cons.1 h).1 m hm)

/-- After a member is put among sorted ones, its value stands under its key, and everything else is
as it was. -/
theorem Sorted.last?_insert {members : Members} (h : Sorted members) (key : String) (value : Json)
    (sought : String) :
    last? (members.insert key value) sought
      = if key = sought then some value else last? members sought := by
  induction members with
  | nil => simp [Members.insert, last?]
  | cons head rest ih =>
      obtain ⟨k, v⟩ := head
      simp only [Members.insert]
      -- The new member goes in front of the head, into its place, or somewhere behind it.
      split
      · rename_i hlt
        rw [last?_cons]
        by_cases hs : key = sought
        · subst hs
          simp [h.last?_of_lt hlt]
        · simp [hs]
      · split
        · rename_i heq
          subst heq
          rw [last?_cons, last?_cons]
          by_cases hs : key = sought
          · subst hs
            simp [h.last?_tail]
          · simp [hs]
        · rename_i hne
          rw [last?_cons, last?_cons, ih h.tail]
          by_cases hs : key = sought
          · subst hs
            simp
          · simp [hs]

/-- After some members are put among sorted ones, the last value of each key stands under it. -/
theorem last?_foldl_insert {members start : Members} (h : Sorted start) (key : String) :
    last? (members.foldl (fun sorted (k, v) => sorted.insert k v) start) key
      = (last? members key).or (last? start key) := by
  -- Insertion replaces, so a member that is inserted later hides those before it.
  induction members generalizing start with
  | nil => rfl
  | cons head rest ih =>
      obtain ⟨k, v⟩ := head
      rw [List.foldl_cons, ih (h.insert k v), h.last?_insert, last?_cons, Option.or_assoc]
      by_cases hk : k = key
      · simp [hk]
      · simp [hk]

/-- Sorting does not change what stands under a key. -/
theorem last?_sort (members : Members) (key : String) :
    last? members.sort key = last? members key := by
  unfold sort
  rw [last?_foldl_insert List.Pairwise.nil]
  simp [last?]

/-- Sorted members with the same value under every key are the same. -/
theorem Sorted.ext {a b : Members} (ha : Sorted a) (hb : Sorted b)
    (h : ∀ key, last? a key = last? b key) : a = b := by
  -- The heads are compared first. Without them the other members are again sorted and equal key by
  -- key, since a head does not occur behind itself.
  induction a generalizing b with
  | nil =>
      cases b with
      | nil => rfl
      | cons head rest =>
          obtain ⟨k, v⟩ := head
          have hk := h k
          rw [last?_cons, hb.last?_tail] at hk
          simp [last?] at hk
  | cons head rest ih =>
      obtain ⟨k, v⟩ := head
      cases b with
      | nil =>
          have hk := h k
          rw [last?_cons, ha.last?_tail] at hk
          simp [last?] at hk
      | cons head' rest' =>
          obtain ⟨k', v'⟩ := head'
          -- The smaller of the two first keys would be missing on the other side.
          have hkey : k = k' := by
            rcases Std.lt_trichotomy k k' with hlt | heq | hlt
            · have hk := h k
              rw [hb.last?_of_lt hlt, last?_cons, ha.last?_tail] at hk
              simp at hk
            · exact heq
            · have hk := h k'
              rw [ha.last?_of_lt hlt, last?_cons, hb.last?_tail] at hk
              simp at hk
          subst hkey
          have hvalue : v = v' := by
            have hk := h k
            rw [last?_cons, last?_cons, ha.last?_tail, hb.last?_tail] at hk
            simpa using hk
          have hrest : rest = rest' := by
            refine ih ha.tail hb.tail fun key => ?_
            by_cases hk : k = key
            · rw [← hk, ha.last?_tail, hb.last?_tail]
            · have hkey := h key
              rw [last?_cons, last?_cons] at hkey
              simpa [hk] using hkey
          rw [hvalue, hrest]

/-! ### The normal form of members -/

/-- The members of a normalized object: with values in normal form, sorted, and no key twice. Two
objects are equal in normal form exactly if these are. -/
def canonical (members : Members) : Members := (Json.normalizeMembers members).sort

/-- The normal form of an object has the normal form of its members. -/
theorem normalize_object (members : Members) :
    (Json.object members).normalize = .object members.canonical := rfl

/-- The normal form of members is sorted. -/
theorem sorted_canonical (members : Members) : Sorted members.canonical := sorted_sort _

/-- What stands under a key in normal form is the normal form of what stood there. -/
theorem last?_canonical (members : Members) (key : String) :
    last? members.canonical key = (last? members key).map Json.normalize := by
  unfold canonical
  rw [last?_sort, Json.normalizeMembers_eq_mapValues, last?_mapValues]

/-- The normal form of members depends on nothing but the normal form of what stands under every
key. -/
theorem canonical_eq {a b : Members}
    (h : ∀ key, (last? a key).map Json.normalize = (last? b key).map Json.normalize) :
    a.canonical = b.canonical :=
  Sorted.ext (sorted_canonical a) (sorted_canonical b) fun key => by
    rw [last?_canonical, last?_canonical, h key]

/-! ### Changing one member -/

/-- The members with what stands under a key changed. The change sees nothing where there is no
such member, and may leave nothing in the place of one. -/
def change (members : Members) (key : String) (f : Option Json → Option Json) : Members :=
  match f (members.last? key) with
  | some value => members.keep (· != key) ++ [(key, value)]
  | none => members.keep (· != key)

/-- A change affects nothing but what stands under its key, where it may put, replace or take out a
value. -/
theorem last?_change (members : Members) (key : String) (f : Option Json → Option Json)
    (sought : String) :
    last? (members.change key f) sought
      = if sought = key then f (last? members key) else last? members sought := by
  unfold change
  by_cases hs : sought = key
  · subst hs
    cases f (last? members sought) with
    | none => simp [last?_keep]
    | some value => simp [last?_append, last?]
  · have hne : ¬ key = sought := fun h => hs h.symm
    cases f (last? members key) with
    | none => simp [hs, last?_keep]
    | some value => simp [hs, hne, last?_append, last?_keep, last?]

end Members

end ImageImports
