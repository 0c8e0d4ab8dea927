import ImageImports.Proofs.Json.Grammar
import ImageImports.Proofs.Mdast.Preservation

/-!
# `ImageImports.Proofs.Estree.Preservation`: embedded programs are carried through

An embedding that is read and written again is the JSON value that it was read from, with tags given
by their names and without null in the place of a program, of comments or of the text of a literal.
A program that has no typed form is the value that it was. `Embedding.carried` makes these changes
in the value itself.

What becomes of the types that no reader looks at is left to a `TagRule`. A program, a name and a
literal are read whatever their type is, and an embedding has no type of its own. So what is written
is what `TagRule.fixed` makes of the value: every program, name and literal gets the one type that
it can have, and the type of an embedding is lost. It is what `TagRule.untouched` makes of the
value, where all types stay, exactly if the types were these already (`Embedding.Fits`).

Main statement: `Embedding.toJson_eq_carried`.
-/

set_option autoImplicit false

namespace ImageImports.Estree

open Json Members Mdast

/-! ### Types that no reader looks at -/

/-- What becomes of the types that no reader looks at. One description of all changes serves for two
rules: the one that was meant and the one that is followed. -/
structure TagRule where
  /-- What becomes of the type of an embedding, which has none of its own. -/
  embedding : Option Json → Option Json
  /-- What becomes of the type of an object that can only have the type of the given name. -/
  single : String → Option Json → Option Json

/-- All types stay as they are. This is what is meant: a program and the members beside typed fields
are carried through untouched. -/
def TagRule.untouched : TagRule := ⟨id, fun _ tag => tag⟩

/-- An object that can only have one type gets that type, and an embedding has no type. This is what
is done. -/
def TagRule.fixed : TagRule := ⟨fun _ => none, fun name _ => some (.string name)⟩

/-- The rule makes the one type that is possible of the type that is there. Under the fixed rule it
always does; under the other one only where that type was there already. -/
def TagRule.Names (rule : TagRule) (name : String) (members : Members) : Prop :=
  (rule.single name (members.last? "type")).map Json.normalize = some (.string name)

/-! ### The changes -/

/-- A change of every item of a list. -/
def changeItems (f : Json → Json) : Json → Json
  | .array items => .array (items.map f)
  | value => value

section
variable (rule : TagRule)

/-- What becomes of a name: its type is put under the rule. All other members stay, locations
included. -/
def Identifier.carried : Json → Json
  | .object members => .object (Members.change members "type" (rule.single "Identifier"))
  | value => value

/-- What becomes of a string literal: its type is put under the rule, and a null in the place of its
written form goes. -/
def StringLiteral.carried : Json → Json
  | .object members =>
      .object ((Members.change members "type" (rule.single "Literal")).change "raw" dropNull)
  | value => value

/-- What becomes of a name bound by an import, by what it is read as. Its own tag is given by name,
and the one or two names in it are carried. -/
def ImportSpecifier.carried (value : Json) : Json :=
  match value, ImportSpecifier.ofJson .nameOrPosition value with
  | .object members, .ok (.named ..) =>
      .object (((nameType (SpecifierKind.names.map Prod.fst) members).change "imported"
        (Option.map (Identifier.carried rule))).change "local"
        (Option.map (Identifier.carried rule)))
  | .object members, .ok _ =>
      .object ((nameType (SpecifierKind.names.map Prod.fst) members).change "local"
        (Option.map (Identifier.carried rule)))
  | _, _ => value

/-- What becomes of a statement, by what it is read as. An import carries its specifiers and its
source, and an expression the name that it is. -/
def Statement.carried (value : Json) : Json :=
  match value, Statement.ofJson .nameOrPosition value with
  | .object members, .ok (.importDeclaration ..) =>
      .object (((nameType (StatementKind.names.map Prod.fst) members).change "specifiers"
        (Option.map (changeItems (ImportSpecifier.carried rule)))).change "source"
        (Option.map (StringLiteral.carried rule)))
  | .object members, .ok (.expression ..) =>
      .object ((nameType (StatementKind.names.map Prod.fst) members).change "expression"
        (Option.map (Identifier.carried rule)))
  | _, _ => value

/-- What becomes of a program in typed form. Its statements are carried, null in the place of its
comments is left out, and the way to run it is given by its name. -/
def Program.carried : Json → Json
  | .object members =>
      .object ((((Members.change members "type" (rule.single "Program")).change "sourceType"
        (Option.map namedChoice)).change "body"
        (Option.map (changeItems (Statement.carried rule)))).change "comments" dropNull)
  | value => value

/-- What becomes of an embedded program. One that has no typed form stays as it is, down to the last
member (`Opaque`). -/
def Fragment.carried (value : Json) : Json :=
  match Program.ofJson .nameOrPosition value with
  | .ok _ => Program.carried rule value
  | .error _ => value

/-- What becomes of an embedding. Its own type is put under the rule, null in the place of the
program is left out, and any other program is carried. -/
def Embedding.carried : Json → Json
  | .object members =>
      .object ((Members.change members "type" rule.embedding).change "estree" fun found =>
        (dropNull found).map (Fragment.carried rule))
  | value => value

/-! ### Values that the rule makes right -/

/-- Every item of a list has the property. -/
def EachItem (property : Json → Prop) : Json → Prop
  | .array items => ∀ item ∈ items, property item
  | _ => True

/-- The rule gives a name its type. -/
def Identifier.Fits : Json → Prop
  | .object members => rule.Names "Identifier" members
  | _ => True

/-- The rule gives a string literal its type. -/
def StringLiteral.Fits : Json → Prop
  | .object members => rule.Names "Literal" members
  | _ => True

/-- The rule gives the names in a specifier their type. -/
def ImportSpecifier.Fits (value : Json) : Prop :=
  match value, ImportSpecifier.ofJson .nameOrPosition value with
  | .object members, .ok (.named ..) =>
      Members.MayHave members "imported" (Identifier.Fits rule)
        ∧ Members.MayHave members "local" (Identifier.Fits rule)
  | .object members, .ok _ => Members.MayHave members "local" (Identifier.Fits rule)
  | _, _ => True

/-- The rule gives the names and the literal in a statement their types. -/
def Statement.Fits (value : Json) : Prop :=
  match value, Statement.ofJson .nameOrPosition value with
  | .object members, .ok (.importDeclaration ..) =>
      Members.MayHave members "specifiers" (EachItem (ImportSpecifier.Fits rule))
        ∧ Members.MayHave members "source" (StringLiteral.Fits rule)
  | .object members, .ok (.expression ..) =>
      Members.MayHave members "expression" (Identifier.Fits rule)
  | _, _ => True

/-- The rule gives a program and all that is in it their types. -/
def Program.Fits : Json → Prop
  | .object members =>
      rule.Names "Program" members
        ∧ Members.MayHave members "body" (EachItem (Statement.Fits rule))
  | _ => True

/-- The rule gives a program that has a typed form, and all that is in it, their types. -/
def Fragment.Fits (value : Json) : Prop :=
  ∀ program, Program.ofJson .nameOrPosition value = .ok program → Program.Fits rule value

/-- The rule leaves an embedding without a type and gives all that is in it their types. -/
def Embedding.Fits : Json → Prop
  | .object members =>
      rule.embedding (Members.last? members "type") = none
        ∧ Members.MayHave members "estree" (NullOr (Fragment.Fits rule))
  | _ => True

end

/-! ### The fixed rule -/

/-- The fixed rule gives every name its type. -/
theorem Identifier.fits_fixed (value : Json) : Identifier.Fits .fixed value := by
  cases value <;> first | exact rfl | trivial

/-- The fixed rule gives every string literal its type. -/
theorem StringLiteral.fits_fixed (value : Json) : StringLiteral.Fits .fixed value := by
  cases value <;> first | exact rfl | trivial

/-- The fixed rule gives the names in every specifier their type. -/
theorem ImportSpecifier.fits_fixed (value : Json) : ImportSpecifier.Fits .fixed value := by
  unfold Fits
  split
  · exact ⟨fun _ _ => Identifier.fits_fixed _, fun _ _ => Identifier.fits_fixed _⟩
  · exact fun _ _ => Identifier.fits_fixed _
  · trivial

/-- What holds of all values holds of each item of a list. -/
theorem eachItem_of_forall {property : Json → Prop} (h : ∀ value, property value)
    (value : Json) : EachItem property value := by
  cases value <;> first | exact fun item _ => h item | trivial

/-- The fixed rule gives the names and the literal in every statement their types. -/
theorem Statement.fits_fixed (value : Json) : Statement.Fits .fixed value := by
  unfold Fits
  split
  · exact ⟨fun _ _ => eachItem_of_forall ImportSpecifier.fits_fixed _,
      fun _ _ => StringLiteral.fits_fixed _⟩
  · exact fun _ _ => Identifier.fits_fixed _
  · trivial

/-- The fixed rule gives everything its type, whatever type it had. -/
theorem Embedding.fits_fixed (value : Json) : Embedding.Fits .fixed value := by
  have hprogram : ∀ value, Program.Fits .fixed value := by
    intro value
    cases value <;>
      first | exact ⟨rfl, fun _ _ => eachItem_of_forall Statement.fits_fixed _⟩ | trivial
  cases value <;> first | exact ⟨rfl, fun _ _ => .inr fun _ _ => hprogram _⟩ | trivial

/-! ### Written records -/

/-- A record is written as the changed object exactly if the type and the typed fields are as in the
changed object, where the change leaves other members alone. -/
theorem written_eq_iff {typed : List String} (front : Members) {members changed : Members}
    (hfront : ∀ m ∈ front, m.1 ∈ "type" :: typed)
    (hothers : ∀ key, key ∉ "type" :: typed → changed.last? key = members.last? key) :
    (Json.object (front ++ (OtherMembers.ofMembers typed members).entries)).normalize
        = (Json.object changed).normalize
      ↔ ∀ key ∈ "type" :: typed,
          (front.last? key).map Json.normalize = (changed.last? key).map Json.normalize := by
  -- A key is either written by the front, or kept with the other members, never both.
  have hwritten : ∀ key, ((front ++ (OtherMembers.ofMembers typed members).entries).last? key).map
      Json.normalize = if key ∈ "type" :: typed then (front.last? key).map Json.normalize
        else (changed.last? key).map Json.normalize := by
    intro key
    have hother : (OtherMembers.ofMembers typed members).entries.last? key = _ :=
      OtherMembers.get?_ofMembers typed members key
    rw [last?_append, hother]
    by_cases hkey : key ∈ "type" :: typed
    · rw [if_pos hkey, if_pos hkey, Option.none_or]
    · have hnone : front.last? key = none :=
        last?_eq_none_iff.2 fun m hm heq => hkey (heq ▸ hfront m hm)
      rw [if_neg hkey, if_neg hkey, hnone, Option.or_none, hothers key hkey]
      cases members.last? key with
      | none => rfl
      | some value => exact congrArg some value.normalize_normalize
  -- In normal form two objects are equal exactly if all keys lead to the same values.
  rw [normalize_object, normalize_object, Json.object.injEq]
  constructor
  · intro heq key hkey
    have hlast := congrArg (fun found => last? found key) heq
    simp only [last?_canonical] at hlast
    rw [← hlast, hwritten, if_pos hkey]
  · intro h
    refine canonical_eq fun key => ?_
    rw [hwritten]
    split
    · rename_i hkey
      exact h key hkey
    · rfl

/-! ### Fields -/

section
variable {α : Type} {members : Members} {key : String} {read : Json → Except Mismatch α}
variable {write : α → Json} {carried : Json → Json} {fits : Json → Prop}

/-- A required field is written as it is carried exactly if what it was read from fits. -/
theorem required_carried_iff
    (hread : ∀ value a, read value = .ok a →
      ((write a).normalize = (carried value).normalize ↔ fits value)) {a : α}
    (h : members.required key read = .ok a) :
    some (write a).normalize = ((members.last? key).map carried).map Json.normalize
      ↔ members.MayHave key fits := by
  obtain ⟨value, hvalue, hok⟩ := required_ok h
  simp [MayHave, hvalue, hread value a hok]

/-- A list is written as it is carried exactly if each of the items that it was read from fits. -/
theorem readList_carried_iff
    (hread : ∀ value a, read value = .ok a →
      ((write a).normalize = (carried value).normalize ↔ fits value)) (value : Json)
    (items : List α) (h : readList read value = .ok items) :
    (Json.array (items.map write)).normalize = (changeItems carried value).normalize
      ↔ EachItem fits value := by
  obtain ⟨values, rfl, hitems⟩ := readList_ok h
  rw [changeItems, Json.normalize, Json.normalize, normalizeItems_eq_map, normalizeItems_eq_map,
    List.map_map, List.map_map, Json.array.injEq]
  show _ ↔ ∀ item ∈ values, fits item
  -- The items are written in their order, so the lists are equal where they are item by item.
  have heach := readItems_ok_iff.1 hitems
  clear h hitems
  induction heach with
  | nil => simp
  | cons ha _ ih =>
      simp only [List.map_cons, List.cons.injEq, List.forall_mem_cons, Function.comp_apply,
        hread _ _ ha]
      exact and_congr_right fun _ => ih

/-- A field that is left out where it is null is written as it is carried exactly if what it was
read from fits. -/
theorem optional_carried_iff
    (hread : ∀ value a, value ≠ .null → read value = .ok a →
      ((write a).normalize = (carried value).normalize ↔ fits value)) {found : Option α}
    (h : members.optional key read = .ok found) :
    (found.map write).map Json.normalize
        = ((dropNull (members.last? key)).map carried).map Json.normalize
      ↔ members.MayHave key (NullOr fits) := by
  rcases optional_ok h with ⟨hnone | hnull, rfl⟩ | ⟨value, a, hvalue, hnull, hok, rfl⟩
  · simp [MayHave, hnone, dropNull]
  · simp [MayHave, NullOr, hnull, dropNull]
  · have hdrop : dropNull (some value) = some value := by
      cases value <;> first | exact absurd rfl hnull | rfl
    simp [MayHave, NullOr, hvalue, hdrop, hnull, hread value a hnull hok]

end

/-! ### Fragments -/

section
variable (rule : TagRule)

/-- A name is written as it is carried exactly if the rule gives it its type. The name itself and
the other members are written as they were. -/
theorem Identifier.toJson_eq_carried_iff (value : Json) (identifier : Identifier)
    (h : Identifier.ofJson value = .ok identifier) :
    identifier.toJson.normalize = (Identifier.carried rule value).normalize
      ↔ Identifier.Fits rule value := by
  obtain ⟨hname⟩ := readFrom_of_ofJson h
  have hname := last?_of_string hname
  refine (written_eq_iff _ (by simp) fun key hkey => ?_).trans ?_
  · simp only [List.mem_cons, List.not_mem_nil, or_false, not_or] at hkey
    rw [last?_change, if_neg hkey.1]
  · simp [last?_change, hname, Fits, TagRule.Names, eq_comm, Json.normalize]

/-- A string literal is written as it is carried exactly if the rule gives it its type. -/
theorem StringLiteral.toJson_eq_carried_iff (value : Json) (literal : StringLiteral)
    (h : StringLiteral.ofJson value = .ok literal) :
    literal.toJson.normalize = (StringLiteral.carried rule value).normalize
      ↔ StringLiteral.Fits rule value := by
  obtain @⟨members, text, raw, htext, hraw⟩ := readFrom_of_ofJson h
  have htext := last?_of_string htext
  -- The text of the literal as it is written is null or a text, so there is nothing to fit in it.
  have hread : ∀ value text, value ≠ .null → readString value = .ok text →
      ((Json.string text).normalize = (id value).normalize ↔ True) :=
    fun value text _ hread => by simp [readString_ok hread]
  have hraw := optional_carried_iff hread hraw
  simp only [Option.map_id, MayHave, NullOr, or_true, implies_true, iff_true] at hraw
  refine (written_eq_iff (_ ++ whenSome "raw" Json.string raw) ?_ fun key hkey => ?_).trans ?_
  · cases raw <;> simp [whenSome]
  · simp only [List.mem_cons, List.not_mem_nil, or_false, not_or] at hkey
    rw [last?_change, if_neg hkey.2.2, last?_change, if_neg hkey.1]
  · simp [last?_change, htext, hraw, Fits, TagRule.Names, eq_comm, Json.normalize]

/-- A name in a statement or a specifier is written as it is carried exactly if the rule gives it
its type. -/
theorem Identifier.required_carried_iff {members : Members} {key : String}
    {identifier : Identifier} (h : members.required key Identifier.ofJson = .ok identifier) :
    some identifier.toJson.normalize
        = ((members.last? key).map (Identifier.carried rule)).map Json.normalize
      ↔ members.MayHave key (Identifier.Fits rule) :=
  Estree.required_carried_iff (Identifier.toJson_eq_carried_iff rule) h

/-- A specifier that only binds a name, under the type of its kind. -/
theorem ImportSpecifier.local_eq_carried_iff {members : Members} {tag : Json}
    {kind : SpecifierKind} {typeName : String} {binding : Identifier}
    (hlast : members.last? "type" = some tag)
    (htag : readTag .nameOrPosition SpecifierKind.names tag = .ok kind)
    (hkind : ∀ name, (name, kind) ∈ SpecifierKind.names → name = typeName)
    (hbinding : (members.keep (· != "type")).required "local" Identifier.ofJson = .ok binding) :
    (Json.object ([("type", .string typeName), ("local", binding.toJson)]
          ++ (OtherMembers.ofMembers ["local"] (members.keep (· != "type"))).entries)).normalize
        = (Json.object ((nameType (SpecifierKind.names.map Prod.fst) members).change "local"
            (Option.map (Identifier.carried rule)))).normalize
      ↔ members.MayHave "local" (Identifier.Fits rule) := by
  obtain ⟨found, hmem, htype⟩ := nameType_of_read hlast htag
  obtain rfl := hkind found hmem
  have hbinding := Identifier.required_carried_iff rule hbinding
  rw [last?_keep_type (by decide), mayHave_keep (by decide)] at hbinding
  rw [OtherMembers.ofMembers_keep_type]
  refine (written_eq_iff _ (by simp) fun key hkey => ?_).trans ?_
  · simp only [List.mem_cons, List.not_mem_nil, or_false, not_or] at hkey
    rw [last?_change, if_neg hkey.2, last?_nameType hkey.1]
  · simp [last?_change, last?_nameType, htype, ← hbinding]

/-- A name bound by an import is written as it is carried exactly if the rule gives the names in it
their type. Its own type was looked at, and is written by its name. -/
theorem ImportSpecifier.toJson_eq_carried_iff (value : Json) (specifier : ImportSpecifier)
    (h : ImportSpecifier.ofJson .nameOrPosition value = .ok specifier) :
    specifier.toJson.normalize = (ImportSpecifier.carried rule value).normalize
      ↔ ImportSpecifier.Fits rule value := by
  -- What the reader makes of the value says its kind, and the changes go by that kind.
  cases readFrom_of_ofJson h with
  | whole htagged hbinding | star htagged hbinding =>
      obtain ⟨members, tag, rfl, hlast, htag, rfl⟩ := readTagged_ok htagged
      unfold carried Fits
      rw [h]
      exact local_eq_carried_iff rule hlast htag (by simp [SpecifierKind.names]) hbinding
  | named htagged himported hbinding =>
      obtain ⟨members, tag, rfl, hlast, htag, rfl⟩ := readTagged_ok htagged
      unfold carried Fits
      rw [h]
      obtain ⟨found, hmem, htype⟩ := nameType_of_read hlast htag
      obtain rfl : found = "ImportSpecifier" := by simpa [SpecifierKind.names] using hmem
      have himported := Identifier.required_carried_iff rule himported
      have hbinding := Identifier.required_carried_iff rule hbinding
      rw [last?_keep_type (by decide), mayHave_keep (by decide)] at himported hbinding
      rw [OtherMembers.ofMembers_keep_type, toJson]
      refine (written_eq_iff _ (by simp) fun key hkey => ?_).trans ?_
      · simp only [List.mem_cons, List.not_mem_nil, or_false, not_or] at hkey
        rw [last?_change, if_neg hkey.2.2, last?_change, if_neg hkey.2.1, last?_nameType hkey.1]
      · simp [last?_change, last?_nameType, htype, ← himported, ← hbinding]

/-- A statement is written as it is carried exactly if the rule gives the names and the literal in
it their types. -/
theorem Statement.toJson_eq_carried_iff (value : Json) (statement : Statement)
    (h : Statement.ofJson .nameOrPosition value = .ok statement) :
    statement.toJson.normalize = (Statement.carried rule value).normalize
      ↔ Statement.Fits rule value := by
  -- The type is the same on both sides, as the tag was read from it, so only the fields count.
  cases readFrom_of_ofJson h with
  | importDeclaration htagged hspecifiers hsource =>
      obtain ⟨members, tag, rfl, hlast, htag, rfl⟩ := readTagged_ok htagged
      unfold carried Fits
      rw [h]
      obtain ⟨found, hmem, htype⟩ := nameType_of_read hlast htag
      obtain rfl : found = "ImportDeclaration" := by simpa [StatementKind.names] using hmem
      have hspecifiers := required_carried_iff
        (readList_carried_iff (ImportSpecifier.toJson_eq_carried_iff rule)) hspecifiers
      have hsource := required_carried_iff
        (StringLiteral.toJson_eq_carried_iff rule) hsource
      rw [last?_keep_type (by decide), mayHave_keep (by decide)] at hspecifiers hsource
      rw [OtherMembers.ofMembers_keep_type, toJson]
      refine (written_eq_iff _ (by simp) fun key hkey => ?_).trans ?_
      · simp only [List.mem_cons, List.not_mem_nil, or_false, not_or] at hkey
        rw [last?_change, if_neg hkey.2.2, last?_change, if_neg hkey.2.1, last?_nameType hkey.1]
      · simp [last?_change, last?_nameType, htype, ← hspecifiers, ← hsource]
  | expression htagged hidentifier =>
      obtain ⟨members, tag, rfl, hlast, htag, rfl⟩ := readTagged_ok htagged
      unfold carried Fits
      rw [h]
      obtain ⟨found, hmem, htype⟩ := nameType_of_read hlast htag
      obtain rfl : found = "ExpressionStatement" := by simpa [StatementKind.names] using hmem
      have hidentifier := Identifier.required_carried_iff rule hidentifier
      rw [last?_keep_type (by decide), mayHave_keep (by decide)] at hidentifier
      rw [OtherMembers.ofMembers_keep_type, toJson]
      refine (written_eq_iff _ (by simp) fun key hkey => ?_).trans ?_
      · simp only [List.mem_cons, List.not_mem_nil, or_false, not_or] at hkey
        rw [last?_change, if_neg hkey.2, last?_nameType hkey.1]
      · simp [last?_change, last?_nameType, htype, ← hidentifier]

/-- The way to run a program is written by its name, whether it was given by its name or as an
object with one key. -/
theorem map_namedChoice_of_sourceType {members : Members} {key : String} {sourceType : SourceType}
    (h : members.required key (readChoice SourceType.names isNull) = .ok sourceType) :
    (members.last? key).map namedChoice = some (.string sourceType.name) := by
  obtain ⟨name, hlookup, hname⟩ := map_namedChoice h
  have hmem := mem_of_lookup hlookup
  simp only [SourceType.names, List.mem_cons, Prod.mk.injEq, List.not_mem_nil, or_false] at hmem
  rcases hmem with ⟨rfl, rfl⟩ | ⟨rfl, rfl⟩ <;> exact hname

/-- Comments that were read are written as what they were read from. -/
theorem comments_eq_dropNull {members : Members} {key : String}
    {comments : Option (List CanonicalJson)}
    (h : members.optional key (readList fun v => .ok (CanonicalJson.ofJson v)) = .ok comments) :
    (comments.map fun list => Json.array (list.map CanonicalJson.value)).map Json.normalize
      = (dropNull (members.last? key)).map Json.normalize := by
  have hread : ∀ value comment,
      (Except.ok (CanonicalJson.ofJson value) : Except Mismatch CanonicalJson) = .ok comment →
      (comment.value.normalize = (id value).normalize ↔ True) := by
    rintro value comment ⟨⟩
    simp [CanonicalJson.ofJson, normalize_normalize]
  have hcarried := optional_carried_iff
    (fun value list (_ : value ≠ .null) => readList_carried_iff hread value list) h
  have hkept : changeItems id = id := by
    funext value
    cases value <;> simp [changeItems]
  rw [hkept, Option.map_id, id] at hcarried
  -- Every comment is kept, so there is nothing to fit in them.
  exact hcarried.2 fun value _ => .inr (eachItem_of_forall (fun _ => trivial) value)

/-- A program is written as it is carried exactly if the rule gives it and everything in it the
right type. -/
theorem Program.toJson_eq_carried_iff {value : Json} {program : Program}
    (h : Program.ofJson .nameOrPosition value = .ok program) :
    program.toJson.normalize = (Program.carried rule value).normalize
      ↔ Program.Fits rule value := by
  obtain @⟨members, sourceType, body, comments, hsource, hbody, hcomments⟩ := readFrom_of_ofJson h
  have hsource := map_namedChoice_of_sourceType hsource
  have hbody := required_carried_iff
    (readList_carried_iff (Statement.toJson_eq_carried_iff rule)) hbody
  have hcomments := comments_eq_dropNull hcomments
  refine (written_eq_iff (_ ++ whenSome "comments" _ comments) ?_ fun key hkey => ?_).trans ?_
  · cases comments <;> simp [whenSome]
  · simp only [List.mem_cons, List.not_mem_nil, or_false, not_or] at hkey
    rw [last?_change, if_neg hkey.2.2.2, last?_change, if_neg hkey.2.2.1, last?_change,
      if_neg hkey.2.1, last?_change, if_neg hkey.1]
  · simp [last?_change, hsource, hcomments, ← hbody, Fits, TagRule.Names, eq_comm, Json.normalize]

/-- An embedded program is written as it is carried exactly if the rule gives everything in it its
type. A program without a typed form is written as it is, so every rule does. -/
theorem Fragment.toJson_eq_carried_iff (value : Json) :
    (Fragment.ofJson value).toJson.normalize = (Fragment.carried rule value).normalize
      ↔ Fragment.Fits rule value := by
  unfold Fragment.ofJson carried Fits
  cases hread : Program.ofJson .nameOrPosition value with
  | ok program =>
      simp only [Except.ok.injEq, forall_eq']
      exact Program.toJson_eq_carried_iff rule hread
  | error cause => simp [Fragment.toJson, CanonicalJson.ofJson, normalize_normalize]

/-- An embedding is written as it is carried exactly if the rule leaves it without a type and gives
everything in it the right one. -/
theorem Embedding.toJson_eq_carried_iff {value : Json} {embedding : Embedding}
    (h : Embedding.ofJson value = .ok embedding) :
    embedding.toJson.normalize = (Embedding.carried rule value).normalize
      ↔ Embedding.Fits rule value := by
  obtain @⟨members, fragment, hfragment⟩ := readFrom_of_ofJson h
  have hread : ∀ value (found : Fragment), value ≠ .null →
      (Except.ok (Fragment.ofJson value) : Except Mismatch Fragment) = .ok found →
      (found.toJson.normalize = (Fragment.carried rule value).normalize
        ↔ Fragment.Fits rule value) := by
    rintro value found - ⟨⟩
    exact Fragment.toJson_eq_carried_iff rule value
  have hfragment := optional_carried_iff hread hfragment
  refine (written_eq_iff _ ?_ fun key hkey => ?_).trans ?_
  · cases fragment <;> simp [whenSome]
  · simp only [List.mem_cons, List.not_mem_nil, or_false, not_or] at hkey
    rw [last?_change, if_neg hkey.2, last?_change, if_neg hkey.1]
  · have hnone : none = (rule.embedding (members.last? "type")).map Json.normalize
        ↔ rule.embedding (members.last? "type") = none := by
      rw [eq_comm, Option.map_eq_none_iff]
    simp [last?_change, ← hfragment, Fits, hnone]

end

/-! ### The result -/

/-- An embedding that is read and written again is the value that it was read from, carried by the
fixed rule: null in the place of a program, of comments or of the text of a literal is left out,
tags are given by their names, the type of the embedding itself is lost, and every program, name and
literal in typed form gets the one type that it can have. So the written form is what it is to be,
with all types that no reader looks at untouched, exactly if they were these types already. -/
theorem Embedding.toJson_eq_carried {value : Json} {embedding : Embedding}
    (h : Embedding.ofJson value = .ok embedding) :
    embedding.toJson.normalize = (Embedding.carried .fixed value).normalize
      ∧ (embedding.toJson.normalize = (Embedding.carried .untouched value).normalize
        ↔ Embedding.Fits .untouched value) :=
  ⟨(Embedding.toJson_eq_carried_iff _ h).2 (Embedding.fits_fixed value),
    Embedding.toJson_eq_carried_iff _ h⟩

/-- A program with a comment and an import whose parts are all of their own types, the statement
given by its position, and a literal with null as its text. -/
theorem Embedding.toJson_eq_carried_import :
    let binding := Json.object [("name", .string "x"), ("type", .string "Identifier")]
    let specifier := Json.object [("local", binding), ("type", .string "ImportDefaultSpecifier")]
    let source := Json.object
      [("raw", .null), ("type", .string "Literal"), ("value", .string "./x.js")]
    let statement := fun tag source => Json.object
      [("source", source), ("specifiers", .array [specifier]), ("type", tag)]
    let program := fun statement => Json.object
      [("body", .array [statement]), ("comments", .array [Json.integer 1]),
        ("sourceType", .string "module"), ("type", .string "Program")]
    let value := Json.object [("estree", program (statement (Json.integer 0) source))]
    ∃ embedding, Embedding.ofJson value = .ok embedding
      ∧ Embedding.Fits .untouched value
      ∧ embedding.toJson.normalize = .object [("estree", program (statement
          (.string "ImportDeclaration")
          (.object [("type", .string "Literal"), ("value", .string "./x.js")])))] := by
  intro binding specifier source statement program value
  have hread : (Embedding.ofJson value).isOk = true := rfl
  cases h : Embedding.ofJson value with
  | error cause => simp [h, Except.isOk, Except.toBool] at hread
  | ok embedding =>
      have hcarried := Embedding.toJson_eq_carried h
      have hwritten := hcarried.1.trans rfl
      exact ⟨embedding, rfl, hcarried.2.1 (hwritten.trans rfl), hwritten⟩

/-- A private name and a type of the embedding itself. The name is written as a public one, and the
type is lost. -/
theorem Embedding.toJson_ne_carried :
    let program := fun name => Json.object
      [("body", .array [.object
          [("expression", .object [("name", .string "x"), ("type", .string name)]),
            ("type", .string "ExpressionStatement")]]),
        ("sourceType", .string "module"), ("type", .string "Program")]
    let value := Json.object
      [("estree", program "PrivateIdentifier"), ("type", .string "data")]
    ∃ embedding, Embedding.ofJson value = .ok embedding
      ∧ (Embedding.carried .untouched value).normalize = value
      ∧ embedding.toJson.normalize = .object [("estree", program "Identifier")]
      ∧ embedding.toJson.normalize ≠ (Embedding.carried .untouched value).normalize := by
  intro program value
  refine ⟨_, rfl, rfl, rfl, fun h => ?_⟩
  have hlength : ∀ a b : Members, Json.object a = .object b → a.length = b.length := by
    rintro a b ⟨⟩
    rfl
  exact absurd (hlength _ _ h) (by decide)

end ImageImports.Estree
