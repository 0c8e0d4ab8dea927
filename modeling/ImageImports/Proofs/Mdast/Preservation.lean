import ImageImports.Proofs.Estree.RoundTrip
import ImageImports.Proofs.Mdast.Content
import Mathlib.Data.List.Nodup

/-!
# `ImageImports.Proofs.Mdast.Preservation`: what is read is written back

A document that is read and written again is the same JSON value but for a few members, and this
file says which. `settledRoot` makes these changes in the value itself. It takes from the reader
only as what a node or an attribute counts, and apart from embedded programs it puts nothing into
the value that was read from it. All other members stay whatever they are, those of nodes that fit
no type included.

Main statement: `Root.toJson_eq_settledRoot`, the document that is written is the settled one.
-/

set_option autoImplicit false

namespace ImageImports.Mdast

open Json Members

/-! ### The changes -/

/-- A choice with its bare name in its place. Where `referenceType` was given as a record with the
name as its only key, it is written as the name alone. -/
def namedChoice : Json → Json
  | .object [(name, _)] => .string name
  | choice => choice

/-- What becomes of a program. Null is left out, and anything else is what its own type makes of
it. -/
def settledData : Option Json → Option Json
  | none => none
  | some .null => none
  | some value =>
      match Estree.Embedding.ofJson value with
      | .ok embedding => some embedding.toJson
      | .error _ => some value

/-- What becomes of the value of an attribute. A text stays as it is. An expression always gets the
same type, whatever it had, since the reader of `MdxJsxAttributeValueExpression` does not look at
it. -/
def settledAttributeValue : Json → Json
  | .object members =>
      .object ((Members.change members "type" fun _ =>
        some (.string "mdxJsxAttributeValueExpression")).change "data" settledData)
  | value => value

/-- The members with their type given by its name. The derived readers accept the place of a type
among its variants as well, and write the name. -/
def nameType (names : List String) (members : Members) : Members :=
  members.change "type" (Option.map (namedTag names))

/-- What becomes of an attribute, by what it is read as. A named one without a value is written with
null as its value, and a spread one keeps its text and settles its program. What is read as neither
stays as it is. -/
def settledAttribute (value : Json) : Json :=
  match value, Attribute.ofJson .nameOrPosition value with
  | .object members, .ok (.named _) =>
      .object ((nameType (AttributeKind.names.map Prod.fst) members).change "value" fun found =>
        some ((found.map settledAttributeValue).getD .null))
  | .object members, .ok (.spread _) =>
      .object ((nameType (AttributeKind.names.map Prod.fst) members).change "data" settledData)
  | _, _ => value

/-- What becomes of the attributes of an element. They settle one by one, and attributes that were
left out are written as an empty list. -/
def settledAttributes : Option Json → Json
  | some (.array items) => .array (items.map settledAttribute)
  | some value => value
  | none => .array []

/-- What becomes of the members of a leaf of a known type. All of them give their type by its name;
beside that only reference types and programs settle. -/
def LeafKind.settle (kind : LeafKind) (members : Members) : Members :=
  let named := nameType (NodeKind.names.map Prod.fst) members
  match kind with
  | .imageReference => named.change "referenceType" (Option.map namedChoice)
  | .esm => named.change "data" settledData
  | .expression _ => named.change "data" settledData
  | _ => named

/-- What becomes of the members of a branch of a known type, given what becomes of its children. An
element is the only one that may leave typed fields out: it is written with null as its name and
with empty attributes and children. -/
def BranchKind.settle (kind : BranchKind) (children : Option Json) (members : Members) : Members :=
  let named := nameType (NodeKind.names.map Prod.fst) members
  -- Only an element may leave fields out. What it leaves out is written as empty.
  match kind with
  | .linkReference =>
      (named.change "referenceType" (Option.map namedChoice)).change "children" fun _ => children
  | .element _ =>
      ((named.change "name" fun found => some (found.getD .null)).change "attributes" fun found =>
        some (settledAttributes found)).change "children" fun _ => some (children.getD (.array []))
  | _ => named.change "children" fun _ => children

/-- A member that is left out if it is null. This becomes of the children of an unknown node, which
are written only where there is a list. -/
def dropNull : Option Json → Option Json
  | some .null => none
  | found => found

/-- What becomes of the members of a node, given what becomes of its children. -/
def Node.settle (children : Option Json) (members : Members) : Node → Members
  -- A node without a known type keeps its type as it is, because that has to be a text already.
  | .leaf content _ =>
      match content.variant? with
      | some kind => kind.settle members
      | none => members.change "children" dropNull
  | .branch content _ _ =>
      match content.variant? with
      | some kind => kind.settle children members
      | none => members.change "children" fun _ => children

mutual

/-- What becomes of a value that is read as a node. What is not read as one stays as it is, and so
does every member that is not a typed field of the node. -/
def settledNode : Json → Json
  | .object members =>
      -- The node says how the object is to be taken, and nothing of what it holds is used.
      match Node.ofJson? (.object members) with
      | some node => .object (node.settle (settledChildren members) members)
      | none => .object members
  | value => value

/-- What becomes of the member `children`. Of a repeated key the last value counts, as it does for
the reader. -/
def settledChildren : List (String × Json) → Option Json
  | [] => none
  | (key, value) :: rest =>
      (settledChildren rest).or (if key = "children" then some (settledList value) else none)

/-- What becomes of a list of nodes. Anything but a list stays as it is. -/
def settledList : Json → Json
  | .array items => .array (settledItems items)
  | value => value

/-- What becomes of some nodes, one by one and in their order. -/
def settledItems : List Json → List Json
  | [] => []
  | item :: rest => settledNode item :: settledItems rest

end

/-- What becomes of a value that is read as a document. It is given the type of a root, also where
it had none, and its children settle. Nothing else in it changes. -/
def settledRoot : Json → Json
  | .object members =>
      .object ((Members.change members "type" fun _ => some (.string "root")).change "children"
        fun _ => settledChildren members)
  | value => value

/-! ### Written records -/

/-- The written form of a record with the other members of an object is the changed object, if the
type and the typed fields are as in the changed object, and the change leaves other members
alone. -/
theorem written_eq {typed : List String} {fields members changed : Members} {tag : String}
    (hfields : ∀ m ∈ fields, m.1 ∈ typed) (htype : "type" ∉ typed)
    (htag : changed.last? "type" = some (.string tag))
    (htyped : ∀ key ∈ typed,
      (fields.last? key).map Json.normalize = (changed.last? key).map Json.normalize)
    (hothers : ∀ key, key ∉ "type" :: typed → changed.last? key = members.last? key) :
    (Json.object (("type", .string tag)
        :: (fields ++ (OtherMembers.ofMembers typed members).entries))).normalize
      = (Json.object changed).normalize := by
  rw [normalize_object, normalize_object]
  refine congrArg Json.object (canonical_eq fun key => ?_)
  -- A key is the type, a typed field or neither, and only one part of the record knows it.
  have hother : (OtherMembers.ofMembers typed members).entries.last? key = _ :=
    OtherMembers.get?_ofMembers typed members key
  rw [last?_cons, last?_append, hother]
  by_cases hkey : key = "type"
  · subst hkey
    have hnone : fields.last? "type" = none :=
      last?_eq_none_iff.2 fun m hm heq => htype (heq ▸ hfields m hm)
    rw [if_pos List.mem_cons_self, hnone, htag]
    rfl
  · have hne : ¬ "type" = key := fun heq => hkey heq.symm
    rw [if_neg hne, Option.or_none]
    by_cases hmem : key ∈ typed
    · rw [if_pos (List.mem_cons_of_mem _ hmem), Option.none_or, htyped key hmem]
    · have hnot : key ∉ "type" :: typed := by simp [hkey, hmem]
      have hnone : fields.last? key = none :=
        last?_eq_none_iff.2 fun m hm heq => hmem (heq ▸ hfields m hm)
      rw [if_neg hnot, hnone, Option.or_none, hothers key hnot]
      cases members.last? key with
      | none => rfl
      | some value => exact congrArg some value.normalize_normalize

/-! ### Fields -/

section
variable {members : Members} {key : String}

/-- A required text that was read stands under its key as it is. -/
theorem last?_of_string {text : String} (h : members.required key readString = .ok text) :
    members.last? key = some (.string text) := by
  obtain ⟨value, hvalue, hread⟩ := required_ok h
  rw [hvalue, readString_ok hread]

/-- A depth that was read stands under its key as the integer it is. -/
theorem last?_of_depth {depth : UInt8} (h : members.required key readDepth = .ok depth) :
    members.last? key = some (Json.integer depth.toNat) := by
  obtain ⟨value, hvalue, hread⟩ := required_ok h
  rw [hvalue]
  cases value with
  | number number =>
      cases number with
      | integer n =>
          rw [readDepth] at hread
          split at hread
          · rename_i hrange
            cases hread
            -- The range was checked, so eight bits hold the number.
            have hback : (n.toNat.toUInt8.toNat : Int) = n := by
              simp only [Nat.toUInt8, UInt8.toNat_ofNat']
              omega
            rw [hback]
            rfl
          · simp [wrongType] at hread
      | float negative magnitude => simp [readDepth, wrongType] at hread
  | _ => simp [readDepth, wrongType] at hread

/-- Each reference type is found under its own name only. -/
theorem ReferenceType.name_of_lookup {name : String} {referenceType : ReferenceType}
    (h : ReferenceType.names.lookup name = some referenceType) : name = referenceType.name := by
  have hmem := mem_of_lookup h
  simp only [names, List.mem_cons, Prod.mk.injEq, List.not_mem_nil, or_false] at hmem
  rcases hmem with ⟨rfl, rfl⟩ | ⟨rfl, rfl⟩ | ⟨rfl, rfl⟩ <;> rfl

/-- A choice that was read is given by the bare name of what it was read as. -/
theorem map_namedChoice {α : Type} {variants : List (String × α)} {saysNothing : Json → Bool}
    {a : α} (h : members.required key (readChoice variants saysNothing) = .ok a) :
    ∃ name, variants.lookup name = some a
      ∧ (members.last? key).map namedChoice = some (.string name) := by
  obtain ⟨value, hvalue, hread⟩ := required_ok h
  obtain ⟨name, hlookup, hform⟩ := readChoice_ok hread
  refine ⟨name, hlookup, ?_⟩
  rcases hform with rfl | ⟨nothing, -, rfl⟩ <;> rw [hvalue] <;> rfl

/-- A reference type is written by its name. That is what was read, once a record of the name has
been replaced by the name alone. -/
theorem map_namedChoice_of_referenceType {referenceType : ReferenceType}
    (h : members.required key ReferenceType.ofJson = .ok referenceType) :
    (members.last? key).map namedChoice = some (.string referenceType.name) := by
  obtain ⟨name, hlookup, hname⟩ := map_namedChoice h
  rw [hname, ReferenceType.name_of_lookup hlookup]

/-- What was read as a program is written as the settled data: null is dropped, and an object is
what its own type makes of it. -/
theorem settledData_of_read {data : Option Estree.Embedding}
    (h : members.optional key Estree.Embedding.ofJson = .ok data) :
    settledData (members.last? key) = data.map Estree.Embedding.toJson := by
  rcases optional_ok h with ⟨hnone | hnull, rfl⟩ | ⟨value, embedding, hvalue, hnull, hread, rfl⟩
  · rw [hnone]
    rfl
  · rw [hnull]
    rfl
  · rw [hvalue]
    cases value with
    | null => exact absurd rfl hnull
    | _ => simp [settledData, hread]

/-- An optional text is written as null when it is absent, and so is a null that was read. -/
theorem getD_of_name {name : Option String} (h : members.optional key readString = .ok name) :
    (members.last? key).getD .null = (name.map Json.string).getD .null := by
  rcases optional_ok h with ⟨hnone | hnull, rfl⟩ | ⟨value, text, hvalue, -, hread, rfl⟩
  · rw [hnone]
    rfl
  · rw [hnull]
    rfl
  · rw [hvalue, readString_ok hread]
    rfl

/-! ### Attributes -/

end

/-- The written form of an expression that was read, under any type, is what it was read from with
that type and its data settled. -/
theorem EmbeddedExpression.written_eq {members base : Members} {e : EmbeddedExpression}
    {tag : String} (h : e.ReadFrom members)
    (htag : base.last? "type" = some (.string tag))
    (hbase : ∀ key, key ≠ "type" → base.last? key = members.last? key) :
    (Json.object (("type", .string tag) :: e.members)).normalize
      = (Json.object (base.change "data" settledData)).normalize := by
  have hfields := e.fields_subset
  obtain ⟨hvalue, hdata⟩ := h
  have hvalue := last?_of_string hvalue
  have hdata := settledData_of_read hdata
  rw [EmbeddedExpression.members]
  refine Mdast.written_eq hfields (by decide) ?_ ?_ ?_
  · simp [last?_change, htag]
  · intro key hkey
    rcases List.mem_cons.1 hkey with rfl | hkey
    · simp [last?_change, hbase, hvalue]
    · obtain rfl := List.mem_singleton.1 hkey
      simp [last?_change, hbase, hdata]
  · intro key hkey
    simp only [List.mem_cons, List.not_mem_nil, or_false, not_or] at hkey
    rw [last?_change, if_neg hkey.2.2, hbase key hkey.1]

/-- The value of an attribute is written as the settled one: a text as it was, an expression with
its own tag. -/
theorem AttributeValue.toJson_ofJson {value : Json} {read : AttributeValue}
    (h : AttributeValue.ofJson value = .ok read) :
    read.toJson.normalize = (settledAttributeValue value).normalize := by
  cases readFrom_of_ofJson h with
  | literal text => rfl
  | expression hexpression =>
      refine EmbeddedExpression.written_eq hexpression ?_ ?_
      · simp [last?_change]
      · intro key hkey
        simp [last?_change, hkey]

/-- An optional attribute value is written as null when it is absent, and as the settled one
otherwise. -/
theorem getD_of_attributeValue {members : Members} {key : String} {read : Option AttributeValue}
    (h : members.optional key AttributeValue.ofJson = .ok read) :
    ((read.map AttributeValue.toJson).getD .null).normalize
      = (((members.last? key).map settledAttributeValue).getD .null).normalize := by
  rcases optional_ok h with ⟨hnone | hnull, rfl⟩ | ⟨value, inner, hvalue, -, hread, rfl⟩
  · rw [hnone]
    rfl
  · rw [hnull]
    rfl
  · rw [hvalue]
    exact AttributeValue.toJson_ofJson hread

/-- The type of an object that was read as a variant, given by its name. -/
theorem nameType_of_read {α : Type} {form : TagForm} {variants : List (String × α)} {tag : Json}
    {a : α} {members : Members} (hlast : members.last? "type" = some tag)
    (h : readTag form variants tag = .ok a) :
    ∃ name, (name, a) ∈ variants
      ∧ (nameType (variants.map Prod.fst) members).last? "type" = some (.string name) := by
  obtain ⟨name, hmem, hname⟩ := readTag_ok h
  refine ⟨name, hmem, ?_⟩
  rw [nameType, last?_change, if_pos rfl, hlast, Option.map_some, hname]

/-- To name the type of a record changes nothing but what stands under its tag. -/
theorem last?_nameType {names : List String} {members : Members} {key : String}
    (hkey : key ≠ "type") : (nameType names members).last? key = members.last? key := by
  rw [nameType, last?_change, if_neg hkey]

/-- To take the tag out changes nothing but what stands under it. -/
theorem last?_keep_type {members : Members} {key : String} (hkey : key ≠ "type") :
    (members.keep (· != "type")).last? key = members.last? key := by
  have hne : (key != "type") = true := by simpa using hkey
  rw [last?_keep, hne, if_pos rfl]

/-- The written form of an attribute with a name, under any type, is what it was read from with that
type and its value settled. -/
theorem NamedAttribute.written_eq {members base : Members} {attr : NamedAttribute} {tag : String}
    (h : attr.ReadFrom members)
    (htag : base.last? "type" = some (.string tag))
    (hbase : ∀ key, key ≠ "type" → base.last? key = members.last? key) :
    (Json.object (("type", .string tag) :: attr.members)).normalize
      = (Json.object (base.change "value" fun found =>
        some ((found.map settledAttributeValue).getD .null))).normalize := by
  obtain ⟨hname, hinner⟩ := h
  have hname := last?_of_string hname
  have hinner := getD_of_attributeValue hinner
  rw [NamedAttribute.members]
  refine Mdast.written_eq (by simp) (by decide) ?_ ?_ ?_
  · simp [last?_change, htag]
  · intro key hkey
    rcases List.mem_cons.1 hkey with rfl | hkey
    · simp [last?_change, hbase, hname]
    · obtain rfl := List.mem_singleton.1 hkey
      simp [last?_change, hbase, hinner]
  · intro key hkey
    simp only [List.mem_cons, List.not_mem_nil, or_false, not_or] at hkey
    rw [last?_change, if_neg hkey.2.2, hbase key hkey.1]

/-- The written form of an attribute that was read is what it was read from, settled. -/
theorem Attribute.toJson_ofJson {value : Json} {attr : Attribute}
    (h : Attribute.ofJson .nameOrPosition value = .ok attr) :
    attr.toJson.normalize = (settledAttribute value).normalize := by
  -- Either variant is read from the members without the type, which makes no difference to them.
  cases readFrom_of_ofJson h with
  | named htagged hattr =>
      obtain ⟨members, tag, rfl, hlast, htag, rfl⟩ := readTagged_ok htagged
      obtain ⟨typeName, hmem, htype⟩ := nameType_of_read hlast htag
      obtain rfl : typeName = "mdxJsxAttribute" := by simpa [AttributeKind.names] using hmem
      have hsettled : settledAttribute (.object members) = .object
          ((nameType (AttributeKind.names.map Prod.fst) members).change "value" fun found =>
            some ((found.map settledAttributeValue).getD .null)) := by
        unfold settledAttribute
        rw [h]
      rw [hsettled]
      refine NamedAttribute.written_eq hattr htype ?_
      intro key hkey
      rw [last?_nameType hkey, last?_keep_type hkey]
  | spread htagged hexpression =>
      obtain ⟨members, tag, rfl, hlast, htag, rfl⟩ := readTagged_ok htagged
      obtain ⟨typeName, hmem, htype⟩ := nameType_of_read hlast htag
      obtain rfl : typeName = "mdxJsxExpressionAttribute" := by
        simpa [AttributeKind.names] using hmem
      have hsettled : settledAttribute (.object members) = .object
          ((nameType (AttributeKind.names.map Prod.fst) members).change "data" settledData) := by
        unfold settledAttribute
        rw [h]
      rw [hsettled]
      refine EmbeddedExpression.written_eq hexpression htype ?_
      intro key hkey
      rw [last?_nameType hkey, last?_keep_type hkey]

/-- Attributes are written as the settled ones, in their order. When there were none in the members,
they are written as the empty list. -/
theorem settledAttributes_of_read {members : Members} {key : String} {attributes : List Attribute}
    (h : members.defaulted key [] (readList (Attribute.ofJson .nameOrPosition)) = .ok attributes) :
    (Json.array (attributes.map Attribute.toJson)).normalize
      = (settledAttributes (members.last? key)).normalize := by
  rcases defaulted_ok h with ⟨hnone, rfl⟩ | ⟨value, hvalue, hread⟩
  · rw [hnone]
    rfl
  · obtain ⟨values, rfl, hitems⟩ := readList_ok hread
    have heach := map_eq_of_readItems (f := fun value => (settledAttribute value).normalize)
      (g := fun attr => attr.toJson.normalize)
      (fun value attr hattr => (Attribute.toJson_ofJson hattr).symm) hitems
    rw [hvalue, settledAttributes, Json.normalize, Json.normalize, normalizeItems_eq_map,
      normalizeItems_eq_map, List.map_map, List.map_map]
    exact congrArg Json.array heach.symm

/-! ### Content -/

/-- Settling a leaf puts the name of its type under the tag, also where its position stood there. -/
theorem LeafKind.settle_type (kind : LeafKind) (members : Members) :
    (kind.settle members).last? "type"
      = (nameType (NodeKind.names.map Prod.fst) members).last? "type" := by
  cases kind <;> simp [settle, last?_change]

/-- Settling a leaf changes nothing but its tag and its typed fields. -/
theorem LeafKind.settle_other (kind : LeafKind) (members : Members) {key : String}
    (h : key ∉ "type" :: kind.fieldNames) :
    (kind.settle members).last? key = members.last? key := by
  cases kind <;> simp [fieldNames] at h <;> simp [settle, last?_change, last?_nameType, h]

/-- The fields of a leaf that was read are the settled fields of what it was read from. -/
theorem LeafKind.settle_field {kind : LeafKind} {members : Members} {content : Leaf}
    (hread : kind.read members = .ok content) :
    ∀ key ∈ kind.fieldNames,
      (content.fields.last? key).map Json.normalize
        = ((kind.settle members).last? key).map Json.normalize := by
  obtain ⟨hvariant, hfields⟩ := LeafKind.read_ok_iff.1 hread
  -- What is read for a field is the member of its name, or what settling makes of that member.
  cases content with
  | thematicBreak =>
      cases hvariant
      simp [fieldNames]
  | lineBreak =>
      cases hvariant
      simp [fieldNames]
  | text textKind value =>
      cases hvariant
      simp [fieldNames, settle, Leaf.fields, last?_nameType, last?_of_string hfields]
  | definition identifier url =>
      cases hvariant
      simp [fieldNames, settle, Leaf.fields, last?_nameType, last?_of_string hfields.1,
        last?_of_string hfields.2]
  | image url =>
      cases hvariant
      simp [fieldNames, settle, Leaf.fields, last?_nameType, last?_of_string hfields]
  | imageReference identifier referenceType =>
      cases hvariant
      simp [fieldNames, settle, Leaf.fields, last?_change, last?_nameType,
        last?_of_string hfields.1, map_namedChoice_of_referenceType hfields.2]
  | footnoteReference identifier =>
      cases hvariant
      simp [fieldNames, settle, Leaf.fields, last?_nameType, last?_of_string hfields]
  | esm value data =>
      cases hvariant
      simp [fieldNames, settle, Leaf.fields, last?_change, last?_nameType,
        last?_of_string hfields.1, settledData_of_read hfields.2]
  | expression placement value data =>
      cases hvariant
      simp [fieldNames, settle, Leaf.fields, last?_change, last?_nameType,
        last?_of_string hfields.1, settledData_of_read hfields.2]
  | unknown type => cases hvariant

/-- Settling a branch puts the name of its type under the tag, also where its position stood
there. -/
theorem BranchKind.settle_type (kind : BranchKind) (children : Option Json) (members : Members) :
    (kind.settle children members).last? "type"
      = (nameType (NodeKind.names.map Prod.fst) members).last? "type" := by
  cases kind <;> simp [settle, last?_change]

/-- Settling a branch changes nothing but its tag and its typed fields. -/
theorem BranchKind.settle_other (kind : BranchKind) (children : Option Json) (members : Members)
    {key : String} (h : key ∉ "type" :: kind.fieldNames) :
    (kind.settle children members).last? key = members.last? key := by
  cases kind <;> simp [fieldNames] at h <;> simp [settle, last?_change, last?_nameType, h]

/-- Under the children of a settled branch stands what is given for them. Where nothing is given it
is the empty list, and only types with optional children may have nothing. -/
theorem BranchKind.settle_children (kind : BranchKind) {children : Option Json}
    (members : Members) (h : children = none → kind.childrenOptional = true) :
    (kind.settle children members).last? "children" = some (children.getD (.array [])) := by
  cases children with
  | none =>
      cases kind with
      | element placement => simp [settle, last?_change]
      | _ => simp [childrenOptional] at h
  | some value => cases kind <;> simp [settle, last?_change]

/-- The fields of a branch that was read, its children excepted, are the settled fields of what it
was read from. -/
theorem BranchKind.settle_field {kind : BranchKind} {members : Members} {content : Branch}
    (hread : kind.read members = .ok content) (children : Option Json) :
    ∀ key ∈ kind.fieldNames, key ≠ "children" →
      (content.fields.last? key).map Json.normalize
        = ((kind.settle children members).last? key).map Json.normalize := by
  obtain ⟨hvariant, hfields⟩ := BranchKind.read_ok_iff.1 hread
  -- The children are changed last and under a key of their own, so the other fields do not see it.
  cases content with
  | grouping group =>
      cases hvariant
      simp [fieldNames]
  | heading depth =>
      cases hvariant
      simp [fieldNames, settle, Branch.fields, last?_change, last?_nameType, last?_of_depth hfields]
  | footnoteDefinition identifier =>
      cases hvariant
      simp [fieldNames, settle, Branch.fields, last?_change, last?_nameType,
        last?_of_string hfields]
  | link url =>
      cases hvariant
      simp [fieldNames, settle, Branch.fields, last?_change, last?_nameType,
        last?_of_string hfields]
  | linkReference identifier referenceType =>
      cases hvariant
      simp [fieldNames, settle, Branch.fields, last?_change, last?_nameType,
        last?_of_string hfields.1, map_namedChoice_of_referenceType hfields.2]
  | element placement name attributes =>
      cases hvariant
      simp [fieldNames, settle, Branch.fields, last?_change, last?_nameType,
        getD_of_name hfields.1, settledAttributes_of_read hfields.2]
  | unknown type => cases hvariant

/-! ### Nodes -/

/-- No type has two names. -/
theorem NodeKind.name_unique {kind : NodeKind} {name name' : String}
    (h : (name, kind) ∈ NodeKind.names) (h' : (name', kind) ∈ NodeKind.names) : name = name' := by
  have hnodup : (NodeKind.names.map Prod.snd).Nodup := by decide
  exact congrArg Prod.fst (List.inj_on_of_nodup_map hnodup h h' rfl)

/-- Whatever form the type of a node was given in, its name is the one that is written. -/
theorem nameType_of_kind {members : Members} {kind : NodeKind} {name : String}
    (htag : members.required "type" (readTag .nameOrPosition NodeKind.names) = .ok kind)
    (hname : NodeKind.names.lookup name = some kind) :
    (nameType (NodeKind.names.map Prod.fst) members).last? "type" = some (.string name) := by
  obtain ⟨tag, hlast, hread⟩ := required_ok htag
  obtain ⟨found, hmem, htype⟩ := nameType_of_read hlast hread
  rw [htype, NodeKind.name_unique hmem (mem_of_lookup hname)]

/-- A leaf that was read as a known type is written as the settled members. They are compared key by
key: a key is the tag, a field of the type, or one of the other members. -/
theorem Node.toJson_typed_leaf {members : Members} {kind : LeafKind} {content : Leaf}
    (htag : members.required "type" (readTag .nameOrPosition NodeKind.names) = .ok (.leaf kind))
    (hread : kind.read members = .ok content) :
    (Node.leaf content (.ofMembers kind.fieldNames members)).toJson.normalize
      = (Json.object (kind.settle members)).normalize := by
  have hvariant := (LeafKind.read_ok_iff.1 hread).1
  have hnames : content.fieldNames = kind.fieldNames := by rw [Leaf.fieldNames, hvariant]
  have htype := nameType_of_kind htag (content.lookup_kind hvariant)
  rw [Node.toJson]
  refine written_eq (hnames ▸ content.fields_subset) (hnames ▸ content.type_not_mem_fieldNames) ?_
    (LeafKind.settle_field hread) fun key hkey => kind.settle_other members hkey
  rw [kind.settle_type, htype]

/-- A branch that was read as a known type is written as the settled members, with its own children
in the place of those that were read. -/
theorem Node.toJson_typed_branch {members : Members} {kind : BranchKind} {content : Branch}
    {nodes : List Node} {children : Option Json}
    (htag : members.required "type" (readTag .nameOrPosition NodeKind.names) = .ok (.branch kind))
    (hread : kind.read members = .ok content)
    (hnone : children = none → kind.childrenOptional = true)
    (hchildren : (children.getD (.array [])).normalize
      = (Json.array (Node.allToJson nodes)).normalize) :
    (Node.branch content (.ofMembers kind.fieldNames members) nodes).toJson.normalize
      = (Json.object (kind.settle children members)).normalize := by
  have hvariant := (BranchKind.read_ok_iff.1 hread).1
  have hnames : content.fieldNames = kind.fieldNames := by rw [Branch.fieldNames, hvariant]
  have htype := nameType_of_kind htag (content.lookup_kind hvariant)
  rw [Node.toJson, ← List.singleton_append (l := OtherMembers.entries _), ← List.append_assoc]
  refine written_eq (hnames ▸ content.fields_subset _) (hnames ▸ content.type_not_mem_fieldNames)
    ?_ ?_ fun key hkey => kind.settle_other children members hkey
  · rw [kind.settle_type, htype]
  · intro key hkey
    -- The children are settled by the recursion, all other fields right here.
    by_cases hkids : key = "children"
    · subst hkids
      rw [last?_append, kind.settle_children members hnone, Option.map_some, hchildren]
      rfl
    · rw [← BranchKind.settle_field hread children key hkey hkids, last?_append]
      simp [Ne.symm hkids]

/-- An unknown node without children is written as it was read, but for children that are null:
these are left out. -/
theorem Node.toJson_unknown_leaf {members : Members} {type : String}
    (htype : members.last? "type" = some (.string type))
    (hdrop : dropNull (members.last? "children") = none) :
    (Node.leaf (.unknown type) (.ofMembers ["children"] members)).toJson.normalize
      = (Json.object (members.change "children" dropNull)).normalize := by
  rw [Node.toJson]
  refine written_eq (show ∀ m ∈ Leaf.fields _, m.1 ∈ ["children"] by simp [Leaf.fields])
    (by decide) ?_ ?_ ?_
  · simp [last?_change, htype, Leaf.kind]
  · simp [last?_change, hdrop, Leaf.fields]
  · intro key hkey
    simp only [List.mem_cons, List.not_mem_nil, or_false, not_or] at hkey
    rw [last?_change, if_neg hkey.2]

/-- An unknown node with children is written as it was read, with its own children in the place of
those that were read. -/
theorem Node.toJson_unknown_branch {members : Members} {type : String} {nodes : List Node}
    {value : Json} (htype : members.last? "type" = some (.string type))
    (hvalue : value.normalize = (Json.array (Node.allToJson nodes)).normalize) :
    (Node.branch (.unknown type) (.ofMembers ["children"] members) nodes).toJson.normalize
      = (Json.object (members.change "children" fun _ => some value)).normalize := by
  rw [Node.toJson, ← List.singleton_append (l := OtherMembers.entries _), ← List.append_assoc]
  refine written_eq (by simp [Branch.fields]) (by decide) ?_ ?_ ?_
  · simp [last?_change, htype, Branch.kind]
  · simp [last?_change, hvalue, Branch.fields]
  · intro key hkey
    simp only [List.mem_cons, List.not_mem_nil, or_false, not_or] at hkey
    rw [last?_change, if_neg hkey.2]

/-- A node is written as the settled form of the object it was read from, if its children are. -/
theorem Node.toJson_assemble? {members : Members} {field : ChildField} {node : Node}
    {children : Option Json} (h : Node.assemble? members field = some node)
    (hnodes : ∀ nodes, field = .nodes nodes → ∃ value, children = some value
      ∧ value.normalize = (Json.array (Node.allToJson nodes)).normalize)
    (habsent : field = .absent → members.last? "children" = none ∧ children = none)
    (hnull : field = .null → members.last? "children" = some .null) :
    node.toJson.normalize = (Json.object (node.settle children members)).normalize := by
  cases Node.readAs_of_assemble? h with
  | typedLeaf htag hread =>
      rw [Node.settle, (LeafKind.read_ok_iff.1 hread).1]
      exact Node.toJson_typed_leaf htag hread
  | @typedBranch kind content nodes htag hread hfield =>
      rw [Node.settle, (BranchKind.read_ok_iff.1 hread).1]
      rcases hfield with rfl | ⟨rfl, hoptional, rfl⟩
      · obtain ⟨value, rfl, hvalue⟩ := hnodes nodes rfl
        exact Node.toJson_typed_branch htag hread (fun h => by cases h) hvalue
      · obtain ⟨-, rfl⟩ := habsent rfl
        exact Node.toJson_typed_branch htag hread (fun _ => hoptional) rfl
  | @unknownBranch type nodes _ htype hfield =>
      obtain ⟨value, rfl, hvalue⟩ := hnodes nodes hfield
      exact Node.toJson_unknown_branch htype hvalue
  | unknownLeaf _ htype hfield =>
      refine Node.toJson_unknown_leaf htype ?_
      -- A null in the place of the children is left out, as the node does not know of it.
      rcases hfield with hfield | hfield
      · rw [(habsent hfield).1]
        rfl
      · rw [hnull hfield]
        rfl

/-! ### Children -/

/-- What becomes of the children is what becomes of the last member of their name. -/
theorem settledChildren_eq (members : Members) :
    settledChildren members = (members.last? "children").map settledList := by
  induction members with
  | nil => rfl
  | cons head rest ih =>
      obtain ⟨key, value⟩ := head
      rw [settledChildren, last?_cons, ih, Option.map_or]
      by_cases hkey : key = "children"
      · simp [hkey]
      · simp [hkey]

/-- When the children are absent, nothing stands under their key. -/
theorem Node.last?_of_absent {members : Members} (h : Node.childField members = .absent) :
    members.last? "children" = none := by
  have hne : Node.childField members ≠ .bad := by
    rw [h]
    simp
  have heq := Node.childField_of_ne_bad hne
  cases hlast : members.last? "children" with
  | none => rfl
  | some value =>
      rw [h, hlast] at heq
      exact absurd heq.symm (Node.childValue_ne_absent value)

/-- When the children are null, null stands under their key. -/
theorem Node.last?_of_null {members : Members} (h : Node.childField members = .null) :
    members.last? "children" = some .null := by
  have hne : Node.childField members ≠ .bad := by
    rw [h]
    simp
  have heq := Node.childField_of_ne_bad hne
  cases hlast : members.last? "children" with
  | none =>
      rw [h, hlast] at heq
      cases heq
  | some value =>
      rw [h, hlast] at heq
      rw [Node.childValue_eq_null_iff.1 heq.symm]

mutual

/-- A node is written as the settled form of the value it was read from. -/
theorem Node.toJson_ofJson? : ∀ (value : Json) {node : Node}, Node.ofJson? value = some node →
    node.toJson.normalize = (settledNode value).normalize
  | .object members, node, h => by
      have hsettled : settledNode (.object members)
          = .object (node.settle (settledChildren members) members) := by
        rw [settledNode, h]
      rw [hsettled]
      rw [Node.ofJson?] at h
      refine Node.toJson_assemble? h (fun nodes hnodes => settledChildren_of_nodes members hnodes)
        (fun habsent => ?_) Node.last?_of_null
      have hnone := Node.last?_of_absent habsent
      exact ⟨hnone, by rw [settledChildren_eq, hnone]; rfl⟩
  | .null, _, h | .bool _, _, h | .number _, _, h | .string _, _, h | .array _, _, h => by
      simp [Node.ofJson?] at h

/-- The children of an object are written as the settled form of what they were read from. -/
theorem settledChildren_of_nodes : ∀ (members : List (String × Json)) {nodes : List Node},
    Node.childField members = .nodes nodes →
    ∃ value, settledChildren members = some value
      ∧ value.normalize = (Json.array (Node.allToJson nodes)).normalize
  | [], nodes, h => by simp [Node.childField] at h
  | (key, value) :: rest, nodes, h => by
      rw [Node.childField] at h
      by_cases hkey : key = "children"
      · rw [if_pos hkey] at h
        by_cases hagain : Members.hasKey rest "children" = true
        · simp [hagain] at h
        · rw [if_neg hagain] at h
          -- Without another member of that name this one is also the last.
          have hfirst : first? rest "children" = none := by
            rw [← Option.not_isSome_iff_eq_none, isSome_first?]
            exact hagain
          have hnone : settledChildren rest = none := by
            rw [settledChildren_eq, first?_eq_none_iff.1 hfirst]
            rfl
          refine ⟨settledList value, ?_, settledList_of_nodes value h⟩
          rw [settledChildren, hnone, if_pos hkey]
          rfl
      · rw [if_neg hkey] at h
        obtain ⟨settled, hsettled, heq⟩ := settledChildren_of_nodes rest h
        refine ⟨settled, ?_, heq⟩
        rw [settledChildren, hsettled]
        rfl

/-- A list of nodes is written as the settled form of what it was read from. -/
theorem settledList_of_nodes : ∀ (value : Json) {nodes : List Node},
    Node.childValue value = .nodes nodes →
    (settledList value).normalize = (Json.array (Node.allToJson nodes)).normalize
  | .array items, nodes, h => by
      rw [Node.childValue] at h
      cases hall : Node.allOfJson? items with
      | none => simp [hall] at h
      | some found =>
          obtain rfl : found = nodes := by simpa [hall] using h
          rw [settledList, Json.normalize, Json.normalize, settledItems_of_nodes items hall]
  | .null, _, h | .bool _, _, h | .number _, _, h | .string _, _, h | .object _, _, h => by
      simp [Node.childValue] at h

/-- Some nodes are written as the settled forms of what they were read from. -/
theorem settledItems_of_nodes : ∀ (items : List Json) {nodes : List Node},
    Node.allOfJson? items = some nodes →
    normalizeItems (settledItems items) = normalizeItems (Node.allToJson nodes)
  | [], nodes, h => by
      obtain rfl : [] = nodes := by simpa [Node.allOfJson?] using h
      rfl
  | item :: rest, nodes, h => by
      obtain ⟨node, tail, hitem, hrest, rfl⟩ :=
        List.forall₂_cons_left_iff.1 (Node.allOfJson?_eq_some_iff.1 h)
      rw [settledItems, Node.allToJson, normalizeItems, normalizeItems,
        Node.toJson_ofJson? item hitem,
        settledItems_of_nodes rest (Node.allOfJson?_eq_some_iff.2 hrest)]

end

/-! ### The result -/

/-- A document that is read and written again is the value it was read from, settled. What
`settledRoot` says of a member is all that can happen to it, in typed and unknown nodes alike. Both
sides are compared in normal form, in which neither the order of keys nor the earlier values under a
repeated key show. -/
theorem Root.toJson_eq_settledRoot {value : Json} {root : Root} (h : Root.ofJson value = .ok root) :
    root.toJson.normalize = (settledRoot value).normalize := by
  obtain ⟨members, hrecord, hrest⟩ := bind_ok_iff.1 h
  obtain rfl := readRecord_ok hrecord
  obtain ⟨children, hchildren, hresult⟩ := bind_ok_iff.1 hrest
  obtain ⟨list, hlast, hlist⟩ := required_ok (Checked.settle_ok_iff.1 hchildren)
  cases hresult
  -- The list under the children is settled node by node.
  have hsettled : (settledList list).normalize
      = (Json.array (Node.allToJson children)).normalize := by
    cases list with
    | array items =>
        rw [Node.listOfJson] at hlist
        cases hall : Node.allOfJson? items with
        | none => simp [hall] at hlist
        | some found =>
            obtain rfl : found = children := by simpa [hall] using hlist
            exact settledList_of_nodes _ (by rw [Node.childValue, hall])
    | _ => simp [Node.listOfJson, wrongType] at hlist
  rw [Root.toJson, settledRoot, settledChildren_eq, hlast]
  -- The two records are compared key by key: the type, the children, and every other key.
  refine written_eq (by simp) (by decide) ?_ ?_ ?_
  · simp [last?_change]
  · simp [last?_change, hsettled]
  · intro key hkey
    simp only [List.mem_cons, List.not_mem_nil, or_false, not_or] at hkey
    rw [last?_change, last?_change, if_neg hkey.2, if_neg hkey.1]

/-- A heading given by its position around an element that leaves its fields out, and an unknown
node whose children are null. -/
theorem Root.toJson_eq_settledRoot_heading :
    let element := Json.object [("type", .string "mdxJsxTextElement"), ("title", .null)]
    let heading := Json.object
      [("type", Json.integer 0), ("depth", Json.integer 2), ("children", .array [element])]
    let note := Json.object [("type", .string "note"), ("children", .null)]
    let writtenElement := Json.object
      [("attributes", .array []), ("children", .array []), ("name", .null), ("title", .null),
        ("type", .string "mdxJsxTextElement")]
    let writtenHeading := Json.object
      [("children", .array [writtenElement]), ("depth", Json.integer 2),
        ("type", .string "heading")]
    let writtenNote := Json.object [("type", .string "note")]
    ∃ root, Root.ofJson (.object [("children", .array [heading, note])]) = .ok root
      ∧ root.toJson.normalize = .object
        [("children", .array [writtenHeading, writtenNote]), ("type", .string "root")] := by
  intro element heading note writtenElement writtenHeading writtenNote
  have hread : (Root.ofJson (.object [("children", .array [heading, note])])).isOk = true := rfl
  cases h : Root.ofJson (.object [("children", .array [heading, note])]) with
  | error cause => simp [h, Except.isOk, Except.toBool] at hread
  | ok root => exact ⟨root, rfl, (Root.toJson_eq_settledRoot h).trans rfl⟩

end ImageImports.Mdast
