import ImageImports.Proofs.Estree.Content
import ImageImports.Proofs.Json.Grammar
import ImageImports.Proofs.Mdast.Content

/-!
# `ImageImports.Proofs.Mdast.Grammar`: the values that are nodes

Which values are nodes, said without the reader. An object has the shape of a known type if its tag
names the type, the typed fields are of their shapes, and the children are listed where the type has
children (`Members.FitsKind`). Any object with a text as its type has the shape of an unknown node
as long as its children, if there are any, are listed (`Members.FitsUnknown`). A value is acceptable
if it has one of these shapes and its children are acceptable in turn (`Acceptable`), and `Decodes`
relates it to a node: of the known type if there is a type that it fits, and unknown otherwise.

Main statements: `Node.exists_ofJson?_iff`, the reader of nodes takes the acceptable values, and
`Node.decodes_of_ofJson?`, what it makes of them.
-/

set_option autoImplicit false

namespace ImageImports.Mdast

open Json Members

/-! ### Shapes of fields -/

/-- The depth of a heading, an integer of one byte without a sign. The reader does not ask whether
it is one of the six depths that Markdown has. -/
def IsDepth (value : Json) : Prop := ∃ depth : Nat, depth < 256 ∧ value = Json.integer depth

/-- A way to name a definition, by one of its three names (`ReferenceType`). -/
def IsReferenceType (value : Json) : Prop := IsChoice ["shortcut", "collapsed", "full"] value

/-- The members of an expression: its text, and a program unless that is absent or null. -/
def FitsExpression (members : Members) : Prop :=
  members.Has "value" IsText ∧ members.MayHave "data" (NullOr IsObject)

/-- The value of an attribute: a text, or an object with the members of an expression. No tag is
asked for, so whatever type the object has, or none, is passed over. -/
def IsAttributeValue (value : Json) : Prop :=
  value.IsText ∨ ∃ members : Members, value = .object members ∧ FitsExpression members

/-- The typed fields of an attribute are of their shapes. A named attribute may be without a value,
and a spread one is an expression. -/
def AttributeKind.Fits (kind : AttributeKind) (members : Members) : Prop :=
  match kind with
  | .named => members.Has "name" IsText ∧ members.MayHave "value" (NullOr IsAttributeValue)
  | .spread => FitsExpression members

/-- An attribute, with a name or spread. Its tag is required, and it says which of the two the other
fields have to fit. -/
def IsAttribute (value : Json) : Prop :=
  ∃ members : Members, value = .object members
    ∧ ∃ kind, members.Has "type" (IsTag AttributeKind.names kind) ∧ kind.Fits members

/-- The typed fields of a leaf are of their shapes. For an image this is its address alone: text and
title are not typed, so nothing that stands there can make it anything else. -/
def LeafKind.Fits (kind : LeafKind) (members : Members) : Prop :=
  match kind with
  | .thematicBreak => True
  | .lineBreak => True
  | .text _ => members.Has "value" IsText
  | .definition => members.Has "identifier" IsText ∧ members.Has "url" IsText
  | .image => members.Has "url" IsText
  | .imageReference =>
      members.Has "identifier" IsText ∧ members.Has "referenceType" IsReferenceType
  | .footnoteReference => members.Has "identifier" IsText
  | .esm => FitsExpression members
  | .expression _ => FitsExpression members

/-- The typed fields of a branch, its children excepted, are of their shapes. An element may leave
out or set to null what it has no use for. -/
def BranchKind.Fits (kind : BranchKind) (members : Members) : Prop :=
  match kind with
  | .heading => members.Has "depth" IsDepth
  | .grouping _ => True
  | .footnoteDefinition => members.Has "identifier" IsText
  | .link => members.Has "url" IsText
  | .linkReference =>
      members.Has "identifier" IsText ∧ members.Has "referenceType" IsReferenceType
  | .element _ =>
      members.MayHave "name" (NullOr IsText)
        ∧ members.MayHave "attributes" (ListOf IsAttribute)

/-! ### Shapes of nodes -/

/-- The typed fields are of their shapes, and the children of a branch are the items of a list. A
leaf has no children, whatever the object has in their place, and an element may leave them out. -/
def NodeKind.Fits (kind : NodeKind) (members : Members) (items : List Json) : Prop :=
  match kind with
  | .leaf kind => kind.Fits members ∧ items = []
  | .branch kind =>
      kind.Fits members
        ∧ (members.last? "children" = some (.array items)
          ∨ kind.childrenOptional = true ∧ members.last? "children" = none ∧ items = [])

/-- An object has the shape of a known type, with the given items as its children. The items
themselves are not looked at here; whether they are acceptable is asked apart from it. -/
structure FitsKind (members : Members) (kind : NodeKind) (items : List Json) : Prop where
  /-- The tag names the type. -/
  tag : members.Has "type" (IsTag NodeKind.names kind)
  /-- The fields and the children are what the type asks for. -/
  fields : kind.Fits members items

/-- An object has the shape of an unknown node without or with children. Null counts as no children,
and anything that is neither null nor a list does not fit. -/
structure FitsUnknown (members : Members) (type : String) (items : Option (List Json)) : Prop where
  /-- The type is a text. -/
  type : members.last? "type" = some (.string type)
  /-- The children are absent, null or a list. -/
  children : items = none
      ∧ (members.last? "children" = none ∨ members.last? "children" = some .null)
    ∨ ∃ listed, items = some listed ∧ members.last? "children" = some (.array listed)

/-- A value is the value of a node (`Node`). It is an object of a known type or of an unknown one,
and all of its children are acceptable in turn. Which of the two the reader tries first makes no
difference to that. -/
inductive Acceptable : Json → Prop where
  | typed {members : Members} {kind : NodeKind} {items : List Json}
      (hfits : FitsKind members kind items) (hitems : ∀ item ∈ items, Acceptable item) :
      Acceptable (.object members)
  | unknown {members : Members} {type : String} {items : Option (List Json)}
      (hfits : FitsUnknown members type items)
      (hitems : ∀ item ∈ items.getD [], Acceptable item) :
      Acceptable (.object members)

/-- An object has no shape of a known type with acceptable children. Only such an object is read as
an unknown node. -/
def FitsNoKind (members : Members) : Prop :=
  ∀ kind items, FitsKind members kind items → ∃ item ∈ items, ¬ Acceptable item

/-- A node is what a value stands for. The known type comes first, an unknown one is taken only
where no known one fits, and the children of the node are what the items stand for, one by one and
in their order. -/
inductive Decodes : Json → Node → Prop where
  | typedLeaf {members : Members} {kind : LeafKind} {content : Leaf} {others : OtherMembers}
      (hfits : FitsKind members (.leaf kind) []) (hkind : content.variant? = some kind) :
      Decodes (.object members) (.leaf content others)
  | typedBranch {members : Members} {kind : BranchKind} {items : List Json} {content : Branch}
      {others : OtherMembers} {children : List Node}
      (hfits : FitsKind members (.branch kind) items) (hkind : content.variant? = some kind)
      (hchildren : List.Forall₂ Decodes items children) :
      Decodes (.object members) (.branch content others children)
  | unknownLeaf {members : Members} {type : String} {others : OtherMembers}
      (huntyped : FitsNoKind members) (hfits : FitsUnknown members type none) :
      Decodes (.object members) (.leaf (.unknown type) others)
  | unknownBranch {members : Members} {type : String} {items : List Json}
      {others : OtherMembers} {children : List Node}
      (huntyped : FitsNoKind members) (hfits : FitsUnknown members type (some items))
      (hchildren : List.Forall₂ Decodes items children) :
      Decodes (.object members) (.branch (.unknown type) others children)

/-! ### Reading fields -/

/-- The reader of depths accepts exactly the integers of one byte without a sign, that is those from
0 to 255. -/
theorem exists_readDepth_iff {value : Json} :
    (∃ depth, readDepth value = .ok depth) ↔ IsDepth value := by
  constructor
  · rintro ⟨depth, h⟩
    cases value with
    | number n =>
        cases n with
        | integer n =>
            rw [readDepth] at h
            split at h
            · -- An integer without a sign is a natural number.
              rename_i hrange
              obtain ⟨depth, rfl⟩ := Int.eq_ofNat_of_zero_le hrange.1
              exact ⟨depth, by omega, rfl⟩
            · simp [wrongType] at h
        | float negative magnitude => simp [readDepth, wrongType] at h
    | _ => simp [readDepth, wrongType] at h
  · rintro ⟨depth, hdepth, rfl⟩
    have hrange : (0 : Int) ≤ depth ∧ (depth : Int) < 256 := by omega
    exact ⟨_, by rw [Json.integer, readDepth, if_pos hrange]⟩

/-- The reader of reference types accepts exactly the three names, each as a text or as a record
with the name as its only key. -/
theorem exists_referenceType_iff {value : Json} :
    (∃ referenceType, ReferenceType.ofJson value = .ok referenceType) ↔ IsReferenceType value :=
  exists_readChoice_iff

/-- An embedding is read from any object. -/
theorem exists_embedding_iff {value : Json} (hnormal : value.normalize = value) :
    (∃ embedding, Estree.Embedding.ofJson value = .ok embedding) ↔ value.IsObject := by
  constructor
  · rintro ⟨embedding, h⟩
    obtain ⟨-⟩ := Estree.Embedding.readFrom_of_ofJson h
    exact ⟨_, rfl⟩
  · -- Whatever stands in the place of the program is read, as it is where it is no program.
    rintro ⟨(members : Members), rfl⟩
    have hfragment : (∃ fragment, members.optional "estree" (fun inner =>
        .ok (Estree.Fragment.ofJson inner)) = .ok fragment)
          ↔ members.MayHave "estree" (NullOr fun _ => True) :=
      (sorted_of_normal hnormal).exists_optional_iff "estree" fun _ _ =>
        ⟨fun _ => trivial, fun _ => ⟨_, rfl⟩⟩
    have hread : (∃ embedding, Estree.Embedding.ofJson (.object members) = .ok embedding)
        ↔ ∃ fragment, members.optional "estree" (fun inner =>
            .ok (Estree.Fragment.ofJson inner)) = .ok fragment :=
      (exists_bind_iff_of_ok fun _ => ⟨_, rfl⟩).trans Checked.exists_settle_iff
    exact hread.2 (hfragment.2 fun _ _ => .inr trivial)

section
variable {members : Members}

/-- A required text is read exactly when a text stands under the key. -/
theorem exists_text_iff (hsorted : members.Sorted) (key : String) :
    (∃ text, members.required key readString = .ok text) ↔ members.Has key IsText :=
  hsorted.exists_required_iff key fun _ _ => exists_readString_iff

/-- The program beside a node is read exactly when nothing, null or an object stands under its
key. -/
theorem exists_data_iff (hsorted : members.Sorted) (hnormal : members.NormalValues) :
    (∃ data, members.optional "data" Estree.Embedding.ofJson = .ok data)
      ↔ members.MayHave "data" (NullOr IsObject) :=
  hsorted.exists_optional_iff "data" fun value hvalue =>
    exists_embedding_iff (hnormal _ value hvalue)

/-- An expression is read exactly when it has a text as its value and what may stand as its
program. -/
theorem exists_expression_iff (hsorted : members.Sorted) (hnormal : members.NormalValues) :
    (∃ e, EmbeddedExpression.ofMembers members = .ok e) ↔ FitsExpression members := by
  rw [EmbeddedExpression.ofMembers, exists_bind_iff_of_ok fun _ => ⟨_, rfl⟩,
    Checked.exists_both_iff, exists_text_iff hsorted, exists_data_iff hsorted hnormal,
    FitsExpression]

end

/-- The value of an attribute is read exactly when it is a text, or an expression with the tag of
one. -/
theorem exists_attributeValue_iff {value : Json} (hnormal : value.normalize = value) :
    (∃ read, AttributeValue.ofJson value = .ok read) ↔ IsAttributeValue value := by
  cases value with
  | string text => simp [AttributeValue.ofJson, IsAttributeValue, IsText]
  | object members =>
      have hexpression := exists_expression_iff (sorted_of_normal hnormal)
        (normalValues_of_normal hnormal)
      have hread : (∃ read, AttributeValue.ofJson (.object members) = .ok read)
          ↔ ∃ e, EmbeddedExpression.ofMembers members = .ok e := by
        rw [AttributeValue.ofJson]
        cases EmbeddedExpression.ofMembers members <;> simp
      rw [hread, hexpression]
      simp [IsAttributeValue, IsText]
  | _ => simp [AttributeValue.ofJson, IsAttributeValue, IsText]

/-- A named attribute is read exactly when it has a text as its name and its value, if it has one,
is null or the value of an attribute. -/
theorem exists_namedAttribute_iff {members : Members} (hsorted : members.Sorted)
    (hnormal : members.NormalValues) :
    (∃ attr, NamedAttribute.ofJson (.object members) = .ok attr)
      ↔ members.Has "name" IsText ∧ members.MayHave "value" (NullOr IsAttributeValue) := by
  have hvalue := hsorted.exists_optional_iff "value" fun value hvalue =>
    exists_attributeValue_iff (hnormal _ value hvalue)
  rw [← exists_text_iff hsorted, ← hvalue, ← Checked.exists_both_iff]
  exact exists_bind_iff_of_ok fun _ => ⟨_, rfl⟩

/-- An attribute is read by its tag and then as the variant that the tag names. Neither variant is
read from anything but an object. -/
theorem exists_attribute_iff {value : Json} (hnormal : value.normalize = value) :
    (∃ attr, Attribute.ofJson .nameOrPosition value = .ok attr) ↔ IsAttribute value := by
  cases value with
  | object members =>
      have hsorted := sorted_of_normal hnormal
      have hvalues := normalValues_of_normal hnormal
      -- The variants are read from the members without the tag, which none of them asks for.
      have hnamed := exists_namedAttribute_iff (hsorted.keep (· != "type"))
        (hvalues.keep (· != "type"))
      have hspread := exists_expression_iff (hsorted.keep (· != "type"))
        (hvalues.keep (· != "type"))
      rw [FitsExpression] at hspread
      rw [has_keep (by decide), mayHave_keep (by decide)] at hnamed hspread
      rw [Attribute.ofJson, exists_readTagged_iff hsorted (by decide)]
      simp only [IsAttribute, Json.object.injEq, exists_eq_left']
      refine exists_congr fun kind => and_congr_right fun _ => ?_
      cases kind with
      | named => exact exists_map_iff.trans hnamed
      | spread => exact exists_map_iff.trans hspread
  | _ =>
      simp only [IsAttribute, reduceCtorEq, false_and, exists_false, iff_false]
      rintro ⟨attr, h⟩
      -- A tag may stand first in a list too, but what is left of a list is no object.
      cases Attribute.readFrom_of_ofJson h with
      | named htagged | spread htagged =>
          obtain ⟨_, _, ⟨⟩, _⟩ := readTagged_ok htagged

/-! ### Reading nodes -/

section
variable {members : Members}

/-- The reference type of a node is required, and it is read exactly when one stands under the
key. -/
theorem exists_reference_iff (hsorted : members.Sorted) :
    (∃ referenceType, members.required "referenceType" ReferenceType.ofJson = .ok referenceType)
      ↔ members.Has "referenceType" IsReferenceType :=
  hsorted.exists_required_iff "referenceType" fun _ _ => exists_referenceType_iff

/-- The fields of a leaf are read where each of them is of its shape. -/
theorem LeafKind.exists_read_iff (kind : LeafKind) (hsorted : members.Sorted)
    (hnormal : members.NormalValues) :
    (∃ content, kind.read members = .ok content) ↔ kind.Fits members := by
  have htext := exists_text_iff hsorted
  have hreference := exists_reference_iff hsorted
  have hdata := exists_data_iff hsorted hnormal
  -- Reader and shape list the same fields of each type, and each field is settled above.
  cases kind <;>
    simp [read, Fits, FitsExpression, exists_bind_iff, ← htext, ← hreference, ← hdata]

/-- The fields of a branch are read where each of them is of its shape. -/
theorem BranchKind.exists_read_iff (kind : BranchKind) (hsorted : members.Sorted)
    (hnormal : members.NormalValues) :
    (∃ content, kind.read members = .ok content) ↔ kind.Fits members := by
  have htext := exists_text_iff hsorted
  have hreference := exists_reference_iff hsorted
  have hdepth : (∃ depth, members.required "depth" readDepth = .ok depth)
      ↔ members.Has "depth" IsDepth :=
    hsorted.exists_required_iff "depth" fun _ _ => exists_readDepth_iff
  have hname : (∃ name, members.optional "name" readString = .ok name)
      ↔ members.MayHave "name" (NullOr IsText) :=
    hsorted.exists_optional_iff "name" fun _ _ => exists_readString_iff
  have hattributes :
      (∃ attributes, members.defaulted "attributes" []
          (readList (Attribute.ofJson .nameOrPosition)) = .ok attributes)
        ↔ members.MayHave "attributes" (ListOf IsAttribute) :=
    hsorted.exists_defaulted_iff "attributes" fun value hvalue =>
      exists_readList_iff fun items hitems item hitem =>
        exists_attribute_iff (normal_of_mem (hitems ▸ hnormal _ value hvalue) hitem)
  cases kind <;>
    simp [read, Fits, exists_bind_iff, ← htext, ← hreference, ← hdepth, ← hname,
      ← hattributes]

/-- The items of a known type are children of the object. -/
theorem FitsKind.mem_children {kind : NodeKind} {items : List Json}
    (h : FitsKind members kind items) {item : Json} (hitem : item ∈ items) :
    members.last? "children" = some (.array items) := by
  cases kind with
  | leaf kind =>
      rw [h.fields.2] at hitem
      cases hitem
  | branch kind =>
      rcases h.fields.2 with hlisted | ⟨-, -, rfl⟩
      · exact hlisted
      · cases hitem

/-- An object that has the shape of a known type is read as a typed node if its children are
read. -/
theorem Node.exists_typed?_of_fitsKind (hsorted : members.Sorted) (hnormal : members.NormalValues)
    {kind : NodeKind} {items : List Json} {nodes : List Node} (h : FitsKind members kind items)
    (hitems : Node.allOfJson? items = some nodes) :
    ∃ node, Node.typed? members (Node.childField members) = some node := by
  have htag := (hsorted.required_tag_iff (by decide)).2 h.tag
  -- The fields of either kind are read by their shapes; only a branch asks for children, and only
  -- an element goes without them.
  cases kind with
  | leaf kind =>
      obtain ⟨content, hread⟩ := (kind.exists_read_iff hsorted hnormal).2 h.fields.1
      exact ⟨.leaf content (.ofMembers kind.fieldNames members),
        by simp [Node.typed?, htag, hread]⟩
  | branch kind =>
      obtain ⟨content, hread⟩ := (kind.exists_read_iff hsorted hnormal).2 h.fields.1
      rcases h.fields.2 with hlisted | ⟨hoptional, habsent, -⟩
      · have hfield := (Node.childField_eq_nodes_iff hsorted).2 ⟨items, hlisted, hitems⟩
        exact ⟨.branch content (.ofMembers kind.fieldNames members) nodes,
          by simp [Node.typed?, htag, hfield, hread]⟩
      · have hfield := (Node.childField_eq_absent_iff hsorted).2 habsent
        exact ⟨.branch content (.ofMembers kind.fieldNames members) [],
          by simp [Node.typed?, htag, hfield, hread, hoptional]⟩

/-- An object that is read as a leaf of a known type has the shape of that type. -/
theorem LeafKind.fitsKind_of_read (hsorted : members.Sorted) (hnormal : members.NormalValues)
    {kind : LeafKind} {content : Leaf}
    (htag : members.required "type" (readTag .nameOrPosition NodeKind.names) = .ok (.leaf kind))
    (hread : kind.read members = .ok content) : FitsKind members (.leaf kind) [] :=
  ⟨(hsorted.required_tag_iff (by decide)).1 htag,
    (kind.exists_read_iff hsorted hnormal).1 ⟨content, hread⟩, rfl⟩

/-- An object that is read as a branch of a known type has the shape of that type, with the items
that its children are read from. -/
theorem BranchKind.fitsKind_of_read (hsorted : members.Sorted) (hnormal : members.NormalValues)
    {kind : BranchKind} {content : Branch} {nodes : List Node}
    (htag : members.required "type" (readTag .nameOrPosition NodeKind.names) = .ok (.branch kind))
    (hread : kind.read members = .ok content)
    (hfield : Node.childField members = .nodes nodes
      ∨ Node.childField members = .absent ∧ kind.childrenOptional = true ∧ nodes = []) :
    ∃ items, FitsKind members (.branch kind) items ∧ Node.allOfJson? items = some nodes := by
  have htag := (hsorted.required_tag_iff (by decide)).1 htag
  have hfits := (kind.exists_read_iff hsorted hnormal).1 ⟨content, hread⟩
  rcases hfield with hfield | ⟨hfield, hoptional, rfl⟩
  · obtain ⟨items, hlisted, hitems⟩ := (Node.childField_eq_nodes_iff hsorted).1 hfield
    exact ⟨items, ⟨htag, hfits, .inl hlisted⟩, hitems⟩
  · have habsent := (Node.childField_eq_absent_iff hsorted).1 hfield
    exact ⟨[], ⟨htag, hfits, .inr ⟨hoptional, habsent, rfl⟩⟩, rfl⟩

/-- An object that has the shape of an unknown node is read as one if its children are read. -/
theorem Node.exists_unknown?_of_fitsUnknown (hsorted : members.Sorted) {type : String}
    {items : Option (List Json)} {nodes : List Node} (h : FitsUnknown members type items)
    (hitems : Node.allOfJson? (items.getD []) = some nodes) :
    ∃ node, Node.unknown? members (Node.childField members) = some node := by
  have htype : members.required "type" readString = .ok type := hsorted.required h.type rfl
  -- The children are absent, null or listed, and each of the three is told apart from the others.
  rcases h.children with ⟨-, habsent | hnull⟩ | ⟨listed, rfl, hlisted⟩
  · have hfield := (Node.childField_eq_absent_iff hsorted).2 habsent
    exact ⟨_, by rw [Node.unknown?, htype, hfield]⟩
  · have hfield := (Node.childField_eq_null_iff hsorted).2 hnull
    exact ⟨_, by rw [Node.unknown?, htype, hfield]⟩
  · have hfield := (Node.childField_eq_nodes_iff hsorted).2 ⟨listed, hlisted, hitems⟩
    exact ⟨_, by rw [Node.unknown?, htype, hfield]⟩

end

/-! ### The result -/

/-- Every acceptable value is read. -/
theorem Acceptable.exists_ofJson? {value : Json} (h : Acceptable value) :
    value.normalize = value → ∃ node, Node.ofJson? value = some node := by
  -- The induction is on why the value is acceptable: the items are read, so the children are there
  -- when the object itself is looked at.
  induction h with
  | @typed members kind items hfits _ ih =>
      intro hnormal
      have hsorted := sorted_of_normal hnormal
      have hvalues := normalValues_of_normal hnormal
      obtain ⟨nodes, hnodes⟩ := Node.exists_allOfJson?_iff.2 fun item hitem =>
        ih item hitem (normal_of_mem (hvalues _ _ (hfits.mem_children hitem)) hitem)
      obtain ⟨node, htyped⟩ := Node.exists_typed?_of_fitsKind hsorted hvalues hfits hnodes
      exact ⟨node, by rw [Node.ofJson?, Node.assemble?, htyped]⟩
  | @unknown members type items hfits _ ih =>
      intro hnormal
      have hsorted := sorted_of_normal hnormal
      have hvalues := normalValues_of_normal hnormal
      have hitems : ∀ item ∈ items.getD [], ∃ node, Node.ofJson? item = some node := by
        rcases hfits.children with ⟨rfl, -⟩ | ⟨listed, rfl, hlisted⟩
        · simp
        · exact fun item hitem =>
            ih item hitem (normal_of_mem (hvalues _ _ hlisted) hitem)
      obtain ⟨nodes, hnodes⟩ := Node.exists_allOfJson?_iff.2 hitems
      obtain ⟨unknown, hunknown⟩ := Node.exists_unknown?_of_fitsUnknown hsorted hfits hnodes
      -- It may still be read as a typed node, if it has the shape of a known type as well.
      rw [Node.ofJson?, Node.assemble?, hunknown]
      cases Node.typed? members (Node.childField members) with
      | some node => exact ⟨node, rfl⟩
      | none => exact ⟨unknown, rfl⟩

/-- What is not read as a typed node has no shape of a known type with acceptable children. -/
theorem Node.fitsNoKind_of_typed? {members : Members} (hsorted : members.Sorted)
    (hnormal : members.NormalValues)
    (h : Node.typed? members (Node.childField members) = none) : FitsNoKind members := by
  intro kind items hfits
  by_contra hno
  push Not at hno
  obtain ⟨nodes, hnodes⟩ := Node.exists_allOfJson?_iff.2 fun item hitem =>
    (hno item hitem).exists_ofJson? (normal_of_mem (hnormal _ _ (hfits.mem_children hitem)) hitem)
  obtain ⟨typed, hsome⟩ := Node.exists_typed?_of_fitsKind hsorted hnormal hfits hnodes
  rw [h] at hsome
  cases hsome

/-- The items of a list are acceptable and stand for nodes if each one does that is read. -/
theorem Node.decodes_of_allOfJson? {items : List Json} {nodes : List Node}
    (hitems : ∀ item ∈ items, ∀ node, Node.ofJson? item = some node →
      Acceptable item ∧ Decodes item node) (h : Node.allOfJson? items = some nodes) :
    (∀ item ∈ items, Acceptable item) ∧ List.Forall₂ Decodes items nodes := by
  have hread := Node.allOfJson?_eq_some_iff.1 h
  have hboth := (List.forall₂_and_left items nodes).2 ⟨hitems, hread⟩
  exact (List.forall₂_and_left items nodes).1 (hboth.imp fun item node h => h.1 node h.2)

/-- A value that is read is acceptable and stands for the node that it is read as. The two come
together, because the children of a node are read before it is known whether the node is typed. -/
theorem Node.decodes_of_ofJson? (value : Json) : value.normalize = value →
    ∀ node, Node.ofJson? value = some node → Acceptable value ∧ Decodes value node := by
  induction value using Json.induction_children with
  | step value ih =>
      intro hnormal node h
      cases value with
      | object members =>
          have hsorted := sorted_of_normal hnormal
          have hvalues := normalValues_of_normal hnormal
          -- What the children are read as, by the statement about each of them.
          have hlist (items : List Json) (nodes : List Node)
              (hlisted : ∀ item ∈ items, Members.last? members "children" = some (.array items)) :
              Node.allOfJson? items = some nodes →
              (∀ item ∈ items, Acceptable item) ∧ List.Forall₂ Decodes items nodes :=
            Node.decodes_of_allOfJson? fun item hitem =>
              ih members items rfl (hlisted item hitem) item hitem
                (normal_of_mem (hvalues _ _ (hlisted item hitem)) hitem)
          cases Node.readAs_of_ofJson? h with
          | @typedLeaf kind content htag hread =>
              have hfits := kind.fitsKind_of_read hsorted hvalues htag hread
              exact ⟨.typed hfits (by simp), .typedLeaf hfits (LeafKind.read_ok_iff.1 hread).1⟩
          | @typedBranch kind content nodes htag hread hfield =>
              obtain ⟨items, hfits, hnodes⟩ :=
                kind.fitsKind_of_read hsorted hvalues htag hread hfield
              obtain ⟨haccept, hdecode⟩ := hlist items nodes (fun _ => hfits.mem_children) hnodes
              exact ⟨.typed hfits haccept,
                .typedBranch hfits (BranchKind.read_ok_iff.1 hread).1 hdecode⟩
          | @unknownBranch type nodes htyped htype hfield =>
              have huntyped := Node.fitsNoKind_of_typed? hsorted hvalues htyped
              obtain ⟨items, hlisted, hnodes⟩ := (Node.childField_eq_nodes_iff hsorted).1 hfield
              have hfits : FitsUnknown members type (some items) :=
                ⟨htype, .inr ⟨items, rfl, hlisted⟩⟩
              obtain ⟨haccept, hdecode⟩ := hlist items nodes (fun _ _ => hlisted) hnodes
              exact ⟨.unknown hfits haccept, .unknownBranch huntyped hfits hdecode⟩
          | @unknownLeaf type htyped htype hfield =>
              have huntyped := Node.fitsNoKind_of_typed? hsorted hvalues htyped
              have hfits : FitsUnknown members type none := by
                refine ⟨htype, .inl ⟨rfl, hfield.imp ?_ ?_⟩⟩
                · exact (Node.childField_eq_absent_iff hsorted).1
                · exact (Node.childField_eq_null_iff hsorted).1
              exact ⟨.unknown hfits (by simp), .unknownLeaf huntyped hfits⟩
      | _ => simp [Node.ofJson?] at h

/-- The reader of nodes takes the acceptable values. It tries a typed node first, but a value that
fits as an unknown one is never lost for that. -/
theorem Node.exists_ofJson?_iff {value : Json} (hnormal : value.normalize = value) :
    (∃ node, Node.ofJson? value = some node) ↔ Acceptable value :=
  ⟨fun ⟨node, h⟩ => (Node.decodes_of_ofJson? value hnormal node h).1,
    fun h => h.exists_ofJson? hnormal⟩

end ImageImports.Mdast
