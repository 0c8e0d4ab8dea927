import ImageImports.Mdast.Printer
import ImageImports.Mdast.Reader
import ImageImports.Proofs.Json.Canonical
import Mathlib.Data.List.Forall2

/-!
# `ImageImports.Proofs.Mdast.Content`: the content of nodes and its typed fields

A content that is not unknown belongs to a known type (`Leaf.variant?`, `Branch.variant?`), and the
reader finds that type again by the name that the content is written with. What the reader makes of
typed fields depends on nothing but what stands under their names (`LeafKind.read_ok_iff`,
`BranchKind.read_ok_iff`), and the same is said of attributes (`Attribute.ReadFrom` and the
predicates before it). An object is read as a node in one of four ways (`Node.ReadAs`), and whether
it is a typed node does not depend on which nodes its children are (`Node.typed?_congr`).
-/

set_option autoImplicit false

namespace ImageImports.Mdast

open Json Members

/-! ### Known types -/

/-- The known type of a leaf. -/
def Leaf.variant? : Leaf → Option LeafKind
  | .thematicBreak => some .thematicBreak
  | .lineBreak => some .lineBreak
  | .text kind _ => some (.text kind)
  | .definition .. => some .definition
  | .image _ => some .image
  | .imageReference .. => some .imageReference
  | .footnoteReference _ => some .footnoteReference
  | .esm .. => some .esm
  | .expression placement .. => some (.expression placement)
  | .unknown _ => none

/-- The known type of a branch. -/
def Branch.variant? : Branch → Option BranchKind
  | .heading _ => some .heading
  | .grouping kind => some (.grouping kind)
  | .footnoteDefinition _ => some .footnoteDefinition
  | .link _ => some .link
  | .linkReference .. => some .linkReference
  | .element placement .. => some (.element placement)
  | .unknown _ => none

/-- The names of the typed fields of a leaf. An unknown leaf has no children, and that is all that
is known about it. -/
def Leaf.fieldNames (content : Leaf) : List String :=
  match content.variant? with
  | some kind => kind.fieldNames
  | none => ["children"]

/-- The names of the typed fields of a branch. -/
def Branch.fieldNames (content : Branch) : List String :=
  match content.variant? with
  | some kind => kind.fieldNames
  | none => ["children"]

/-- The names of the typed fields of a node. -/
def Node.fieldNames : Node → List String
  | .leaf content _ => content.fieldNames
  | .branch content _ _ => content.fieldNames

/-- A leaf that belongs to no known type is an unknown node. It keeps the text that stood as its
type, and everything else it has is among its other members. -/
theorem Leaf.eq_unknown {content : Leaf} (h : content.variant? = none) :
    ∃ type, content = .unknown type := by
  cases content with
  | unknown type => exact ⟨type, rfl⟩
  | _ => cases h

/-- A branch that belongs to no known type is an unknown node with children. -/
theorem Branch.eq_unknown {content : Branch} (h : content.variant? = none) :
    ∃ type, content = .unknown type := by
  cases content with
  | unknown type => exact ⟨type, rfl⟩
  | _ => cases h

/-- The tag that a leaf of a known type is written with leads the reader back to that type. -/
theorem Leaf.lookup_kind {content : Leaf} {kind : LeafKind} (h : content.variant? = some kind) :
    NodeKind.names.lookup content.kind = some (.leaf kind) := by
  cases content with
  | text textKind value =>
      cases h
      cases textKind <;> rfl
  | expression placement value data =>
      cases h
      cases placement <;> rfl
  | _ =>
      cases h
      try rfl

/-- The tag that a branch of a known type is written with leads the reader back to that type. -/
theorem Branch.lookup_kind {content : Branch} {kind : BranchKind}
    (h : content.variant? = some kind) :
    NodeKind.names.lookup content.kind = some (.branch kind) := by
  cases content with
  | grouping group =>
      cases h
      cases group <;> rfl
  | element placement name attributes =>
      cases h
      cases placement <;> rfl
  | _ =>
      cases h
      try rfl

/-- Beside its other members an expression writes its value and its program, and nothing else. -/
theorem EmbeddedExpression.fields_subset (e : EmbeddedExpression) :
    ∀ m ∈ ("value", .string e.value) :: whenSome "data" Estree.Embedding.toJson e.data,
      m.1 ∈ ["value", "data"] := by
  cases e.data <;> simp [whenSome]

/-- The tag is never one of the typed fields of a leaf: it is written before them and read apart
from them. -/
theorem Leaf.type_not_mem_fieldNames (content : Leaf) : "type" ∉ content.fieldNames := by
  cases content <;> simp [fieldNames, variant?, LeafKind.fieldNames]

/-- The tag is never one of the typed fields of a branch. -/
theorem Branch.type_not_mem_fieldNames (content : Branch) : "type" ∉ content.fieldNames := by
  cases content <;> simp [fieldNames, variant?, BranchKind.fieldNames]

/-- Children are a typed field of every branch, unknown nodes included, so no branch has them among
its other members. -/
theorem Branch.children_mem_fieldNames (content : Branch) : "children" ∈ content.fieldNames := by
  cases content <;> simp [fieldNames, variant?, BranchKind.fieldNames]

/-- Every field that a leaf writes bears one of its names. Some of these names may be absent, for
instance an optional title. -/
theorem Leaf.fields_subset (content : Leaf) : ∀ m ∈ content.fields, m.1 ∈ content.fieldNames := by
  cases content with
  | esm value data =>
      cases data <;> simp [fields, whenSome, fieldNames, variant?, LeafKind.fieldNames]
  | expression placement value data =>
      cases data <;> simp [fields, whenSome, fieldNames, variant?, LeafKind.fieldNames]
  | _ => simp [fields, fieldNames, variant?, LeafKind.fieldNames]

/-- Every field that a branch writes, its children included, bears one of its names. -/
theorem Branch.fields_subset (content : Branch) (children : Json) :
    ∀ m ∈ content.fields ++ [("children", children)], m.1 ∈ content.fieldNames := by
  cases content <;> simp [fields, fieldNames, variant?, BranchKind.fieldNames]

/-! ### Typed fields -/

/-- Each typed field of a leaf is what the reader makes of the member under its name. -/
def Leaf.ReadFrom (members : Members) : Leaf → Prop
  | .thematicBreak => True
  | .lineBreak => True
  | .text _ value => members.required "value" readString = .ok value
  | .definition identifier url =>
      members.required "identifier" readString = .ok identifier
        ∧ members.required "url" readString = .ok url
  | .image url => members.required "url" readString = .ok url
  | .imageReference identifier referenceType =>
      members.required "identifier" readString = .ok identifier
        ∧ members.required "referenceType" ReferenceType.ofJson = .ok referenceType
  | .footnoteReference identifier => members.required "identifier" readString = .ok identifier
  | .esm value data =>
      members.required "value" readString = .ok value
        ∧ members.optional "data" Estree.Embedding.ofJson = .ok data
  | .expression _ value data =>
      members.required "value" readString = .ok value
        ∧ members.optional "data" Estree.Embedding.ofJson = .ok data
  | .unknown _ => True

/-- Each typed field of a branch, its children excepted, is what the reader makes of the member
under its name. -/
def Branch.ReadFrom (members : Members) : Branch → Prop
  | .heading depth => members.required "depth" readDepth = .ok depth
  | .grouping _ => True
  | .footnoteDefinition identifier => members.required "identifier" readString = .ok identifier
  | .link url => members.required "url" readString = .ok url
  | .linkReference identifier referenceType =>
      members.required "identifier" readString = .ok identifier
        ∧ members.required "referenceType" ReferenceType.ofJson = .ok referenceType
  | .element _ name attributes =>
      members.optional "name" readString = .ok name
        ∧ members.defaulted "attributes" [] (readList (Attribute.ofJson .nameOrPosition))
          = .ok attributes
  | .unknown _ => True

/-- A leaf of a known type is read exactly where each of its fields is. It gives the content that
has this type and these fields, and no other. -/
theorem LeafKind.read_ok_iff {kind : LeafKind} {members : Members} {content : Leaf} :
    kind.read members = .ok content ↔ content.variant? = some kind ∧ content.ReadFrom members := by
  constructor
  · intro h
    -- The reader asks for the fields one after the other and stops at the first that does not fit.
    cases kind with
    | thematicBreak =>
        cases h
        exact ⟨rfl, trivial⟩
    | lineBreak =>
        cases h
        exact ⟨rfl, trivial⟩
    | text textKind =>
        obtain ⟨value, hvalue, h⟩ := bind_ok_iff.1 h
        cases h
        exact ⟨rfl, hvalue⟩
    | definition =>
        obtain ⟨identifier, hidentifier, h⟩ := bind_ok_iff.1 h
        obtain ⟨url, hurl, h⟩ := bind_ok_iff.1 h
        cases h
        exact ⟨rfl, hidentifier, hurl⟩
    | image =>
        obtain ⟨url, hurl, h⟩ := bind_ok_iff.1 h
        cases h
        exact ⟨rfl, hurl⟩
    | imageReference =>
        obtain ⟨identifier, hidentifier, h⟩ := bind_ok_iff.1 h
        obtain ⟨referenceType, hreference, h⟩ := bind_ok_iff.1 h
        cases h
        exact ⟨rfl, hidentifier, hreference⟩
    | footnoteReference =>
        obtain ⟨identifier, hidentifier, h⟩ := bind_ok_iff.1 h
        cases h
        exact ⟨rfl, hidentifier⟩
    | esm =>
        obtain ⟨value, hvalue, h⟩ := bind_ok_iff.1 h
        obtain ⟨data, hdata, h⟩ := bind_ok_iff.1 h
        cases h
        exact ⟨rfl, hvalue, hdata⟩
    | expression placement =>
        obtain ⟨value, hvalue, h⟩ := bind_ok_iff.1 h
        obtain ⟨data, hdata, h⟩ := bind_ok_iff.1 h
        cases h
        exact ⟨rfl, hvalue, hdata⟩
  · rintro ⟨hvariant, hfields⟩
    -- The content names its type, and with all fields at hand the reader computes.
    cases content <;> cases hvariant <;> simp_all [Leaf.ReadFrom, read, bind, Except.bind]

/-- A branch of a known type is read exactly where each of its fields is. -/
theorem BranchKind.read_ok_iff {kind : BranchKind} {members : Members} {content : Branch} :
    kind.read members = .ok content ↔ content.variant? = some kind ∧ content.ReadFrom members := by
  constructor
  · intro h
    cases kind with
    | heading =>
        obtain ⟨depth, hdepth, h⟩ := bind_ok_iff.1 h
        cases h
        exact ⟨rfl, hdepth⟩
    | grouping group =>
        cases h
        exact ⟨rfl, trivial⟩
    | footnoteDefinition =>
        obtain ⟨identifier, hidentifier, h⟩ := bind_ok_iff.1 h
        cases h
        exact ⟨rfl, hidentifier⟩
    | link =>
        obtain ⟨url, hurl, h⟩ := bind_ok_iff.1 h
        cases h
        exact ⟨rfl, hurl⟩
    | linkReference =>
        obtain ⟨identifier, hidentifier, h⟩ := bind_ok_iff.1 h
        obtain ⟨referenceType, hreference, h⟩ := bind_ok_iff.1 h
        cases h
        exact ⟨rfl, hidentifier, hreference⟩
    | element placement =>
        obtain ⟨name, hname, h⟩ := bind_ok_iff.1 h
        obtain ⟨attributes, hattributes, h⟩ := bind_ok_iff.1 h
        cases h
        exact ⟨rfl, hname, hattributes⟩
  -- Back, the kind follows from the content, and the fields are those that its reader asks for.
  · rintro ⟨hvariant, hfields⟩
    cases content <;> cases hvariant <;> simp_all [Branch.ReadFrom, read, bind, Except.bind]

/-! ### Attributes -/

/-- An expression is read from its text and its program, if there is one. -/
inductive EmbeddedExpression.ReadFrom (members : Members) : EmbeddedExpression → Prop where
  | intro {value : String} {data : Option Estree.Embedding}
      (hvalue : members.required "value" readString = .ok value)
      (hdata : members.optional "data" Estree.Embedding.ofJson = .ok data) :
      ReadFrom members { value, data, others := .ofMembers ["value", "data"] members }

/-- What the reader of expressions returns was read from the members in the way
`EmbeddedExpression.ReadFrom` describes. -/
theorem EmbeddedExpression.readFrom_of_ofMembers {members : Members} {e : EmbeddedExpression}
    (h : ofMembers members = .ok e) : e.ReadFrom members := by
  obtain ⟨⟨value, data⟩, hfields, hresult⟩ := bind_ok_iff.1 h
  obtain ⟨hvalue, hdata⟩ := Checked.both_ok_iff.1 (Checked.settle_ok_iff.1 hfields)
  cases hresult
  exact .intro hvalue hdata

/-- The value of an attribute is a text, or is read from an object as an expression. -/
inductive AttributeValue.ReadFrom : Json → AttributeValue → Prop where
  | literal (text : String) : ReadFrom (.string text) (.literal text)
  | expression {members : Members} {e : EmbeddedExpression} (hexpression : e.ReadFrom members) :
      ReadFrom (.object members) (.expression e)

/-- What the reader of attribute values returns was read in one of two ways: a text as it stands, or
an object as an expression. -/
theorem AttributeValue.readFrom_of_ofJson {value : Json} {read : AttributeValue}
    (h : AttributeValue.ofJson value = .ok read) : read.ReadFrom value := by
  cases value with
  | string text =>
      cases h
      exact .literal text
  | object members =>
      rw [AttributeValue.ofJson] at h
      cases he : EmbeddedExpression.ofMembers members with
      | error cause => simp [he] at h
      | ok e =>
          obtain rfl : AttributeValue.expression e = read := by simpa [he] using h
          exact .expression (EmbeddedExpression.readFrom_of_ofMembers he)
  | _ => simp [AttributeValue.ofJson] at h

/-- An attribute with a name is read from the name and the value, if there is one. -/
inductive NamedAttribute.ReadFrom (members : Members) : NamedAttribute → Prop where
  | intro {name : String} {value : Option AttributeValue}
      (hname : members.required "name" readString = .ok name)
      (hvalue : members.optional "value" AttributeValue.ofJson = .ok value) :
      ReadFrom members { name, value, others := .ofMembers ["name", "value"] members }

/-- An attribute is read from a tag and the members beside it. -/
inductive Attribute.ReadFrom (form : TagForm) (value : Json) : Attribute → Prop where
  | named {members : Members} {attr : NamedAttribute}
      (htagged : readTagged "JsxAttribute" form AttributeKind.names value
        = .ok (.named, .object members))
      (hattr : attr.ReadFrom members) : ReadFrom form value (.named attr)
  | spread {members : Members} {e : EmbeddedExpression}
      (htagged : readTagged "JsxAttribute" form AttributeKind.names value
        = .ok (.spread, .object members))
      (hexpression : e.ReadFrom members) : ReadFrom form value (.spread e)

/-- What the reader of attributes returns was read in the way of its tag, as a named attribute or as
an expression. The form says whether the tag may be given by position. -/
theorem Attribute.readFrom_of_ofJson {form : TagForm} {value : Json} {attr : Attribute}
    (h : Attribute.ofJson form value = .ok attr) : attr.ReadFrom form value := by
  obtain ⟨⟨kind, content⟩, htagged, hcontent⟩ := bind_ok_iff.1 h
  cases kind with
  | named =>
      obtain ⟨read, hread, rfl⟩ := map_ok_iff.1 hcontent
      obtain ⟨members, hrecord, hrest⟩ := bind_ok_iff.1 hread
      obtain rfl := readRecord_ok hrecord
      obtain ⟨⟨name, found⟩, hfields, hresult⟩ := bind_ok_iff.1 hrest
      obtain ⟨hname, hvalue⟩ := Checked.both_ok_iff.1 (Checked.settle_ok_iff.1 hfields)
      cases hresult
      exact .named htagged (.intro hname hvalue)
  | spread =>
      obtain ⟨members, hrecord, hrest⟩ := bind_ok_iff.1 hcontent
      obtain rfl := readRecord_ok hrecord
      obtain ⟨e, he, rfl⟩ := map_ok_iff.1 hrest
      exact .spread htagged (EmbeddedExpression.readFrom_of_ofMembers he)

/-! ### What a reader depends on -/

section
variable {members members' : Members}

/-- What a leaf is read from is what stands under the names of its fields, and neither its type nor
its children are among them. -/
theorem Leaf.ReadFrom.congr {content : Leaf} (hread : content.ReadFrom members)
    (hs : members'.Sorted)
    (h : ∀ key, key ≠ "type" → key ≠ "children" → members.last? key = members'.last? key) :
    content.ReadFrom members' := by
  cases content with
  | thematicBreak => trivial
  | lineBreak => trivial
  | unknown type => trivial
  | text kind value => exact hs.required_congr (h _ (by decide) (by decide)) hread
  | image url => exact hs.required_congr (h _ (by decide) (by decide)) hread
  | footnoteReference identifier =>
      exact hs.required_congr (h _ (by decide) (by decide)) hread
  | definition identifier url =>
      exact ⟨hs.required_congr (h _ (by decide) (by decide)) hread.1,
        hs.required_congr (h _ (by decide) (by decide)) hread.2⟩
  | imageReference identifier referenceType =>
      exact ⟨hs.required_congr (h _ (by decide) (by decide)) hread.1,
        hs.required_congr (h _ (by decide) (by decide)) hread.2⟩
  | esm value data =>
      exact ⟨hs.required_congr (h _ (by decide) (by decide)) hread.1,
        hs.defaulted_congr (h _ (by decide) (by decide)) hread.2⟩
  | expression placement value data =>
      exact ⟨hs.required_congr (h _ (by decide) (by decide)) hread.1,
        hs.defaulted_congr (h _ (by decide) (by decide)) hread.2⟩

/-- The content of a branch depends on neither the tag nor the children. Members that agree
everywhere else give the same content. -/
theorem Branch.ReadFrom.congr {content : Branch} (hread : content.ReadFrom members)
    (hs : members'.Sorted)
    (h : ∀ key, key ≠ "type" → key ≠ "children" → members.last? key = members'.last? key) :
    content.ReadFrom members' := by
  cases content with
  | grouping kind => trivial
  | unknown type => trivial
  | heading depth => exact hs.required_congr (h _ (by decide) (by decide)) hread
  | footnoteDefinition identifier =>
      exact hs.required_congr (h _ (by decide) (by decide)) hread
  | link url => exact hs.required_congr (h _ (by decide) (by decide)) hread
  | linkReference identifier referenceType =>
      exact ⟨hs.required_congr (h _ (by decide) (by decide)) hread.1,
        hs.required_congr (h _ (by decide) (by decide)) hread.2⟩
  | element placement name attributes =>
      exact ⟨hs.defaulted_congr (h _ (by decide) (by decide)) hread.1,
        hs.defaulted_congr (h _ (by decide) (by decide)) hread.2⟩

/-- The content of a leaf is read again from members that differ in its type and its children
only. -/
theorem LeafKind.read_congr {kind : LeafKind} {content : Leaf}
    (hread : kind.read members = .ok content) (hs : members'.Sorted)
    (h : ∀ key, key ≠ "type" → key ≠ "children" → members.last? key = members'.last? key) :
    kind.read members' = .ok content := by
  obtain ⟨hvariant, hfields⟩ := LeafKind.read_ok_iff.1 hread
  exact LeafKind.read_ok_iff.2 ⟨hvariant, hfields.congr hs h⟩

/-- The reader of a known type looks at neither the tag nor the children, so it returns the same
content for members that agree everywhere else. It is this that lets the children of a node change
while the node stays what it is. -/
theorem BranchKind.read_congr {kind : BranchKind} {content : Branch}
    (hread : kind.read members = .ok content) (hs : members'.Sorted)
    (h : ∀ key, key ≠ "type" → key ≠ "children" → members.last? key = members'.last? key) :
    kind.read members' = .ok content := by
  obtain ⟨hvariant, hfields⟩ := BranchKind.read_ok_iff.1 hread
  exact BranchKind.read_ok_iff.2 ⟨hvariant, hfields.congr hs h⟩

end

/-! ### Typed nodes -/

/-- The two ways to read a typed node. -/
theorem Node.typed?_eq_some {members : Members} {children : ChildField} {node : Node}
    (h : Node.typed? members children = some node) :
    (∃ kind content,
        members.required "type" (readTag .nameOrPosition NodeKind.names) = .ok (.leaf kind)
          ∧ kind.read members = .ok content
          ∧ node = .leaf content (.ofMembers kind.fieldNames members))
      ∨ ∃ kind content nodes,
        members.required "type" (readTag .nameOrPosition NodeKind.names) = .ok (.branch kind)
          ∧ kind.read members = .ok content
          ∧ (children = .nodes nodes
            ∨ children = .absent ∧ kind.childrenOptional = true ∧ nodes = [])
          ∧ node = .branch content (.ofMembers kind.fieldNames members) nodes := by
  unfold typed? at h
  cases hkind : members.required "type" (readTag .nameOrPosition NodeKind.names) with
  | error e => simp [hkind] at h
  | ok nodeKind =>
      simp only [hkind] at h
      cases nodeKind with
      | leaf kind =>
          cases hread : kind.read members with
          | error e => simp [hread] at h
          | ok content =>
              simp only [hread, Option.some.injEq] at h
              exact .inl ⟨kind, content, rfl, hread, h.symm⟩
      | branch kind =>
          cases hread : kind.read members with
          | error e => simp [hread] at h
          | ok content =>
              simp only [hread] at h
              -- Only an element may be without a list of children.
              cases children with
              | nodes nodes =>
                  simp only [Option.some.injEq] at h
                  exact .inr ⟨kind, content, nodes, rfl, hread, .inl rfl, h.symm⟩
              | absent =>
                  by_cases hopt : kind.childrenOptional = true
                  · simp only [hopt, if_true, Option.some.injEq] at h
                    exact .inr ⟨kind, content, [], rfl, hread, .inr ⟨rfl, hopt, rfl⟩, h.symm⟩
                  · simp [hopt] at h
              | null => simp at h
              | bad => simp at h

/-- The two ways to read an unknown node. -/
theorem Node.unknown?_eq_some {members : Members} {children : ChildField} {node : Node}
    (h : Node.unknown? members children = some node) :
    ∃ type, members.last? "type" = some (.string type)
      ∧ ((∃ nodes, children = .nodes nodes
            ∧ node = .branch (.unknown type) (.ofMembers ["children"] members) nodes)
        ∨ (children = .absent ∨ children = .null)
            ∧ node = .leaf (.unknown type) (.ofMembers ["children"] members)) := by
  unfold unknown? at h
  cases hread : Members.required members "type" readString with
  | error complaint => simp [hread] at h
  | ok type =>
      obtain ⟨tag, htag, htagRead⟩ := required_ok hread
      obtain rfl := readString_ok htagRead
      refine ⟨type, htag, ?_⟩
      cases children with
      | nodes nodes => exact .inl ⟨nodes, rfl, by simpa [hread] using h.symm⟩
      | absent => exact .inr ⟨.inl rfl, by simpa [hread] using h.symm⟩
      | null => exact .inr ⟨.inr rfl, by simpa [hread] using h.symm⟩
      | bad => simp [hread] at h

/-- How an object is read as a node, given its children: as a leaf or a branch of a known type or,
if it fits none, as an unknown node with or without children. -/
inductive Node.ReadAs (members : Members) (field : ChildField) : Node → Prop where
  | typedLeaf {kind : LeafKind} {content : Leaf}
      (htag : members.required "type" (readTag .nameOrPosition NodeKind.names) = .ok (.leaf kind))
      (hread : kind.read members = .ok content) :
      ReadAs members field (.leaf content (.ofMembers kind.fieldNames members))
  | typedBranch {kind : BranchKind} {content : Branch} {nodes : List Node}
      (htag : members.required "type" (readTag .nameOrPosition NodeKind.names) = .ok (.branch kind))
      (hread : kind.read members = .ok content)
      (hfield : field = .nodes nodes
        ∨ field = .absent ∧ kind.childrenOptional = true ∧ nodes = []) :
      ReadAs members field (.branch content (.ofMembers kind.fieldNames members) nodes)
  | unknownBranch {type : String} {nodes : List Node}
      (htyped : Node.typed? members field = none)
      (htype : members.last? "type" = some (.string type)) (hfield : field = .nodes nodes) :
      ReadAs members field (.branch (.unknown type) (.ofMembers ["children"] members) nodes)
  | unknownLeaf {type : String} (htyped : Node.typed? members field = none)
      (htype : members.last? "type" = some (.string type))
      (hfield : field = .absent ∨ field = .null) :
      ReadAs members field (.leaf (.unknown type) (.ofMembers ["children"] members))

/-- The reader puts a node together in one of the ways of `Node.ReadAs`. -/
theorem Node.readAs_of_assemble? {members : Members} {field : ChildField} {node : Node}
    (h : Node.assemble? members field = some node) : node.ReadAs members field := by
  rw [assemble?] at h
  cases htyped : typed? members field with
  | some typed =>
      obtain rfl : typed = node := by simpa [htyped] using h
      rcases typed?_eq_some htyped with ⟨kind, content, htag, hread, rfl⟩
        | ⟨kind, content, nodes, htag, hread, hfield, rfl⟩
      · exact .typedLeaf htag hread
      · exact .typedBranch htag hread hfield
  | none =>
      rw [htyped] at h
      obtain ⟨type, htype, ⟨nodes, hfield, rfl⟩ | ⟨hfield, rfl⟩⟩ := unknown?_eq_some h
      · exact .unknownBranch htyped htype hfield
      · exact .unknownLeaf htyped htype hfield

/-- An object that is read as a node is read in one of the ways of `Node.ReadAs`, with what stands
under its children. -/
theorem Node.readAs_of_ofJson? {members : Members} {node : Node}
    (h : Node.ofJson? (.object members) = some node) :
    node.ReadAs members (Node.childField members) := by
  rw [ofJson?] at h
  exact Node.readAs_of_assemble? h

/-- Whether an object is a typed node does not depend on which nodes its children are. So a node
that is unknown stays so when its children are rewritten. -/
theorem Node.typed?_congr {members members' : Members} {nodes nodes' : List Node}
    (hs : members'.Sorted) (h : ∀ key, key ≠ "children" → members.last? key = members'.last? key)
    (hnone : Node.typed? members' (.nodes nodes') = none) :
    Node.typed? members (.nodes nodes) = none := by
  cases htyped : Node.typed? members (.nodes nodes) with
  | none => rfl
  | some node =>
      -- The fields that make it typed are found in the other members too.
      rcases typed?_eq_some htyped with ⟨kind, content, htag, hread, -⟩
        | ⟨kind, content, nodes, htag, hread, -, -⟩
      · have htag' := hs.required_congr (h _ (by decide)) htag
        have hread' := LeafKind.read_congr hread hs fun key _ hkey => h key hkey
        simp [typed?, htag', hread'] at hnone
      · have htag' := hs.required_congr (h _ (by decide)) htag
        have hread' := BranchKind.read_congr hread hs fun key _ hkey => h key hkey
        simp [typed?, htag', hread'] at hnone

/-! ### Children -/

/-- The children of an object are read from the first list of children, if no other follows. -/
theorem Node.childField_eq (members : Members) :
    Node.childField members
      = match members.first? "children" with
        | none => .absent
        | some (_, value, rest) =>
            if (rest.first? "children").isSome then .bad else Node.childValue value := by
  induction members with
  | nil => rw [childField, first?]
  | cons head rest ih =>
      obtain ⟨key, value⟩ := head
      rw [childField, first?]
      -- The reader stops at the first member of that name and looks for another behind it.
      by_cases hkey : key = "children"
      · simp [hkey, isSome_first?]
      · simp only [hkey, if_false, ih]
        cases first? rest "children" with
        | none => rfl
        | some found => rfl

/-- Unless something is wrong with it, the member `children` is the last one of its name. -/
theorem Node.childField_of_ne_bad {members : Members} (h : Node.childField members ≠ .bad) :
    Node.childField members = (members.last? "children").elim .absent Node.childValue := by
  rw [childField_eq] at h ⊢
  cases hfirst : members.first? "children" with
  | none =>
      have hnone := first?_eq_none_iff.1 hfirst
      rw [hnone]
      rfl
  | some found =>
      obtain ⟨place, value, rest⟩ := found
      cases hrest : rest.first? "children" with
      | none =>
          rw [last?_of_first? hfirst hrest]
          simp [hrest]
      | some again => simp [hfirst, hrest] at h

/-- When the members are sorted, what counts as the children is what stands under that key. -/
theorem Node.childField_of_sorted {members : Members} (hs : members.Sorted) :
    Node.childField members = (members.last? "children").elim .absent Node.childValue := by
  rw [childField_eq]
  cases hlast : members.last? "children" with
  | none =>
      have hnone := first?_eq_none_iff.2 hlast
      rw [hnone]
      rfl
  | some value =>
      obtain ⟨place, rest, hfirst, hrest⟩ := hs.first?_of_last? hlast
      rw [hfirst]
      simp [hrest]

/-- A value that stands under the key never counts as no children at all. -/
theorem Node.childValue_ne_absent (value : Json) : Node.childValue value ≠ .absent := by
  cases value with
  | array items =>
      rw [Node.childValue]
      cases Node.allOfJson? items <;> simp
  | _ => simp [Node.childValue]

/-- Null counts as null children, and nothing else does. -/
theorem Node.childValue_eq_null_iff {value : Json} :
    Node.childValue value = .null ↔ value = .null := by
  cases value with
  | array items =>
      rw [Node.childValue]
      cases Node.allOfJson? items <;> simp
  | _ => simp [Node.childValue]

/-- A value counts as children exactly when it is a list and each item of it is read as a node. -/
theorem Node.childValue_eq_nodes_iff {value : Json} {nodes : List Node} :
    Node.childValue value = .nodes nodes
      ↔ ∃ items, value = .array items ∧ Node.allOfJson? items = some nodes := by
  cases value with
  | array items =>
      rw [Node.childValue]
      cases hall : Node.allOfJson? items <;> simp [hall]
  | _ => simp [Node.childValue]

section
variable {members : Members} (hs : members.Sorted)
include hs

/-- There are no children to read from sorted members where nothing stands under their name. -/
theorem Node.childField_eq_absent_iff :
    Node.childField members = .absent ↔ members.last? "children" = none := by
  rw [childField_of_sorted hs]
  cases members.last? "children" <;> simp [childValue_ne_absent]

/-- The children that are read from sorted members are null where a null stands under their name. -/
theorem Node.childField_eq_null_iff :
    Node.childField members = .null ↔ members.last? "children" = some .null := by
  rw [childField_of_sorted hs]
  cases members.last? "children" <;> simp [childValue_eq_null_iff]

/-- The children that are read from sorted members are the nodes of the list under their name. -/
theorem Node.childField_eq_nodes_iff {nodes : List Node} :
    Node.childField members = .nodes nodes
      ↔ ∃ items, members.last? "children" = some (.array items)
          ∧ Node.allOfJson? items = some nodes := by
  rw [childField_of_sorted hs]
  cases members.last? "children" <;> simp [childValue_eq_nodes_iff]

end

/-- A list of values is read as nodes where each value is read as the node at its place. -/
theorem Node.allOfJson?_eq_some_iff {items : List Json} {nodes : List Node} :
    Node.allOfJson? items = some nodes
      ↔ List.Forall₂ (fun item node => Node.ofJson? item = some node) items nodes := by
  induction items generalizing nodes with
  | nil =>
      rw [Node.allOfJson?, List.forall₂_nil_left_iff]
      exact ⟨fun h => (Option.some.inj h).symm, fun h => h ▸ rfl⟩
  | cons item rest ih =>
      rw [Node.allOfJson?, List.forall₂_cons_left_iff]
      constructor
      · intro h
        cases hitem : Node.ofJson? item with
        | none => simp [hitem] at h
        | some node =>
            cases hrest : Node.allOfJson? rest with
            | none => simp [hitem, hrest] at h
            | some tail =>
                obtain rfl : node :: tail = nodes := by simpa [hitem, hrest] using h
                exact ⟨node, tail, rfl, ih.1 hrest, rfl⟩
      · rintro ⟨node, tail, hitem, htail, rfl⟩
        rw [hitem, ih.2 htail]

/-- A list of values is read as nodes where each value is read as a node. -/
theorem Node.exists_allOfJson?_iff {items : List Json} :
    (∃ nodes, Node.allOfJson? items = some nodes)
      ↔ ∀ item ∈ items, ∃ node, Node.ofJson? item = some node := by
  induction items with
  | nil => simp [Node.allOfJson?]
  | cons item rest ih =>
      rw [List.forall_mem_cons, ← ih, Node.allOfJson?]
      cases Node.ofJson? item <;> cases Node.allOfJson? rest <;> simp

/-- Every node of a list was read from one of its values. -/
theorem Node.exists_mem_of_allOfJson? {items : List Json} {nodes : List Node}
    (h : Node.allOfJson? items = some nodes) {node : Node} (hnode : node ∈ nodes) :
    ∃ item ∈ items, Node.ofJson? item = some node :=
  exists_mem_of_forall₂ (Node.allOfJson?_eq_some_iff.1 h) hnode

/-- A document that was read: its nodes are the items of the list of children, and its other members
are all the others. -/
theorem Root.ofJson_ok {value : Json} {root : Root} (h : Root.ofJson value = .ok root) :
    ∃ (members : Members) (items : List Json), value = .object members
      ∧ members.last? "children" = some (.array items)
      ∧ Node.allOfJson? items = some root.children
      ∧ root.others = .ofMembers ["children"] members := by
  obtain ⟨members, hrecord, hrest⟩ := bind_ok_iff.1 h
  obtain ⟨children, hchildren, hresult⟩ := bind_ok_iff.1 hrest
  obtain ⟨list, hlast, hlist⟩ := required_ok (Checked.settle_ok_iff.1 hchildren)
  cases hresult
  cases list with
  | array items =>
      rw [Node.listOfJson] at hlist
      cases hall : Node.allOfJson? items with
      | none => simp [hall] at hlist
      | some found =>
          obtain rfl : found = children := by simpa [hall] using hlist
          exact ⟨members, items, readRecord_ok hrecord, hlast, hall, rfl⟩
  | _ => simp [Node.listOfJson, wrongType] at hlist

end ImageImports.Mdast
