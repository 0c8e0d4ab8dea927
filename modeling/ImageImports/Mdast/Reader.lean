import ImageImports.Mdast.Basic
import ImageImports.Estree.Reader

/-!
# `ImageImports.Mdast.Reader`: documents from their JSON form

A node is an object with a type. Where the type is known and all its typed fields fit, the node is
typed; otherwise it is kept as an unknown node if its type is a text and its children, if present,
are nodes. So a defect in a field of a node never fails a document, but a child that is no node
does. Members that no typed field takes are kept beside the typed fields.

The type of a node may also be given by its position in the list of types (`NodeKind.names`), and
then is written back by its name.

Main definitions: `Node.ofJson?` and `Root.ofJson`, the derived readers of `Node` and `Root`.
-/

set_option autoImplicit false

namespace ImageImports.Mdast

open Json

/-! ### Attributes -/

/-- Reads the members of an expression and its program. A null stands for a program that is not
recorded. -/
def EmbeddedExpression.ofMembers (members : Members) : Except Mismatch EmbeddedExpression := do
  let (value, data) ←
    ((members.required "value" readString).both
      (members.optional "data" Estree.Embedding.ofJson)).settle
  .ok { value, data, others := .ofMembers ["value", "data"] members }

/-- Reads the value of an attribute (`AttributeValue`): a text, or an object that holds an
expression. Its choices are tried in turn, so the type of the object is not looked at. -/
def AttributeValue.ofJson : Json → Except Mismatch AttributeValue
  | .string s => .ok (.literal s)
  | .object members =>
      match EmbeddedExpression.ofMembers members with
      | .ok e => .ok (.expression e)
      | .error _ => .error (.noVariant "AttributeValue")
  | _ => .error (.noVariant "AttributeValue")

/-- Reads an attribute with a name (`MdxJsxAttribute`). A value that is null or missing makes it an
attribute without a value. -/
def NamedAttribute.ofJson (value : Json) : Except Mismatch NamedAttribute := do
  let members ← readRecord "MdxJsxAttribute" value
  let (name, value) ←
    ((members.required "name" readString).both
      (members.optional "value" AttributeValue.ofJson)).settle
  .ok { name, value, others := .ofMembers ["name", "value"] members }

/-- The two kinds of attributes. -/
inductive AttributeKind where
  | named
  | spread

/-- The types of attributes, in the order of their positions. -/
def AttributeKind.names : List (String × AttributeKind) :=
  [("mdxJsxAttribute", .named), ("mdxJsxExpressionAttribute", .spread)]

/-- Reads an attribute (`JsxAttribute`). Which of the two kinds it is depends on its type, and one
that does not fit its kind makes the whole element an unknown node. -/
def Attribute.ofJson (form : TagForm) (value : Json) : Except Mismatch Attribute := do
  let (kind, content) ← readTagged "JsxAttribute" form AttributeKind.names value
  match kind with
  | .named => (NamedAttribute.ofJson content).map .named
  | .spread => do
      let members ← readRecord "MdxExpression" content
      (EmbeddedExpression.ofMembers members).map .spread

/-! ### Kinds of nodes -/

/-- The known types of leaves. -/
inductive LeafKind where
  | thematicBreak
  | lineBreak
  | text (kind : TextKind)
  | definition
  | image
  | imageReference
  | footnoteReference
  | esm
  | expression (placement : Placement)
deriving DecidableEq

/-- The known types of branches. -/
inductive BranchKind where
  | heading
  | grouping (kind : Grouping)
  | footnoteDefinition
  | link
  | linkReference
  | element (placement : Placement)
deriving DecidableEq

/-- The known types of nodes. -/
inductive NodeKind where
  | leaf (kind : LeafKind)
  | branch (kind : BranchKind)
deriving DecidableEq

/-- The known types by name, in the order of their positions. -/
def NodeKind.names : List (String × NodeKind) :=
  [("heading", .branch .heading),
    ("paragraph", .branch (.grouping .paragraph)),
    ("thematicBreak", .leaf .thematicBreak),
    ("blockquote", .branch (.grouping .blockquote)),
    ("list", .branch (.grouping .list)),
    ("listItem", .branch (.grouping .listItem)),
    ("code", .leaf (.text .code)),
    ("html", .leaf (.text .html)),
    ("definition", .leaf .definition),
    ("footnoteDefinition", .branch .footnoteDefinition),
    ("table", .branch (.grouping .table)),
    ("tableRow", .branch (.grouping .tableRow)),
    ("tableCell", .branch (.grouping .tableCell)),
    ("yaml", .leaf (.text .yaml)),
    ("toml", .leaf (.text .toml)),
    ("text", .leaf (.text .text)),
    ("emphasis", .branch (.grouping .emphasis)),
    ("strong", .branch (.grouping .strong)),
    ("delete", .branch (.grouping .delete)),
    ("inlineCode", .leaf (.text .inlineCode)),
    ("break", .leaf .lineBreak),
    ("link", .branch .link),
    ("image", .leaf .image),
    ("linkReference", .branch .linkReference),
    ("imageReference", .leaf .imageReference),
    ("footnoteReference", .leaf .footnoteReference),
    ("math", .leaf (.text .math)),
    ("inlineMath", .leaf (.text .inlineMath)),
    ("mdxjsEsm", .leaf .esm),
    ("mdxJsxFlowElement", .branch (.element .flow)),
    ("mdxJsxTextElement", .branch (.element .text)),
    ("mdxFlowExpression", .leaf (.expression .flow)),
    ("mdxTextExpression", .leaf (.expression .text))]

/-! ### Typed fields -/

/-- The ways to name a definition. -/
def ReferenceType.names : List (String × ReferenceType) :=
  [("shortcut", .shortcut), ("collapsed", .collapsed), ("full", .full)]

/-- Reads a way to name a definition (`ReferenceType`). -/
def ReferenceType.ofJson : Json → Except Mismatch ReferenceType :=
  readChoice ReferenceType.names isNullOrEmpty

/-- Reads the depth of a heading: an integer of eight bits without a sign. -/
def readDepth : Json → Except Mismatch UInt8
  | .number (.integer n) =>
      if 0 ≤ n ∧ n < 256 then .ok n.toNat.toUInt8 else (Json.integer n).wrongType "u8"
  | other => other.wrongType "u8"

/-- The names of the typed fields of a leaf. -/
def LeafKind.fieldNames : LeafKind → List String
  | .thematicBreak => []
  | .lineBreak => []
  | .text _ => ["value"]
  | .definition => ["identifier", "url"]
  | .image => ["url"]
  | .imageReference => ["identifier", "referenceType"]
  | .footnoteReference => ["identifier"]
  | .esm => ["value", "data"]
  | .expression _ => ["value", "data"]

/-- Reads the typed fields of a leaf. A field that is missing, is given twice or does not fit is a
fault, and the node is an unknown one then. -/
def LeafKind.read (kind : LeafKind) (members : Members) : Checked Leaf :=
  match kind with
  | .thematicBreak => .ok .thematicBreak
  | .lineBreak => .ok .lineBreak
  | .text kind => do
      let value ← members.required "value" readString
      .ok (.text kind value)
  | .definition => do
      let identifier ← members.required "identifier" readString
      let url ← members.required "url" readString
      .ok (.definition identifier url)
  | .image => do
      let url ← members.required "url" readString
      .ok (.image url)
  | .imageReference => do
      let identifier ← members.required "identifier" readString
      let referenceType ← members.required "referenceType" ReferenceType.ofJson
      .ok (.imageReference identifier referenceType)
  | .footnoteReference => do
      let identifier ← members.required "identifier" readString
      .ok (.footnoteReference identifier)
  | .esm => do
      let value ← members.required "value" readString
      let data ← members.optional "data" Estree.Embedding.ofJson
      .ok (.esm value data)
  | .expression placement => do
      let value ← members.required "value" readString
      let data ← members.optional "data" Estree.Embedding.ofJson
      .ok (.expression placement value data)

/-- The names of the typed fields of a branch. -/
def BranchKind.fieldNames : BranchKind → List String
  | .heading => ["depth", "children"]
  | .grouping _ => ["children"]
  | .footnoteDefinition => ["identifier", "children"]
  | .link => ["url", "children"]
  | .linkReference => ["identifier", "referenceType", "children"]
  | .element _ => ["name", "attributes", "children"]

/-- Reads the typed fields of a branch, its children excepted. Only an element may go without some
of its fields. -/
def BranchKind.read (kind : BranchKind) (members : Members) : Checked Branch :=
  match kind with
  | .heading => do
      let depth ← members.required "depth" readDepth
      .ok (.heading depth)
  | .grouping kind => .ok (.grouping kind)
  | .footnoteDefinition => do
      let identifier ← members.required "identifier" readString
      .ok (.footnoteDefinition identifier)
  | .link => do
      let url ← members.required "url" readString
      .ok (.link url)
  | .linkReference => do
      let identifier ← members.required "identifier" readString
      let referenceType ← members.required "referenceType" ReferenceType.ofJson
      .ok (.linkReference identifier referenceType)
  | .element placement => do
      let name ← members.optional "name" readString
      let attributes ←
        members.defaulted "attributes" [] (readList (Attribute.ofJson .nameOrPosition))
      .ok (.element placement name attributes)

/-- Whether a branch of this type may leave out the list of its children. Only elements may, and
only by leaving it out: null is no list for them either. -/
def BranchKind.childrenOptional : BranchKind → Bool
  | .element _ => true
  | _ => false

/-! ### Nodes -/

/-- What the member `children` of an object holds. -/
inductive ChildField where
  /-- There is no such member. -/
  | absent
  /-- The member is null. -/
  | null
  /-- The member is a list of nodes. -/
  | nodes (nodes : List Node)
  /-- The member is something else, or there are several of them. -/
  | bad

/-- The typed node that an object stands for, given its children; none where the object has no
known type or a member does not fit. -/
def Node.typed? (members : Members) (children : ChildField) : Option Node :=
  match members.required "type" (readTag .nameOrPosition NodeKind.names) with
  | .error _ => none
  | .ok (.leaf kind) =>
      match kind.read members with
      | .error _ => none
      | .ok content => some (.leaf content (.ofMembers kind.fieldNames members))
  | .ok (.branch kind) =>
      match kind.read members with
      | .error _ => none
      | .ok content =>
          let others := .ofMembers kind.fieldNames members
          match children with
          | .nodes nodes => some (.branch content others nodes)
          | .absent => if kind.childrenOptional then some (.branch content others []) else none
          | .null => none
          | .bad => none

/-- The unknown node that an object stands for, given its children; none where its type is no
text or its children are no nodes. -/
def Node.unknown? (members : Members) (children : ChildField) : Option Node :=
  match members.required "type" readString with
  | .error _ => none
  | .ok type =>
      let others := .ofMembers ["children"] members
      match children with
      | .nodes nodes => some (.branch (.unknown type) others nodes)
      | .absent => some (.leaf (.unknown type) others)
      | .null => some (.leaf (.unknown type) others)
      | .bad => none

/-- The node that an object stands for, given its children: typed where that fits, and otherwise an
unknown one. -/
def Node.assemble? (members : Members) (children : ChildField) : Option Node :=
  match Node.typed? members children with
  | some node => some node
  | none => Node.unknown? members children

mutual

/-- Reads a node (`Node`). The children are read first, and what the object is depends on them only
as far as they are nodes at all. -/
def Node.ofJson? : Json → Option Node
  | .object members => Node.assemble? members (Node.childField members)
  | _ => none

/-- Reads the member `children` among some members. It counts as unfit if the key is there twice. -/
def Node.childField : List (String × Json) → ChildField
  | [] => .absent
  | (key, value) :: rest =>
      if key = "children" then
        if Members.hasKey rest "children" then .bad else Node.childValue value
      else Node.childField rest

/-- Reads the value of the member `children`. -/
def Node.childValue : Json → ChildField
  | .null => .null
  | .array items =>
      match Node.allOfJson? items with
      | some nodes => .nodes nodes
      | none => .bad
  | _ => .bad

/-- Reads some nodes. -/
def Node.allOfJson? : List Json → Option (List Node)
  | [] => some []
  | x :: xs =>
      match Node.ofJson? x, Node.allOfJson? xs with
      | some n, some ns => some (n :: ns)
      | _, _ => none

end

/-- Reads a node, or says that the value is none. No more is said, whatever the fault is. -/
def Node.ofJson (value : Json) : Except Mismatch Node :=
  match Node.ofJson? value with
  | some node => .ok node
  | none => .error (.noVariant "Node")

/-- Reads a list of nodes. -/
def Node.listOfJson : Json → Except Mismatch (List Node)
  | .array items =>
      match Node.allOfJson? items with
      | some nodes => .ok nodes
      | none => .error (.noVariant "Node")
  | other => other.wrongType "a sequence"

/-- Reads a document (`Root`). Its type is not looked at; what it says of itself is checked where a
whole text is read. -/
def Root.ofJson (value : Json) : Except Mismatch Root := do
  let members ← readRecord "Root" value
  let children ← (members.required "children" Node.listOfJson).settle
  .ok { children, others := .ofMembers ["children"] members }

end ImageImports.Mdast
