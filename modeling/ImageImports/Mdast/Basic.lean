import ImageImports.Estree.Basic

/-!
# `ImageImports.Mdast.Basic`: syntax trees of Markdown documents

A node is a leaf or a branch. What a node says apart from its children is its `Leaf` or `Branch`
content; whatever else it carries are its other members. A node of a type that is not modelled, or
of a known type whose members do not fit, is kept as an unknown leaf or branch with its type.

Main definitions: the types `Node` and `Root`, `Node.kind`, the type that a node is written with,
and `Node.children?`, which stands for `children` and `children_mut`.
-/

set_option autoImplicit false

namespace ImageImports.Mdast

/-! ### Attributes of elements -/

/-- An expression with the program behind it (`MdxJsxAttributeValueExpression`). -/
structure EmbeddedExpression where
  /-- The expression as it is written. -/
  value : String
  /-- The program, if it is recorded. -/
  data : Option Estree.Embedding
  /-- Its further members. -/
  others : OtherMembers
deriving BEq

/-- The value of an attribute. -/
inductive AttributeValue where
  /-- A text in quotes. -/
  | literal (text : String)
  /-- An expression in braces. -/
  | expression (expression : EmbeddedExpression)
deriving BEq

/-- An attribute with a name (`MdxJsxAttribute`). -/
structure NamedAttribute where
  /-- The name. -/
  name : String
  /-- The value; an attribute without one stands for its own presence. -/
  value : Option AttributeValue
  /-- Its further members. -/
  others : OtherMembers
deriving BEq

/-- An attribute of an element (`JsxAttribute`). -/
inductive Attribute where
  /-- An attribute with a name. -/
  | named (attr : NamedAttribute)
  /-- The attributes that an expression evaluates to. -/
  | spread (expression : EmbeddedExpression)
deriving BEq

/-! ### Kinds of nodes -/

/-- Whether an element or expression stands on its own or inside a line of text. -/
inductive Placement where
  | flow
  | text
deriving BEq, DecidableEq

/-- The leaves that are nothing but a text. -/
inductive TextKind where
  | code
  | html
  | yaml
  | toml
  | text
  | inlineCode
  | math
  | inlineMath
deriving BEq, DecidableEq

/-- The branches that are nothing but their children. -/
inductive Grouping where
  | paragraph
  | blockquote
  | list
  | listItem
  | table
  | tableRow
  | tableCell
  | emphasis
  | strong
  | delete
deriving BEq, DecidableEq

/-- How a reference names its definition. -/
inductive ReferenceType where
  | shortcut
  | collapsed
  | full
deriving BEq, DecidableEq

/-- What a node without children says. Each constructor stands for a node type without a list of
children, and the last one for `UnknownNode` where it has none. -/
inductive Leaf where
  /-- A line between two parts of a document. -/
  | thematicBreak
  /-- A line break inside a paragraph. -/
  | lineBreak
  /-- A text that is kept as it is written. -/
  | text (kind : TextKind) (value : String)
  /-- The address behind a label. -/
  | definition (identifier url : String)
  /-- An image. -/
  | image (url : String)
  /-- An image whose address stands behind a label. -/
  | imageReference (identifier : String) (referenceType : ReferenceType)
  /-- A call of a footnote. -/
  | footnoteReference (identifier : String)
  /-- A block of import and export statements. -/
  | esm (value : String) (data : Option Estree.Embedding)
  /-- An expression in braces. -/
  | expression (placement : Placement) (value : String) (data : Option Estree.Embedding)
  /-- A node that is not modelled and has no list of children. -/
  | unknown (type : String)
deriving BEq

/-- What a node with children says apart from them. Each constructor stands for a node type with a
list of children, and the last one for `UnknownNode` where it has one. -/
inductive Branch where
  /-- A heading of some depth. -/
  | heading (depth : UInt8)
  /-- A node that is nothing but its children. -/
  | grouping (kind : Grouping)
  /-- The text of a footnote. -/
  | footnoteDefinition (identifier : String)
  /-- A link. -/
  | link (url : String)
  /-- A link whose address stands behind a label. -/
  | linkReference (identifier : String) (referenceType : ReferenceType)
  /-- An element; without a name it only groups its children. -/
  | element (placement : Placement) (name : Option String) (attributes : List Attribute)
  /-- A node that is not modelled. -/
  | unknown (type : String)
deriving BEq

/-- A node of a document (`Node`). Whether a node has children is told by its constructor, so a walk
over a document needs two cases and not one for each type of node. -/
inductive Node where
  /-- A node without a list of children. -/
  | leaf (content : Leaf) (others : OtherMembers)
  /-- A node with a list of children. -/
  | branch (content : Branch) (others : OtherMembers) (children : List Node)

instance : Inhabited Node := ⟨.leaf .lineBreak .empty⟩

/-- A document (`Root`). -/
structure Root where
  /-- The top level nodes. -/
  children : List Node
  /-- The further members of the document. -/
  others : OtherMembers := .empty

instance : Inhabited Root := ⟨{ children := [] }⟩

/-! ### Equality -/

mutual

/-- Whether two nodes are equal: the same content, other members and children. -/
def Node.same : Node → Node → Bool
  | .leaf a x, .leaf b y => a == b && x == y
  | .branch a x ms, .branch b y ns => a == b && x == y && Node.sameAll ms ns
  | _, _ => false

/-- Whether two lists hold equal nodes at equal places. -/
def Node.sameAll : List Node → List Node → Bool
  | [], [] => true
  | m :: ms, n :: ns => Node.same m n && Node.sameAll ms ns
  | _, _ => false

end

/-- Whether two documents are equal. -/
def Root.same (a b : Root) : Bool := Node.sameAll a.children b.children && a.others == b.others

/-! ### Types by name -/

/-- The type that a text leaf is written with. -/
def TextKind.name : TextKind → String
  | .code => "code"
  | .html => "html"
  | .yaml => "yaml"
  | .toml => "toml"
  | .text => "text"
  | .inlineCode => "inlineCode"
  | .math => "math"
  | .inlineMath => "inlineMath"

/-- The type that a plain branch is written with. -/
def Grouping.name : Grouping → String
  | .paragraph => "paragraph"
  | .blockquote => "blockquote"
  | .list => "list"
  | .listItem => "listItem"
  | .table => "table"
  | .tableRow => "tableRow"
  | .tableCell => "tableCell"
  | .emphasis => "emphasis"
  | .strong => "strong"
  | .delete => "delete"

/-- The type that a leaf is written with. -/
def Leaf.kind : Leaf → String
  | .thematicBreak => "thematicBreak"
  | .lineBreak => "break"
  | .text kind _ => kind.name
  | .definition .. => "definition"
  | .image .. => "image"
  | .imageReference .. => "imageReference"
  | .footnoteReference .. => "footnoteReference"
  | .esm .. => "mdxjsEsm"
  | .expression .flow .. => "mdxFlowExpression"
  | .expression .text .. => "mdxTextExpression"
  | .unknown type => type

/-- The type that a branch is written with. -/
def Branch.kind : Branch → String
  | .heading _ => "heading"
  | .grouping kind => kind.name
  | .footnoteDefinition _ => "footnoteDefinition"
  | .link _ => "link"
  | .linkReference .. => "linkReference"
  | .element .flow .. => "mdxJsxFlowElement"
  | .element .text .. => "mdxJsxTextElement"
  | .unknown type => type

namespace Node

/-- The type that a node is written with. -/
def kind : Node → String
  | .leaf content _ => content.kind
  | .branch content _ _ => content.kind

/-- The other members of a node. -/
def others : Node → OtherMembers
  | .leaf _ others => others
  | .branch _ others _ => others

/-- The node with the given members beside its typed fields. -/
def withOthers : Node → OtherMembers → Node
  | .leaf content _, others => .leaf content others
  | .branch content _ children, others => .branch content others children

/-- The children of a branch (`children` and `children_mut`). An unknown node without a list of
children is a leaf and has none. -/
def children? : Node → Option (List Node)
  | .leaf _ _ => none
  | .branch _ _ children => some children

/-- Whether the node has a modelled type with fitting members. -/
def isTyped : Node → Bool
  | .leaf (.unknown _) _ => false
  | .branch (.unknown _) _ _ => false
  | _ => true

/-- Whether the node is an image. -/
def isImage : Node → Bool
  | .leaf (.image _) _ => true
  | _ => false

/-- The program that a node embeds, for a node that can embed one. -/
def data? : Node → Option (Option Estree.Embedding)
  | .leaf (.esm _ data) _ => some data
  | .leaf (.expression _ _ data) _ => some data
  | _ => none

end Node

/-- The name of an attribute that has one. -/
def Attribute.name? : Attribute → Option String
  | .named attr => some attr.name
  | .spread _ => none

end ImageImports.Mdast
