import ImageImports.Mdast.Basic
import ImageImports.Estree.Printer
import ImageImports.Json.Printer

/-!
# `ImageImports.Mdast.Printer`: the JSON form of a document

A node is written as an object with its type first, then the typed fields of its content, then its
children if it has a list of them, then its other members. An absent program is not written; an
absent name of an element and an absent value of an attribute are written as null.

Main definitions: `Node.toJson` and `Root.toJson`, the derived writers, and `Root.print`, which is
`document_to_json`.
-/

set_option autoImplicit false

namespace ImageImports.Mdast

/-! ### Attributes -/

/-- The members of an expression and its program. A program that is not recorded is left out and not
written as null. -/
def EmbeddedExpression.members (expression : EmbeddedExpression) : Members :=
  [("value", .string expression.value)]
    ++ Members.whenSome "data" Estree.Embedding.toJson expression.data
    ++ expression.others.entries

/-- The JSON form of the value of an attribute. -/
def AttributeValue.toJson : AttributeValue → Json
  | .literal text => .string text
  | .expression e =>
      .object (("type", .string "mdxJsxAttributeValueExpression") :: e.members)

/-- The members of an attribute with a name. An attribute without a value is written with null for
it. -/
def NamedAttribute.members (attr : NamedAttribute) : Members :=
  [("name", .string attr.name),
      ("value", (attr.value.map AttributeValue.toJson).getD .null)]
    ++ attr.others.entries

/-- The JSON form of an attribute with a name, without its type. -/
def NamedAttribute.toJson (attr : NamedAttribute) : Json := .object attr.members

/-- The JSON form of an attribute. -/
def Attribute.toJson : Attribute → Json
  | .named attr => .object (("type", .string "mdxJsxAttribute") :: attr.members)
  | .spread e => .object (("type", .string "mdxJsxExpressionAttribute") :: e.members)

/-! ### Nodes -/

/-- The name of a way to name a definition. -/
def ReferenceType.name : ReferenceType → String
  | .shortcut => "shortcut"
  | .collapsed => "collapsed"
  | .full => "full"

/-- The typed fields of a leaf, in the order in which the record of its type declares them. The
program of a block of statements or of an expression is left out if it is not recorded. -/
def Leaf.fields : Leaf → Members
  | .thematicBreak => []
  | .lineBreak => []
  | .text _ value => [("value", .string value)]
  | .definition identifier url => [("identifier", .string identifier), ("url", .string url)]
  | .image url => [("url", .string url)]
  | .imageReference identifier referenceType =>
      [("identifier", .string identifier), ("referenceType", .string referenceType.name)]
  | .footnoteReference identifier => [("identifier", .string identifier)]
  | .esm value data =>
      ("value", .string value) :: Members.whenSome "data" Estree.Embedding.toJson data
  | .expression _ value data =>
      ("value", .string value) :: Members.whenSome "data" Estree.Embedding.toJson data
  | .unknown _ => []

/-- The typed fields of a branch, its children excepted, in the order in which the record of its
type declares them. -/
def Branch.fields : Branch → Members
  | .heading depth => [("depth", Json.integer depth.toNat)]
  | .grouping _ => []
  | .footnoteDefinition identifier => [("identifier", .string identifier)]
  | .link url => [("url", .string url)]
  | .linkReference identifier referenceType =>
      [("identifier", .string identifier), ("referenceType", .string referenceType.name)]
  | .element _ name attributes =>
      [("name", (name.map Json.string).getD .null),
        ("attributes", .array (attributes.map Attribute.toJson))]
  | .unknown _ => []

mutual

/-- The JSON form of a node: its type, its typed fields, its children if it is a branch, and its
other members behind these. -/
def Node.toJson : Node → Json
  | .leaf content others =>
      .object (("type", .string content.kind) :: (content.fields ++ others.entries))
  | .branch content others children =>
      .object (("type", .string content.kind)
        :: (content.fields ++ ("children", .array (Node.allToJson children)) :: others.entries))

/-- The JSON forms of some nodes. -/
def Node.allToJson : List Node → List Json
  | [] => []
  | n :: ns => Node.toJson n :: Node.allToJson ns

end

/-- The JSON form of a document, written with the type `root` whatever type was read. -/
def Root.toJson (root : Root) : Json :=
  .object ([("type", .string "root"), ("children", .array (Node.allToJson root.children))]
    ++ root.others.entries)

/-- The text of a document, compact or pretty (`document_to_json`). -/
def Root.print (root : Root) (pretty : Bool) : String :=
  if pretty then root.toJson.pretty else root.toJson.compact

end ImageImports.Mdast
