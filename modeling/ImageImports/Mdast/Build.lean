import ImageImports.Mdast.Basic

/-!
# `ImageImports.Mdast.Build`: making nodes

The functions of `Node` and `JsxAttribute` that make one. A node gets the other members that a
Markdown parser gives to a fresh node of its type: a link has no title, an item of a list is not
checked, an ordered list starts at one.
-/

set_option autoImplicit false

namespace ImageImports.Mdast

namespace Attribute

/-- An attribute whose value is a text, or an attribute without a value (`literal` of
`JsxAttribute`). -/
def literal (name : String) (value : Option String) : Attribute :=
  .named { name, value := value.map .literal, others := .empty }

/-- An attribute whose value is the value of a name (`identifier` of `JsxAttribute`). -/
def identifier (name reference : String) : Attribute :=
  .named
    { name
      value := some (.expression
        { value := reference
          data := some (.ofProgram (.reference reference))
          others := .empty })
      others := .empty }

end Attribute

namespace Node

/-- A text. -/
def text (value : String) : Node := .leaf (.text .text value) .empty

/-- A branch that is nothing but its children. -/
def group (kind : Grouping) (children : List Node) : Node :=
  .branch (.grouping kind) .empty children

/-- A heading. -/
def heading (depth : UInt8) (children : List Node) : Node :=
  .branch (.heading depth) .empty children

/-- A link without a title. -/
def link (url : String) (children : List Node) : Node :=
  .branch (.link url) (OtherMembers.empty.set "title" .null) children

/-- An image without a title. -/
def image (url alt : String) : Node :=
  .leaf (.image url) ((OtherMembers.empty.set "title" .null).set "alt" (.string alt))

/-- An image with a title. -/
def titledImage (url alt title : String) : Node :=
  .leaf (.image url) ((OtherMembers.empty.set "title" (.string title)).set "alt" (.string alt))

/-- A list with tight items. -/
def list (ordered : Bool) (children : List Node) : Node :=
  let start := if ordered then Json.integer 1 else .null
  .branch (.grouping .list)
    (((OtherMembers.empty.set "ordered" (.bool ordered)).set "start" start).set "spread"
      (.bool false))
    children

/-- A tight item of a list, without a check box. -/
def listItem (children : List Node) : Node :=
  .branch (.grouping .listItem)
    ((OtherMembers.empty.set "spread" (.bool false)).set "checked" .null) children

/-- A line between two parts of a document. -/
def thematicBreak : Node := .leaf .thematicBreak .empty

/-- A block with the statement `import binding from "source"`, as a text and as a program
(`default_import`). -/
def defaultImport (binding source : String) : Node :=
  .leaf (.esm ("import " ++ binding ++ " from " ++ Json.quote source)
    (some (.ofProgram (.defaultImport binding source)))) .empty

/-- An element inside a line of text (`jsx_text_element`). -/
def textElement (name : String) (attributes : List Attribute) (children : List Node) : Node :=
  .branch (.element .text (some name) attributes) .empty children

end Node

end ImageImports.Mdast
