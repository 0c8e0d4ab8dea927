import ImageImports.Json.Shape
import ImageImports.Mdast.Reader
import ImageImports.Image.Url

/-!
# `ImageImports.Shapes`: typed values straight from a text

The shape of every type that can be read straight from a text. Only the outermost levels of a value
are checked while the text is read; a node, the value of an attribute, the contents of a statement
or specifier and an embedded program are read as a whole first, because their type is only known
then.

Main definition: `TextReader`, a shape together with the reader of the values that have it.
-/

set_option autoImplicit false

namespace ImageImports

open Json

/-- A type of values together with the shape of their written form. -/
structure TextReader (α : Type) where
  /-- The shape that is checked while a text is read. -/
  shape : Shape
  /-- Reads a value that is already known as a whole. -/
  ofJson : Json → Except Mismatch α

namespace TextReader

variable {α : Type}

/-- Reads a value from its normal form: first the text as a whole, then the value. -/
def parse (reader : TextReader α) (text : String) : Except ReadError α :=
  match Json.parse text with
  | .error cause => .error cause
  | .ok value =>
      match reader.ofJson value with
      | .error cause => .error (.mismatch cause none)
      | .ok a => .ok a

/-- Reads a value while reading the text, so repeated members are seen and complaints have their
places. -/
def readDirectly (reader : TextReader α) (text : String) : Except ReadError α :=
  match readAs reader.shape text with
  | .error cause => .error cause
  | .ok value =>
      match reader.ofJson value with
      | .error cause => .error (.mismatch cause none)
      | .ok a => .ok a

end TextReader

/-- A value of any kind. -/
def anyShape : Shape := .judged fun _ => none

namespace Estree

/-- The shape of names. -/
def identifierText : TextReader Identifier where
  shape := .record "struct Identifier" [("name", .required, .text)] true
  ofJson := Identifier.ofJson

/-- The shape of string literals. -/
def literalText : TextReader StringLiteral where
  shape := .record "struct Literal" [("value", .required, .text), ("raw", .nullable, .text)] true
  ofJson := StringLiteral.ofJson

/-- The shape of names bound by imports. -/
def importSpecifierText : TextReader ImportSpecifier where
  shape := .tagged "ImportSpecifier" (SpecifierKind.names.map Prod.fst)
    fun value => complaint (ImportSpecifier.ofJson .name value)
  ofJson := ImportSpecifier.ofJson .name

/-- The shape of statements. -/
def statementText : TextReader Statement where
  shape := .tagged "Statement" (StatementKind.names.map Prod.fst)
    fun value => complaint (Statement.ofJson .name value)
  ofJson := Statement.ofJson .name

/-- The shape of programs. -/
def programText : TextReader Program where
  shape := .record "struct Program"
    [("sourceType", .required, .choice (SourceType.names.map Prod.fst)),
      ("body", .required, .list statementText.shape),
      ("comments", .nullable, .list anyShape)] true
  ofJson := Program.ofJson .name

/-- The shape of embeddings. -/
def embeddingText : TextReader Embedding where
  shape := .record "struct EstreeData" [("estree", .nullable, anyShape)] true
  ofJson := Embedding.ofJson

end Estree

namespace Mdast

/-- The shape of values of attributes. -/
def attributeValueText : TextReader AttributeValue where
  shape := .judged fun value => complaint (AttributeValue.ofJson value)
  ofJson := AttributeValue.ofJson

/-- The shape of attributes with a name. -/
def namedAttributeText : TextReader NamedAttribute where
  shape := .record "struct MdxJsxAttribute"
    [("name", .required, .text), ("value", .nullable, attributeValueText.shape)] true
  ofJson := NamedAttribute.ofJson

/-- The shape of attributes. -/
def attributeText : TextReader Attribute where
  shape := .tagged "JsxAttribute" (AttributeKind.names.map Prod.fst)
    fun value => complaint (Attribute.ofJson .name value)
  ofJson := Attribute.ofJson .name

/-- The shape of nodes. -/
def nodeText : TextReader Node where
  shape := .judged fun value => complaint (Node.ofJson value)
  ofJson := Node.ofJson

/-- The shape of documents. -/
def rootText : TextReader Root where
  shape := .record "struct Root" [("children", .required, .list nodeText.shape)] true
  ofJson := Root.ofJson

end Mdast

/-- Reads further members alone. -/
def OtherMembers.ofJson : Json → Except Mismatch OtherMembers
  | .object members => .ok (.ofMembers [] members)
  | other => other.wrongType "a map"

/-- The shape of further members alone. -/
def othersText : TextReader OtherMembers where
  shape := .record "a map" [] true
  ofJson := OtherMembers.ofJson

/-- The shape of metadata. -/
def metadataText : TextReader Metadata where
  shape := .record "struct DocumentMetadata"
    [("rawDocumentData", .nullable,
      .record "struct RawDocumentData" [("sourceFileDir", .nullable, .text)] false)] false
  ofJson := Metadata.ofJson

/-- The shape of options. -/
def importOptionsText : TextReader ImportOptions where
  shape := .record "struct RewriteOptions" [("resolve", .defaulted, .boolean)] false
  ofJson := ImportOptions.ofJson

end ImageImports
