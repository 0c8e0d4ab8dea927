import ImageImports.Json.Reader
import ImageImports.Mdast.Reader
import ImageImports.Mdast.Printer

/-!
# `ImageImports.Document`: documents as texts

A text is a document if it is the JSON text of an object with a list of nodes as its children. An
object that names itself something other than a root is refused before anything else about it is
looked at.

Main definition: `Document.parse`, which is `parse_document`. Its counterpart `document_to_json` is
`Root.print`.
-/

set_option autoImplicit false

namespace ImageImports.Document

open Json Mdast

/-- Why a text is no document (`Error`). -/
inductive ParseError where
  /-- The text is no JSON text, or its value has not the shape of a document. -/
  | json (cause : ReadError)
  /-- The value names itself something other than a root. -/
  | notARoot (kind : String)

/-- The text of an error. -/
def ParseError.message : ParseError → String
  | .json cause => "Invalid mdast JSON: " ++ cause.message
  | .notARoot kind => "Expected a root node, found " ++ Text.shown kind

/-- The text that the type of an object is. -/
def declaredType? : Json → Option String
  | .object members => Members.last? members "type" >>= string?
  | _ => none

/-- The document that a value stands for. A value that names another type is refused for that before
its members are looked at. -/
def ofJson (value : Json) : Except ParseError Root :=
  match declaredType? value with
  | some kind => if kind = "root" then shape value else .error (.notARoot kind)
  | none => shape value
where
  /-- Reads a value that does not name itself something other than a root. -/
  shape (value : Json) : Except ParseError Root :=
    match Root.ofJson value with
    | .ok root => .ok root
    | .error cause => .error (.json (.mismatch cause none))

/-- Reads a document from its text (`parse_document`). -/
def parse (text : String) : Except ParseError Root :=
  match Json.parse text with
  | .ok value => ofJson value
  | .error cause => .error (.json cause)

end ImageImports.Document
