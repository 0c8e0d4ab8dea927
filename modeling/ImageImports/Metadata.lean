import ImageImports.Json.Record
import ImageImports.Json.Printer

/-!
# `ImageImports.Metadata`: what is known about the source of a document

A loader can attach data about the source file to a document. Only the directory of the source file
is used, and only where it is not empty.

There are two readers of `DocumentMetadata`. `Metadata.ofValue`, which is `from_value`, takes any
JSON value and treats everything of another shape as absent. `Metadata.ofJson`, the derived one,
accepts the written form only, where a record may also be given as the list of its fields.
-/

set_option autoImplicit false

namespace ImageImports

open Json

/-- Data about the file that a document was loaded from (`RawDocumentData`). -/
structure SourceData where
  /-- The directory of the source file, relative to the root of all content. -/
  sourceFileDir : Option String := none
deriving DecidableEq, Repr

/-- The data that a loader attaches to a document (`DocumentMetadata`). -/
structure Metadata where
  /-- Data about the source file, if there is any. -/
  rawDocumentData : Option SourceData := none
deriving DecidableEq, Repr

namespace Metadata

/-- The metadata of a document from the given directory (`with_source_file_dir`). -/
def inDirectory (dir : String) : Metadata :=
  { rawDocumentData := some { sourceFileDir := some dir } }

/-- The directory of the source file, if one is given and not empty (`source_file_dir`). An empty
one counts as none, so that no address gets an empty segment. -/
def directory? (metadata : Metadata) : Option String :=
  metadata.rawDocumentData >>= SourceData.sourceFileDir |>.filter (· ≠ "")

/-! ### Reading -/

/-- The value under a key of an object. -/
def member? : Json → String → Option Json
  | .object members, key => Members.last? members key
  | _, _ => none

/-- The metadata in any value (`from_value`); whatever does not have the expected shape counts as
absent. -/
def ofValue (value : Json) : Metadata :=
  match member? value "rawDocumentData" >>= (member? · "sourceFileDir") >>= string? with
  | some dir => inDirectory dir
  | none => {}

end Metadata

namespace Json

/-- Reads a record of one optional field, given as an object or as the list of its fields. Other
members of the object are ignored. -/
def readSingleField {α : Type} (name field : String) (absent : α)
    (read : Json → Except Mismatch α) : Json → Except Mismatch α
  | .object members => (Members.defaulted members field absent read).settle
  | .array [] => .ok absent
  | .array (x :: rest) =>
      match read x with
      | .error cause => .error cause
      | .ok a => if rest.isEmpty then .ok a else .error (.tooManyItems (rest.length + 1))
  | other => other.wrongType ("struct " ++ name)

/-- Reads a value that may be null. -/
def readNullable {α : Type} (read : Json → Except Mismatch α) : Json → Except Mismatch (Option α)
  | .null => .ok none
  | other => (read other).map some

end Json

/-- Reads data about a source file in its written form. -/
def SourceData.ofJson (value : Json) : Except Mismatch SourceData :=
  (readSingleField "RawDocumentData" "sourceFileDir" none (readNullable readString) value).map
    fun dir => { sourceFileDir := dir }

/-- Reads metadata in their written form, as the derived reader of `DocumentMetadata` does. In
contrast to `Metadata.ofValue` it refuses what does not fit, and it takes a list of fields for a
record. -/
def Metadata.ofJson (value : Json) : Except Mismatch Metadata :=
  (readSingleField "DocumentMetadata" "rawDocumentData" none
    (readNullable SourceData.ofJson) value).map fun data => { rawDocumentData := data }

/-! ### Writing -/

/-- The written form of data about a source file; an absent directory is not written. -/
def SourceData.toJson (data : SourceData) : Json :=
  .object (match data.sourceFileDir with
    | some dir => [("sourceFileDir", .string dir)]
    | none => [])

/-- The written form of metadata; absent data is not written. -/
def Metadata.toJson (metadata : Metadata) : Json :=
  .object (match metadata.rawDocumentData with
    | some data => [("rawDocumentData", data.toJson)]
    | none => [])

end ImageImports
