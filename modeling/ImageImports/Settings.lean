import ImageImports.Toml.Reader
import ImageImports.Toml.Quoted
import ImageImports.Json.Printer

/-!
# `ImageImports.Settings`: the configuration file

The settings of the program, as a TOML text with two sections. Every setting may be left out, and
keys that are no settings are ignored. A section may also be given as the list of its values, or as
a date or time, which counts as a section without settings.

Main definitions: `Settings`, which stands for `Config`, `Settings.parse?`, `Settings.print` and
`Settings.schema`.
-/

set_option autoImplicit false

namespace ImageImports

/-- The settings of the program, as far as they are given (`Config`). -/
structure Settings where
  /-- Whether bare addresses are resolved. -/
  resolve : Option Bool := none
  /-- Whether documents are written over several lines. -/
  pretty : Option Bool := none
  /-- The extension of results. -/
  extension : Option String := none
deriving DecidableEq, Repr

namespace Settings

/-- The name of the configuration file (`CONFIG_FILE_NAME`). -/
def fileName : String := "_mdx-images.toml"

/-- The address of the schema that a written configuration file refers to. -/
def schemaUrl : String :=
  "https://raw.githubusercontent.com/ttys3/mdx-images/main/crates/mdx-images-cli/schema/mdx-images.schema.json"

/-- The extension of results where none is set (`DEFAULT_EXTENSION`). -/
def defaultExtension : String := "mdx.json"

/-- The settings of a fresh configuration file. -/
def sample : Settings :=
  { resolve := some true, pretty := some false, extension := some defaultExtension }

/-- Whether bare addresses are resolved in effect (`resolve` of `Config`). -/
def resolves (settings : Settings) : Bool := settings.resolve.getD true

/-- A text without its leading dots. -/
def withoutLeadingDots (text : String) : String :=
  String.ofList (text.toList.dropWhile (· == '.'))

/-- The extension in effect (`extension` of `Config`): without leading dots, and the default one if
nothing is left. -/
def effectiveExtension (settings : Settings) : String :=
  match settings.extension.map withoutLeadingDots with
  | some extension => if extension = "" then defaultExtension else extension
  | none => defaultExtension

/-! ### Reading -/

/-- A truth value. -/
def boolean? : Toml.Value → Option Bool
  | .boolean b => some b
  | _ => none

/-- A text. -/
def text? : Toml.Value → Option String
  | .string s => some s
  | _ => none

/-- A setting that may be absent and must fit where it is present. -/
def setting? {α : Type} (read : Toml.Value → Option α) : Option Toml.Value → Option (Option α)
  | none => some none
  | some value => (read value).map some

/-- The values of a section under some keys, in their order. What stands under other keys is
looked through as well; further items of a list are not. -/
def section? (keys : List String) : Option Toml.Value → Option (List (Option Toml.Value))
  | none => some (keys.map fun _ => none)
  | some (.table _ entries) =>
      if Toml.entriesInRange (Toml.Table.besides keys entries) then
        some (keys.map fun key => Toml.Table.get? entries key)
      else none
  | some (.array _ items) => some ((List.range keys.length).map fun place => items[place]?)
  | some (.scalar .datetime) => some (keys.map fun _ => none)
  | some _ => none

/-- The settings in the table of a TOML text. -/
def ofTable? (table : Toml.Table) : Option Settings := do
  guard (Toml.entriesInRange (table.besides ["images", "output"]))
  let images ← section? ["resolve"] (table.get? "images")
  let output ← section? ["pretty", "extension"] (table.get? "output")
  let resolve ← setting? boolean? (images[0]?.getD none)
  let pretty ← setting? boolean? (output[0]?.getD none)
  let extension ← setting? text? (output[1]?.getD none)
  return { resolve, pretty, extension }

/-- Reads a configuration file (`load`). -/
def parse? (text : String) : Option Settings := Toml.parse? text >>= ofTable?

/-! ### Writing -/

/-- The spelling of a truth value. -/
def booleanText (b : Bool) : String := if b then "true" else "false"

/-- The line of a setting, if it is given. -/
def line (key : String) (value : Option String) : List String :=
  match value with
  | some value => [key ++ " = " ++ value ++ "\n"]
  | none => []

/-- A section with its lines, unless there are none. -/
def sectionText (name : String) (lines : List String) : List String :=
  if lines.isEmpty then [] else ["[" ++ name ++ "]\n" ++ String.join lines]

/-- The text of a configuration file (`to_toml_with_schema`): a reference to the schema and the
sections that have settings. -/
def print (settings : Settings) : String :=
  let images := sectionText "images" (line "resolve" (settings.resolve.map booleanText))
  let output := sectionText "output"
    (line "pretty" (settings.pretty.map booleanText)
      ++ line "extension" (settings.extension.map Toml.quote))
  "#:schema " ++ schemaUrl ++ "\n\n" ++ String.intercalate "\n" (images ++ output)

/-! ### Schema -/

/-- The schema of a setting: what it means, and its type beside null. -/
def settingSchema (description type : String) : Json :=
  .object [("description", .string description), ("type", .array [.string type, .string "null"])]

/-- The schema of a section: what it means, and its settings. -/
def sectionSchema (description : String) (settings : Members) : Json :=
  .object [("description", .string description), ("type", .string "object"),
    ("properties", .object settings)]

/-- The reference to a section's schema. -/
def sectionReference (description name : String) : Json :=
  .object [("description", .string description), ("$ref", .string ("#/$defs/" ++ name))]

/-- The schema of the configuration file (`json_schema`). -/
def schema : Json :=
  let images := "Image rewriting configuration"
  let output := "Output configuration"
  .object [("$schema", .string "https://json-schema.org/draft/2020-12/schema"),
    ("title", .string "Config"),
    ("description", .string "Root configuration structure"),
    ("type", .string "object"),
    ("properties", .object [("images", sectionReference images "ImagesConfig"),
      ("output", sectionReference output "OutputConfig")]),
    ("$defs", .object [
      ("ImagesConfig", sectionSchema images [("resolve", settingSchema
        ("Resolve bare image URLs against the content root (default: true).\n"
          ++ "When false, only `./` and `../` paths are imported.") "boolean")]),
      ("OutputConfig", sectionSchema output [
        ("extension", settingSchema
          "Extension of rewritten files (default: \"mdx.json\")" "string"),
        ("pretty", settingSchema "Pretty-print output JSON (default: false)" "boolean")])])]

end Settings

end ImageImports
