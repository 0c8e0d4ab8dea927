import ImageImports.Document
import ImageImports.Files.Path
import ImageImports.Files.Error

/-!
# `ImageImports.Cli.Failure`: why a run fails

A failure has a text and a chain of causes. It is shown over several lines where it ends the run,
and on one line where the run goes on.

Main definitions: `Failure.lines` and `Failure.line`.
-/

set_option autoImplicit false

namespace ImageImports.Cli

/-- Why a run, or the work on one document of it, fails. -/
inductive Failure where
  /-- No input is given. -/
  | noInput
  /-- There is nothing at the path of the input. -/
  | missingInput (path : Path)
  /-- A configuration file cannot be read. -/
  | unreadableSettings (path : Path) (cause : FileError)
  /-- A configuration file is not one. -/
  | invalidSettings (path : Path)
  /-- A file with metadata cannot be read. -/
  | unreadableMetadata (path : Path) (cause : FileError)
  /-- A file with metadata holds no JSON text. -/
  | invalidMetadata (path : Path) (cause : Json.ReadError)
  /-- A directory cannot be gone through. -/
  | unreadableDirectory (path : Path) (cause : FileError)
  /-- A document cannot be read. -/
  | unreadableDocument (path : Path) (cause : FileError)
  /-- A file holds no document. -/
  | invalidDocument (path : Path) (cause : Document.ParseError)
  /-- The directory for a result cannot be made. -/
  | noDirectory (path : Path) (cause : FileError)
  /-- A file cannot be written. -/
  | notWritten (path : Path) (cause : FileError)
  /-- There is something in the place of a new configuration file. -/
  | inTheWay (path : Path)
  /-- The work on some documents failed. -/
  | failedDocuments (count : Nat)
  /-- The extension of results holds a slash, so no name can have it. -/
  | slashInExtension (extension : String)

namespace Failure

/-- The text of a failure. -/
def message : Failure → String
  | noInput => "No input given (see --help)"
  | missingInput path => "Input path does not exist: " ++ path.text
  | unreadableSettings path _ => "Failed to read config file: " ++ path.text
  | invalidSettings path => "Failed to parse config file: " ++ path.text
  | unreadableMetadata path _ => "Failed to read metadata: " ++ path.text
  | invalidMetadata path _ => "Failed to parse metadata: " ++ path.text
  | unreadableDirectory path _ => "Failed to read directory: " ++ path.text
  | unreadableDocument path _ => "Failed to read: " ++ path.text
  | invalidDocument path _ => "Failed to rewrite: " ++ path.text
  | noDirectory path _ => "Failed to create directory: " ++ path.text
  | notWritten path _ => "Failed to write: " ++ path.text
  | inTheWay path => path.text ++ " already exists (use --force to overwrite)"
  | failedDocuments count => toString count ++ " files failed to rewrite"
  | slashInExtension extension =>
      "extension cannot contain path separators: " ++ Text.shown extension

/-- The causes of a failure, the nearest one first. A document that is no fitting JSON text has that
for a cause, and what is wrong with the text for a further one. -/
def causes : Failure → List String
  | unreadableSettings _ cause | unreadableMetadata _ cause | unreadableDirectory _ cause
  | unreadableDocument _ cause | noDirectory _ cause | notWritten _ cause => [cause.message]
  | invalidMetadata _ cause => [cause.message]
  | invalidDocument _ (.json cause) =>
      [(Document.ParseError.json cause).message, cause.message]
  | invalidDocument _ (.notARoot kind) => [(Document.ParseError.notARoot kind).message]
  | noInput | missingInput _ | invalidSettings _ | inTheWay _ | failedDocuments _
  | slashInExtension _ => []

/-- The code with which the program ends after a failure. An extension that no name can have is no
ordinary failure: it breaks the run off. -/
def exitCode : Failure → Nat
  | slashInExtension _ => 101
  | _ => 1

/-- The text of a failure and its causes on one line. -/
def line (failure : Failure) : String := ": ".intercalate (failure.message :: failure.causes)

/-- A text with some blanks in front of each of its lines but the first. -/
def indented (blanks text : String) : String :=
  String.join (text.toList.map fun c => if c = '\n' then "\n" ++ blanks else c.toString)

/-- The line of a cause among several. -/
def numbered (entry : String × Nat) : String :=
  let number := toString entry.2
  String.ofList (List.replicate (5 - number.length) ' ') ++ number ++ ": "
    ++ indented "       " entry.1

/-- The lines of a failure that ends the run: a single cause is set off, several are numbered. -/
def lines (failure : Failure) : List String :=
  ("Error: " ++ failure.message) ::
    match failure.causes with
    | [] => []
    | [cause] => ["", "Caused by:", "    " ++ indented "    " cause]
    | causes => "" :: "Caused by:" :: causes.zipIdx.map numbered

end Failure

end ImageImports.Cli
