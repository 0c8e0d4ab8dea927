import ImageImports.Cli.Event
import ImageImports.Cli.Failure

/-!
# `ImageImports.Cli.Job`: the work on one document

A job names the file of a document and the file for the result. To do it, the document is read, its
images are imported, and the result is written; the directory for the result is made if it is
missing. A result that is told no other place goes beside its document.

Main definitions: `Job.run`, which is `rewrite_file_inner` with `rewrite_json`, and `resultPath`,
which is `output_path_for`.
-/

set_option autoImplicit false

namespace ImageImports.Cli

/-- Settings that all documents of a run share (`RunOptions`). -/
structure RunSettings where
  /-- Which images are imported. -/
  options : ImportOptions
  /-- Metadata for every document, if they are given. -/
  metadata : Option Metadata
  /-- Whether results are written over several lines. -/
  pretty : Bool
  /-- The extension of results. -/
  extension : String
  /-- Whether only errors are told. -/
  quiet : Bool
  /-- Which events are logged. -/
  filter : Log.Filter

variable {m : Type → Type} [Monad m] [Host m]

/-- A request to the host that may fail, with the failure that this means for the run. -/
def attempt {α : Type} (failure : FileError → Failure) (request : m (Except FileError α)) :
    ExceptT Failure m α := do
  match ← request with
  | .ok a => return a
  | .error cause => throw (failure cause)

/-- A result that may be a failure, as a step of a run. -/
def orFail {α : Type} (result : Except Failure α) : ExceptT Failure m α := ExceptT.mk (pure result)

/-- A document to work on. -/
structure Job where
  /-- The file that holds the document. -/
  input : Path
  /-- The file for the result. -/
  output : Path
  /-- The metadata of the document. -/
  metadata : Metadata

/-- Reads a document, imports its images and writes the result, as `rewrite_file_inner` does with
the help of `rewrite_json`. The directory for the result is made if it is missing. -/
def Job.run (job : Job) (run : RunSettings) : ExceptT Failure m Unit := do
  let text ← attempt (.unreadableDocument job.input) (Host.read job.input)
  match Document.parse text with
  | .error cause => throw (.invalidDocument job.input cause)
  | .ok root =>
      let settings : PassSettings := { metadata := job.metadata, options := run.options }
      logAll (m := m) run.filter (passEvents settings root)
      let result := (importImages settings root).print run.pretty
      match job.output.parent? with
      | some directory => attempt (.noDirectory directory) (createDirectories directory)
      | none => pure ()
      attempt (.notWritten job.output) (Host.write job.output result)

/-- The path of the result of a document that is told no other (`output_path_for`). An extension
with a slash in it cannot be given to a name, and then there is no path. -/
def resultPath (extension : String) (path : Path) : Except Failure Path :=
  match path.withExtension? extension with
  | some output => .ok output
  | none => .error (.slashInExtension extension)

end ImageImports.Cli
