import ImageImports.Cli.Arguments
import ImageImports.Cli.Collection
import ImageImports.Settings

/-!
# `ImageImports.Cli.Documents`: runs over documents

A run over one document does a single job. A run over a directory collects the documents in it first
and then does one job after the other; a document that fails does not keep the others from being
worked on.

Main definitions: `processFile`, `processDirectory` and `process`, which are `rewrite_file`,
`rewrite_directory` and `run_rewrite`, and `findSettings`, which is `load_config`.
-/

set_option autoImplicit false

namespace ImageImports.Cli

variable {m : Type → Type} [Monad m] [Host m]

/-! ### Telling -/

/-- Prints a line of output, unless only errors are told. -/
def tell (run : RunSettings) (line : String) : m Unit :=
  if run.quiet then pure () else Host.print line

/-- Prints a line about the run, unless only errors are told. -/
def tellAside (run : RunSettings) (line : String) : m Unit :=
  if run.quiet then pure () else Host.report line

/-! ### One document -/

/-- Works on one document and tells where the result went (`rewrite_file`). -/
def processFile (run : RunSettings) (input : Path) (output : Option Path) :
    ExceptT Failure m Unit := do
  let output ←
    match output with
    | some path => pure path
    | none => orFail (resultPath run.extension input)
  log (m := m) run.filter
    (runEvent "rewriting" [("input", input.text), ("output", output.text)])
  Job.run { input, output, metadata := run.metadata.getD {} } run
  tell (m := m) run output.text

/-! ### The documents in a directory -/

/-- Works on some documents, one after the other; the result tells which failed. -/
def runJobs (run : RunSettings) : List Job → m (List (Path × Failure))
  | [] => return []
  | job :: rest => do
      match ← (Job.run job run).run with
      | .ok () =>
          tell run job.output.text
          runJobs run rest
      | .error failure => return (job.input, failure) :: (← runJobs run rest)

/-- Reports the documents that failed. -/
def reportFailures : List (Path × Failure) → m Unit
  | [] => return
  | (path, failure) :: rest => do
      Host.report ("Error rewriting " ++ path.text ++ ": " ++ failure.line)
      reportFailures rest

/-- Works on the documents in a directory (`rewrite_directory`). The paths of all results are told
before the first document is read, and failures are reported once all documents are done. -/
def processDirectory (run : RunSettings) (directory : Path) (output : Option Path)
    (recursive : Bool) : ExceptT Failure m Unit := do
  let documents ← collect run.extension recursive directory
  if documents.isEmpty then
    tellAside (m := m) run ("No .json files found in " ++ directory.text)
  else
    log (m := m) run.filter
      (runEvent "found documents" [("count", toString documents.length)])
    let jobs ← orFail (documents.mapM (jobFor run directory (output.getD directory)))
    let failures ← runJobs (m := m) run jobs
    reportFailures (m := m) failures
    tellAside (m := m) run ("Rewrote " ++ toString (jobs.length - failures.length) ++ " files, "
      ++ toString failures.length ++ " failed")
    if failures.isEmpty then pure () else throw (.failedDocuments failures.length)

/-! ### Whole runs -/

/-- Reads a configuration file (`load`). -/
def loadSettings (path : Path) : ExceptT Failure m Settings := do
  let text ← attempt (.unreadableSettings path) (Host.read path)
  match Settings.parse? text with
  | some settings => return settings
  | none => throw (.invalidSettings path)

/-- The directory in which the configuration file for an input is looked for. -/
def settingsDirectory (input : Path) : m Path := do
  if ← Host.isDirectory input then return input
  match input.parent? with
  | some directory => return if directory.isEmpty then .ofText "." else directory
  | none => return .ofText "."

/-- The settings for an input (`load_config`): those of the given configuration file, or else of the
one beside the input if there is one. -/
def findSettings (filter : Log.Filter) (config : Option Path) (input : Path) :
    ExceptT Failure m Settings := do
  match config with
  | some path => loadSettings path
  | none =>
      let directory ← settingsDirectory (m := m) input
      let path := directory.join [Settings.fileName]
      if ← isThere (m := m) path then
        let settings ← loadSettings path
        log (m := m) filter
          (runEvent ("loaded " ++ Settings.fileName) [("dir", directory.text)])
        return settings
      else return {}

/-- The metadata for all documents of a run, if the arguments give any (`load_metadata`). -/
def givenMetadata (arguments : DocumentArguments) : ExceptT Failure m (Option Metadata) := do
  match arguments.metadata, arguments.sourceFileDir with
  | some path, _ =>
      let text ← attempt (.unreadableMetadata path) (Host.read path)
      match Json.parse text with
      | .ok value => return some (.ofValue value)
      | .error cause => throw (.invalidMetadata path cause)
  | none, some directory => return some (.inDirectory directory)
  | none, none => return none

/-- Works on what the arguments name (`run_rewrite`). -/
def process (filter : Log.Filter) (arguments : DocumentArguments) : ExceptT Failure m Unit := do
  match arguments.input with
  | none => throw .noInput
  | some input =>
      let settings ← findSettings filter arguments.config input
      let options : ImportOptions := { resolve := settings.resolves && !arguments.noResolve }
      log (m := m) filter
        (runEvent "rewrite options" [("resolve", Settings.booleanText options.resolve)])
      let metadata ← givenMetadata arguments
      let run : RunSettings :=
        { options, metadata, filter
          pretty := arguments.pretty || settings.pretty.getD false
          extension := settings.effectiveExtension
          quiet := arguments.quiet }
      if ← Host.isFile (m := m) input then
        processFile run input arguments.output
      else if ← Host.isDirectory (m := m) input then
        processDirectory run input arguments.output arguments.recursive
      else throw (.missingInput input)

end ImageImports.Cli
