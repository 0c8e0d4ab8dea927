import ImageImports.Cli.Help
import ImageImports.Cli.Documents

/-!
# `ImageImports.Cli.Run`: the program

A run takes the words of a command line and the filter on log events that the environment gives, and
ends with an exit code: 0 for success, 1 for a failure, 2 for a command line that is refused.

Main definitions: `run`, which is `main`, and `init`, which is `run_init`.
-/

set_option autoImplicit false

namespace ImageImports.Cli

variable {m : Type → Type} [Monad m] [Host m]

/-- Prints some lines of output. -/
def printAll : List String → m Unit
  | [] => return
  | line :: rest => do
      Host.print line
      printAll rest

/-- Prints some lines about the run. -/
def reportAll : List String → m Unit
  | [] => return
  | line :: rest => do
      Host.report line
      reportAll rest

/-- Writes a configuration file, or prints the schema of one (`run_init`). -/
def init (arguments : InitArguments) : ExceptT Failure m Unit := do
  if arguments.schema then
    Host.print (m := m) Settings.schema.pretty
  else
    let path := arguments.output.getD (.ofText Settings.fileName)
    if (← isThere (m := m) path) && !arguments.force then throw (.inTheWay path)
    attempt (.notWritten path) (Host.write path Settings.sample.print)
    Host.print (m := m) path.text

/-- The filter on log events for a run (`init_logging`). -/
def filterFor (text : Option String) (arguments : DocumentArguments) : Log.Filter :=
  match text >>= Log.Filter.ofText? with
  | some filter => filter
  | none =>
      .ofLevel (if arguments.quiet then .error else if arguments.verbose then .debug else .warn)

/-- Does what a command line asks for. -/
def perform (filter : Option String) : Request → ExceptT Failure m Unit
  | .process arguments => process (filterFor filter arguments) arguments
  | .init arguments => init arguments
  | .help topic => printAll (m := m) topic.lines
  | .version => Host.print (m := m) versionLine

/-- A whole run (`main`): reads the command line, does what it asks for and ends with the exit
code. -/
def run (filter : Option String) (words : List String) : m Nat := do
  match Request.ofWords words with
  | .error cause =>
      Host.report ("error: " ++ cause.message)
      return 2
  | .ok request =>
      match ← (perform filter request).run with
      | .ok () => return 0
      | .error failure =>
          reportAll failure.lines
          return failure.exitCode

end ImageImports.Cli
