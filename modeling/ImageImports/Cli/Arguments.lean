import ImageImports.Cli.CommandLine
import ImageImports.Files.Path

/-!
# `ImageImports.Cli.Arguments`: what a command line asks for

The first word may be a command: `init`, which writes a configuration file, or `help`. Everything
else names a document, or a directory with documents, whose images are to be imported.

Main definition: `Request.ofWords`. Its results hold what `RewriteArgs` and `InitArgs` hold.
-/

set_option autoImplicit false

namespace ImageImports.Cli

/-- Which documents are to be worked on, and how (`RewriteArgs`). -/
structure DocumentArguments where
  /-- The document, or the directory of the documents. -/
  input : Option Path := none
  /-- Where the result goes, if not beside the input. -/
  output : Option Path := none
  /-- How many documents are worked on at a time. The result does not depend on it. -/
  jobs : Option Nat := none
  /-- Whether directories in a directory are gone through too. -/
  recursive : Bool := false
  /-- Whether bare addresses are left alone whatever the configuration says. -/
  noResolve : Bool := false
  /-- The directory that the documents count as coming from. -/
  sourceFileDir : Option String := none
  /-- A file with metadata for the documents. -/
  metadata : Option Path := none
  /-- Whether documents are written over several lines whatever the configuration says. -/
  pretty : Bool := false
  /-- The configuration file, if it is not the one beside the input. -/
  config : Option Path := none
  /-- Whether more is logged. -/
  verbose : Bool := false
  /-- Whether only errors are told. -/
  quiet : Bool := false

/-- How a configuration file is to be written (`InitArgs`). -/
structure InitArguments where
  /-- Where the file goes, if not to its usual place. -/
  output : Option Path := none
  /-- Whether the schema of the file is printed instead. -/
  schema : Bool := false
  /-- Whether a file in its place is overwritten. -/
  force : Bool := false

/-- What help is about. -/
inductive HelpTopic where
  /-- The program. -/
  | program
  /-- The command that writes a configuration file. -/
  | init
  /-- The command that shows help. -/
  | help
deriving DecidableEq, Repr

/-- What a command line asks for. -/
inductive Request where
  /-- Documents are to be worked on. -/
  | process (arguments : DocumentArguments)
  /-- A configuration file is to be written. -/
  | init (arguments : InitArguments)
  /-- Help is to be shown. -/
  | help (topic : HelpTopic)
  /-- The version is to be shown. -/
  | version

namespace Given

/-- Whether an option has been given. -/
def hasOption (given : Given) (name : OptionName) : Bool := given.has (.option name)

/-- The value of an option. -/
def text? (given : Given) (name : OptionName) : Option String := given.value? (.option name)

/-- The value of an option that names a file or a directory. -/
def path? (given : Given) (name : OptionName) : Option Path := (given.text? name).map Path.ofText

/-- The value of an option that is a count. -/
def count? (given : Given) (name : OptionName) : Option Nat :=
  given.text? name >>= fun text => (Count.read text).toOption

end Given

/-- The options that exclude each other, the one given first in front, if both are given. -/
def conflict? (given : Given) : Option UsageError :=
  let both : List Argument := [.option .sourceFileDir, .option .metadata]
  match (given.values.map Prod.fst).filter both.contains with
  | [first, second] => some (.conflict first second)
  | _ => none

namespace DocumentArguments

/-- The arguments in a command line. -/
def ofGiven (given : Given) : DocumentArguments where
  input := (given.value? .input).map Path.ofText
  output := given.path? .output
  jobs := given.count? .jobs
  recursive := given.hasOption .recursive
  noResolve := given.hasOption .noResolve
  sourceFileDir := given.text? .sourceFileDir
  metadata := given.path? .metadata
  pretty := given.hasOption .pretty
  config := given.path? .config
  verbose := given.hasOption .verbose
  quiet := given.hasOption .quiet

end DocumentArguments

/-- The arguments in a command line. -/
def InitArguments.ofGiven (given : Given) : InitArguments where
  output := given.path? .output
  schema := given.hasOption .schema
  force := given.hasOption .force

/-- The command with a name. -/
def HelpTopic.ofCommand? : String → Option HelpTopic
  | "init" => some .init
  | "help" => some .help
  | _ => none

/-- The topic of help that some words ask for. Neither command has commands of its own. -/
def HelpTopic.ofWords : List String → Except UsageError HelpTopic
  | [] => .ok .program
  | word :: rest =>
      match ofCommand? word with
      | none => .error (.unknownCommand word)
      | some topic =>
          match rest with
          | [] => .ok topic
          | next :: _ => .error (.unknownCommand next)

/-- What the words of a command line ask for. -/
def Request.ofWords (words : List String) : Except UsageError Request :=
  match words with
  | "help" :: rest => (HelpTopic.ofWords rest).map .help
  | "init" :: rest =>
      ask .init (readWords OptionName.ofInit false rest) fun given => .ok (.init (.ofGiven given))
  | words =>
      ask .program (readWords OptionName.ofProgram true words) fun given =>
        match conflict? given with
        | some cause => .error cause
        | none => .ok (.process (.ofGiven given))
where
  /-- What the arguments ask for, unless reading them was interrupted. -/
  ask (topic : HelpTopic) (read : Except Interruption Given)
      (request : Given → Except UsageError Request) : Except UsageError Request :=
    match read with
    | .ok given => request given
    | .error .help => .ok (.help topic)
    | .error .version => .ok .version
    | .error (.refused cause) => .error cause

end ImageImports.Cli
