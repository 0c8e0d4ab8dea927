import ImageImports.Cli.Count

/-!
# `ImageImports.Cli.CommandLine`: the words of a command line

A word that begins with two dashes names an option by its long name, one that begins with a single
dash names options by their letters, and any other word is the value of the option before it or the
input. A value may also stand in the same word, after an equals sign or right after a letter. After
the word `--` no word is an option.

The value of an option is looked at when the next word has been recognized, so a word that is no
option is reported before a value that does not fit.

Main definitions: `Argument` and `readWords`.
-/

set_option autoImplicit false

namespace ImageImports.Cli

/-- The options of the program and of its command. -/
inductive OptionName where
  | output
  | jobs
  | recursive
  | noResolve
  | sourceFileDir
  | metadata
  | pretty
  | config
  | verbose
  | quiet
  | schema
  | force
  | help
  | version
deriving DecidableEq, Repr

/-- What a value has to be. -/
inductive ValueKind where
  /-- Any text. -/
  | text
  /-- A text that is not empty. -/
  | path
  /-- A count. -/
  | count

namespace OptionName

/-- The long name, without the dashes. -/
def long : OptionName → String
  | output => "output"
  | jobs => "jobs"
  | recursive => "recursive"
  | noResolve => "no-resolve"
  | sourceFileDir => "source-file-dir"
  | metadata => "metadata"
  | pretty => "pretty"
  | config => "config"
  | verbose => "verbose"
  | quiet => "quiet"
  | schema => "schema"
  | force => "force"
  | help => "help"
  | version => "version"

/-- The letter, if there is one. -/
def short? : OptionName → Option Char
  | output => some 'o'
  | jobs => some 'j'
  | recursive => some 'r'
  | config => some 'c'
  | verbose => some 'v'
  | quiet => some 'q'
  | help => some 'h'
  | version => some 'V'
  | noResolve | sourceFileDir | metadata | pretty | schema | force => none

/-- The name for the value and what the value has to be, for an option that takes one. -/
def value? : OptionName → Option (String × ValueKind)
  | output => some ("OUTPUT", .path)
  | jobs => some ("JOBS", .count)
  | sourceFileDir => some ("SOURCE_FILE_DIR", .text)
  | metadata => some ("METADATA", .path)
  | config => some ("CONFIG", .path)
  | recursive | noResolve | pretty | verbose | quiet | schema | force | help | version => none

/-- The options of the program. -/
def ofProgram : List OptionName :=
  [output, jobs, recursive, noResolve, sourceFileDir, metadata, pretty, config, verbose, quiet,
    help, version]

/-- The options of the command that writes a configuration file. -/
def ofInit : List OptionName := [output, schema, force, help]

end OptionName

/-- What can be given on a command line. -/
inductive Argument where
  /-- An option. -/
  | option (name : OptionName)
  /-- The input. -/
  | input
deriving DecidableEq, Repr

namespace Argument

/-- An argument as it is shown in messages. -/
def shown : Argument → String
  | .input => "[INPUT]"
  | .option name =>
      match name.value? with
      | some (value, _) => "--" ++ name.long ++ " <" ++ value ++ ">"
      | none => "--" ++ name.long

/-- What the value of an argument has to be. -/
def kind : Argument → ValueKind
  | .input => .path
  | .option name =>
      match name.value? with
      | some (_, kind) => kind
      | none => .text

end Argument

/-! ### Errors -/

/-- Why a command line is refused. -/
inductive UsageError where
  /-- A word is no option and no place is left for it. -/
  | unexpectedArgument (word : String)
  /-- A value is given to an option that takes none. -/
  | unexpectedValue (value : String) (argument : Argument)
  /-- An argument has no value, or an empty one. -/
  | missingValue (argument : Argument)
  /-- A value is no count. -/
  | invalidCount (value : String) (argument : Argument) (cause : Count.ReadError)
  /-- An option is given again. -/
  | repeated (argument : Argument)
  /-- Two options exclude each other. -/
  | conflict (first second : Argument)
  /-- A further word stands where only a command could, and other arguments were given. -/
  | notACommand (word : String) (given : List Argument)
  /-- Help is asked for a command that there is not. -/
  | unknownCommand (word : String)
deriving DecidableEq, Repr

/-- The text of an error. -/
def UsageError.message : UsageError → String
  | .unexpectedArgument word => "unexpected argument '" ++ word ++ "' found"
  | .unexpectedValue value argument =>
      "unexpected value '" ++ value ++ "' for '" ++ argument.shown
        ++ "' found; no more were expected"
  | .missingValue argument =>
      "a value is required for '" ++ argument.shown ++ "' but none was supplied"
  | .invalidCount value argument cause =>
      "invalid value '" ++ value ++ "' for '" ++ argument.shown ++ "': " ++ cause.message
  | .repeated argument => "the argument '" ++ argument.shown ++ "' cannot be used multiple times"
  | .conflict first second =>
      "the argument '" ++ first.shown ++ "' cannot be used with '" ++ second.shown ++ "'"
  | .notACommand word [argument] =>
      "the subcommand '" ++ word ++ "' cannot be used with '" ++ argument.shown ++ "'"
  | .notACommand word given =>
      "the subcommand '" ++ word ++ "' cannot be used with:"
        ++ String.join (given.map fun argument => "\n  " ++ argument.shown)
  | .unknownCommand word => "unrecognized subcommand '" ++ word ++ "'"

/-- Why the words of a command line are not read to their end. -/
inductive Interruption where
  /-- They are refused. -/
  | refused (cause : UsageError)
  /-- Help is asked for. -/
  | help
  /-- The version is asked for. -/
  | version

/-! ### Reading -/

/-- The arguments read so far. -/
structure Given where
  /-- The arguments with their values, in their order; an option that takes no value has an empty
  one. -/
  values : List (Argument × String) := []
  /-- The last argument that takes a value, and the value if it was there already. -/
  pending : Option (Argument × Option String) := none

namespace Given

/-- Whether an argument has been given. -/
def has (given : Given) (argument : Argument) : Bool :=
  given.values.any fun entry => entry.1 = argument

/-- The value of an argument. -/
def value? (given : Given) (argument : Argument) : Option String :=
  (given.values.find? fun entry => entry.1 = argument).map Prod.snd

/-- Checks a value. -/
def check (argument : Argument) (value : String) : Except UsageError Unit :=
  match argument.kind with
  | .text => .ok ()
  | .path => if value = "" then .error (.missingValue argument) else .ok ()
  | .count =>
      match Count.read value with
      | .ok _ => .ok ()
      | .error cause => .error (.invalidCount value argument cause)

/-- Adds an argument with its value. -/
def add (given : Given) (argument : Argument) (value : String) : Except UsageError Given :=
  if given.has argument then .error (.repeated argument)
  else
    match check argument value with
    | .error cause => .error cause
    | .ok () => .ok { values := given.values ++ [(argument, value)] }

/-- Adds the argument that is still to be looked at. -/
def settle (given : Given) : Except UsageError Given :=
  match given.pending with
  | none => .ok given
  | some (argument, none) => .error (.missingValue argument)
  | some (argument, some value) => { given with pending := none }.add argument value

/-- Adds an argument with its value, after the one that is still to be looked at. -/
def accept (given : Given) (argument : Argument) (value : String) : Except UsageError Given :=
  match given.settle with
  | .error cause => .error cause
  | .ok given => given.add argument value

/-- Notes an argument whose value is to be looked at later. -/
def await (given : Given) (argument : Argument) (value : Option String) :
    Except UsageError Given :=
  match given.settle with
  | .error cause => .error cause
  | .ok given => .ok { given with pending := some (argument, value) }

/-- The arguments that were given, the one that is still to be looked at included unless it is
refused before its value matters. -/
def arguments (given : Given) : List Argument :=
  let settled := given.values.map Prod.fst
  match given.pending with
  | some (argument, some _) =>
      if given.has argument then settled.filter (· ≠ argument) else settled ++ [argument]
  | _ => settled

/-- Whether a word has been taken as the input. -/
def hasInput (given : Given) : Bool :=
  given.has .input || given.pending.any fun entry => entry.1 = .input

end Given

/-- A result that may be a refusal, as a step of reading. -/
def reading {α : Type} : Except UsageError α → Except Interruption α
  | .ok a => .ok a
  | .error cause => .error (.refused cause)

/-- Reads an option that takes no value. -/
def readFlag (given : Given) (name : OptionName) : Except Interruption Given :=
  match name with
  | .help => reading given.settle >>= fun _ => .error .help
  | .version => reading given.settle >>= fun _ => .error .version
  | name => reading (given.accept (.option name) "")

/-- Reads a word after the two dashes. -/
def readLong (allowed : List OptionName) (given : Given) (word : List Char) :
    Except Interruption Given :=
  let name := String.ofList (word.takeWhile (· ≠ '='))
  let attached : Option String :=
    match word.dropWhile (· ≠ '=') with
    | _ :: value => some (String.ofList value)
    | [] => none
  match allowed.find? fun option => option.long = name with
  | none => .error (.refused (.unexpectedArgument ("--" ++ name)))
  | some option =>
      match option.value?, attached with
      | some _, some value => reading (given.accept (.option option) value)
      | some _, none => reading (given.await (.option option) none)
      | none, some value => .error (.refused (.unexpectedValue value (.option option)))
      | none, none => readFlag given option

/-- Reads a word after the single dash. -/
def readLetters (allowed : List OptionName) : Given → List Char → Except Interruption Given
  | given, [] => .ok given
  | given, letter :: rest =>
      match allowed.find? fun option => option.short? = some letter with
      | none => .error (.refused (.unexpectedArgument (String.ofList ['-', letter])))
      | some option =>
          match option.value? with
          | none => readFlag given option >>= fun given => readLetters allowed given rest
          | some _ =>
              match rest with
              | [] => reading (given.await (.option option) none)
              | '=' :: value =>
                  reading (given.accept (.option option) (String.ofList value))
              | value => reading (given.accept (.option option) (String.ofList value))

/-- Reads a word that is no option. -/
def readPlain (takesInput : Bool) (given : Given) (word : String) : Except Interruption Given :=
  if !takesInput then .error (.refused (.unexpectedArgument word))
  else if given.hasInput then .error (.refused (.notACommand word given.arguments))
  else reading (given.await .input (some word))

/-- Reads the words of a command line. The flag tells whether options may still come. -/
def readFrom (allowed : List OptionName) (takesInput : Bool) :
    Bool → Given → List String → Except Interruption Given
  | _, given, [] => reading given.settle
  | false, given, word :: rest =>
      readPlain takesInput given word >>= fun given => readFrom allowed takesInput false given rest
  | true, given, word :: rest =>
      match word.toList with
      | ['-', '-'] => readFrom allowed takesInput false given rest
      | '-' :: '-' :: name =>
          readLong allowed given name >>= fun given => readFrom allowed takesInput true given rest
      | '-' :: letter :: more =>
          readLetters allowed given (letter :: more) >>= fun given =>
            readFrom allowed takesInput true given rest
      | _ =>
          match given.pending with
          | some (argument, none) =>
              readFrom allowed takesInput true
                { given with pending := some (argument, some word) } rest
          | _ =>
              readPlain takesInput given word >>= fun given =>
                readFrom allowed takesInput true given rest

/-- Reads the words of a command line that may hold the given options and may take an input. -/
def readWords (allowed : List OptionName) (takesInput : Bool) (words : List String) :
    Except Interruption Given :=
  readFrom allowed takesInput true {} words

end ImageImports.Cli
