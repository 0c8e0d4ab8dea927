import ImageImports.Files.Tree

/-!
# `ImageImports.Cli.Host`: the system that the program runs on

The program asks its host for files and directories and gives it lines to print. A host in memory
keeps a file tree and the lines that were printed; with it, a run is a function of the tree that it
starts from.

Main definitions: `Host`, its instance for `InMemory`, and `createDirectories`.
-/

set_option autoImplicit false

namespace ImageImports.Cli

/-- What the program asks of the system that it runs on. -/
class Host (m : Type → Type) where
  /-- Whether a path leads to a file. -/
  isFile : Path → m Bool
  /-- Whether a path leads to a directory. -/
  isDirectory : Path → m Bool
  /-- The text of a file. -/
  read : Path → m (Except FileError String)
  /-- The names of the entries in a directory. -/
  list : Path → m (Except FileError (List String))
  /-- Makes a directory. -/
  makeDirectory : Path → m (Except FileError Unit)
  /-- Writes a text to a file. -/
  write : Path → String → m (Except FileError Unit)
  /-- Prints a line of output. -/
  print : String → m Unit
  /-- Prints a line about the run, beside the output. -/
  report : String → m Unit

/-! ### A host in memory -/

/-- The state of a host in memory. -/
structure HostState where
  /-- The files and directories. -/
  tree : FileTree
  /-- The lines of output, in their order. -/
  output : List String := []
  /-- The lines about the run, in their order. -/
  reports : List String := []

/-- A run on a host in memory. -/
abbrev InMemory := StateM HostState

namespace InMemory

/-- Looks at the file tree. -/
def look {α : Type} (f : FileTree → α) : InMemory α := fun state => (f state.tree, state)

/-- Changes the file tree, unless that fails. -/
def change (f : FileTree → Except FileError FileTree) : InMemory (Except FileError Unit) :=
  fun state =>
    match f state.tree with
    | .ok tree => (.ok (), { state with tree })
    | .error cause => (.error cause, state)

instance : Host InMemory where
  isFile path := look (·.isFile path)
  isDirectory path := look (·.isDirectory path)
  read path := look (·.read path)
  list path := look (·.list path)
  makeDirectory path := change (·.makeDirectory path)
  write path text := change (·.write path text)
  print line := fun state => ((), { state with output := state.output ++ [line] })
  report line := fun state => ((), { state with reports := state.reports ++ [line] })

end InMemory

/-! ### Derived requests -/

variable {m : Type → Type} [Monad m] [Host m]

/-- Whether there is anything at a path. -/
def isThere (path : Path) : m Bool := do
  if ← Host.isFile path then return true
  Host.isDirectory path

/-- The outcome of making a directory that may be there already. -/
def accepting (path : Path) : Except FileError Unit → m (Except FileError Unit)
  | .error .alreadyExists => do
      if ← Host.isDirectory path then return .ok ()
      return .error .alreadyExists
  | outcome => return outcome

/-- Makes the first of some directories, each in the next, and those around it as far as they are
missing. -/
def createAll : List Path → m (Except FileError Unit)
  | [] => return .ok ()
  | path :: around => do
      match ← Host.makeDirectory path with
      | .error .notFound =>
          match ← createAll around with
          | .ok () => accepting path (← Host.makeDirectory path)
          | .error cause => return .error cause
      | outcome => accepting path outcome

/-- Makes a directory and those around it as far as they are missing. -/
def createDirectories (path : Path) : m (Except FileError Unit) := createAll path.ancestors

end ImageImports.Cli
