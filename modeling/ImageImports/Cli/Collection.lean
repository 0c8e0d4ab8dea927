import ImageImports.Cli.Job

/-!
# `ImageImports.Cli.Collection`: the documents in a directory

A file is a document if its extension is `json`, in any case, and its name does not end as the names
of results do, so that results are never taken for documents. Documents are told by the names on the
way to them, and come in the order of these.

Main definitions: `collect`, which is `collect_json_files`, and `directoryMetadata`, which is
`metadata_for`.
-/

set_option autoImplicit false

namespace ImageImports.Cli

variable {m : Type → Type} [Monad m] [Host m]

/-- Whether a file with a name is a document, and not the result of one. The names of results are
told by their extension alone. -/
def isDocumentName (extension name : String) : Bool :=
  match Path.extension? name with
  | some found =>
      found.toList.map Char.toLower = "json".toList
        && !("." ++ extension).toList.isSuffixOf name.toList
  | none => false

/-- The greatest depth of a directory below another: every step down takes two bytes of its path at
least. -/
def depthLimit : Nat := FileTree.pathLimit

mutual

/-- The documents in a directory, each as the names on the way to it. Directories in the directory
are gone through to the given depth. -/
def collectIn (extension : String) (recursive : Bool) :
    Nat → Path → List String → ExceptT Failure m (List (List String))
  | 0, _, _ => return []
  | depth + 1, directory, above => do
      let names ← attempt (.unreadableDirectory directory) (Host.list directory)
      collectNames extension recursive depth directory above names

/-- The documents among some entries of a directory and in the directories among them. -/
def collectNames (extension : String) (recursive : Bool) (depth : Nat) (directory : Path)
    (above : List String) : List String → ExceptT Failure m (List (List String))
  | [] => return []
  | name :: rest => do
      let path := directory.join [name]
      let way := above ++ [name]
      let found ←
        if ← Host.isFile (m := m) path then
          pure (if isDocumentName extension name then [way] else [])
        else if recursive then
          if ← Host.isDirectory (m := m) path then
            collectIn extension recursive depth path way
          else pure []
        else pure []
      return found ++ (← collectNames extension recursive depth directory above rest)

end

/-- The documents in a directory, in the order of their names (`collect_json_files`). A document is
given by the names on the way to it. -/
def collect (extension : String) (recursive : Bool) (directory : Path) :
    ExceptT Failure m (List (List String)) := do
  let found ← collectIn extension recursive depthLimit directory []
  return found.mergeSort fun a b => !decide (b < a)

/-- The metadata of a document in a directory that are not given otherwise (`metadata_for`): it
comes from the directory in which it is found. -/
def directoryMetadata (way : List String) : Metadata :=
  match way.dropLast with
  | [] => {}
  | names => .inDirectory ("/".intercalate names)

/-- What is to be done about a document that was found in a directory. -/
def jobFor (run : RunSettings) (directory target : Path) (way : List String) :
    Except Failure Job :=
  (resultPath run.extension (target.join way)).map fun output =>
    { input := directory.join way, output, metadata := run.metadata.getD (directoryMetadata way) }

end ImageImports.Cli
