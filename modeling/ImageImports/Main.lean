import ImageImports.Cli.Run

/-!
# `ImageImports.Main`: the program on the files of the system

Every request of a run is passed on to the system; what a run does is told by
`ImageImports.Cli.Run`.
-/

set_option autoImplicit false

namespace ImageImports.OnDisk

/-- The place of a path on disk. -/
def place (path : Path) := (IO.FS.DirEntry.mk path.text "").root

/-- The reason for a failure of the system. -/
def reason : IO.Error → FileError
  | .noFileOrDirectory _ _ _ => .notFound
  | .alreadyExists _ _ _ => .alreadyExists
  | .inappropriateType _ code _ =>
      if code = 21 || code = 0 - 21 then .isADirectory else .notADirectory
  | .invalidArgument _ code details =>
      if code = 36 || code = 0 - 36 then .nameTooLong else .other details
  | cause => .other (toString cause)

/-- A request to the system, with the reason if it fails. -/
def asking {α : Type} (request : IO α) : IO (Except FileError α) := do
  try
    return .ok (← request)
  catch cause => return .error (reason cause)

/-- The kind of what a path leads to, if it leads to anything. -/
def kind? (path : Path) : IO (Option IO.FS.FileType) := do
  try
    return some (← (place path).metadata).type
  catch _ => return none

instance : Cli.Host IO where
  isFile path := return (← kind? path) matches some .file
  isDirectory path := return (← kind? path) matches some .dir
  read path := do
    match ← asking (IO.FS.readBinFile (place path)) with
    | .error cause => return .error cause
    | .ok bytes =>
        match String.fromUTF8? bytes with
        | some text => return .ok text
        | none => return .error .notText
  list path := asking do return (← (place path).readDir).toList.map (·.fileName)
  makeDirectory path := asking (IO.FS.createDir (place path))
  write path text := asking (IO.FS.writeFile (place path) text)
  print line := IO.println line
  report line := IO.eprintln line

end ImageImports.OnDisk

/-- Runs the program on the words of the command line. -/
def main (words : List String) : IO UInt32 := do
  let code ← ImageImports.Cli.run (m := IO) (← IO.getEnv "RUST_LOG") words
  return code.toUInt32
