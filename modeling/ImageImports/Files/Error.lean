/-!
# `ImageImports.Files.Error`: why an operation on files fails
-/

set_option autoImplicit false

namespace ImageImports

/-- Why an operation on files fails. -/
inductive FileError where
  /-- Something on the path is not there. -/
  | notFound
  /-- There is something in the place of a new directory. -/
  | alreadyExists
  /-- A file is used as a directory. -/
  | notADirectory
  /-- A directory is used as a file. -/
  | isADirectory
  /-- A name or a path is longer than names and paths may be. -/
  | nameTooLong
  /-- The path holds the character with the number zero. -/
  | zeroInPath
  /-- The bytes of a file are not the UTF-8 form of a text. -/
  | notText
  /-- Any other reason, in words. -/
  | other (reason : String)
deriving DecidableEq, Repr

/-- The text of an error. -/
def FileError.message : FileError → String
  | .notFound => "No such file or directory (os error 2)"
  | .alreadyExists => "File exists (os error 17)"
  | .notADirectory => "Not a directory (os error 20)"
  | .isADirectory => "Is a directory (os error 21)"
  | .nameTooLong => "File name too long (os error 36)"
  | .zeroInPath => "file name contained an unexpected NUL byte"
  | .notText => "stream did not contain valid UTF-8"
  | .other reason => reason

end ImageImports
