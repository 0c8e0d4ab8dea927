/-!
# `ImageImports.Files.Path`: paths

A path is kept as it was written: the pieces of its text between slashes, empty pieces and single
dots included. A path whose first piece is empty and not its only one starts at the root of all
files; any other starts at the directory in which the program runs.

Main definitions: `Path.ofText`, `Path.text`, `Path.parent?`, `Path.join` and
`Path.withExtension?`. What a path leads to is told by `ImageImports.Files.Tree`.
-/

set_option autoImplicit false

namespace ImageImports

/-- A path, as the pieces of its text between slashes. -/
structure Path where
  /-- The pieces. -/
  pieces : List String
deriving DecidableEq, Repr

namespace Path

/-! ### Texts -/

/-- The pieces of a text between slashes. -/
def splitAtSlashes : List Char → List (List Char)
  | [] => [[]]
  | c :: rest =>
      if c = '/' then [] :: splitAtSlashes rest
      else
        match splitAtSlashes rest with
        | piece :: pieces => (c :: piece) :: pieces
        | [] => [[c]]

/-- The path that a text writes. -/
def ofText (text : String) : Path := ⟨(splitAtSlashes text.toList).map String.ofList⟩

/-- The text of a path. -/
def text (path : Path) : String := String.intercalate "/" path.pieces

/-- Whether a path starts at the root of all files. -/
def isAbsolute (path : Path) : Bool :=
  match path.pieces with
  | "" :: _ :: _ => true
  | _ => false

/-- The pieces that are walked: for a path from the root, those after the first slash. -/
def steps (path : Path) : List String :=
  if path.isAbsolute then path.pieces.drop 1 else path.pieces

/-- Some pieces without the slashes at their end. -/
def withoutEndSlashes (pieces : List String) : List String :=
  (pieces.reverse.dropWhile (· = "")).reverse

/-! ### Parts of a path -/

/-- Whether a piece adds nothing to a path: it is empty or a single dot. -/
def isVoid (piece : String) : Bool := piece = "" || piece = "."

/-- Some pieces without the void ones at their end. -/
def withoutVoidEnd (pieces : List String) : List String :=
  (pieces.reverse.dropWhile isVoid).reverse

/-- The path that a path is in, if it has a last piece that counts. A single dot counts where a path
begins with it. -/
def parent? (path : Path) : Option Path :=
  match path.pieces with
  | "" :: second :: rest =>
      match withoutVoidEnd (second :: rest) with
      | [] => none
      | pieces =>
          match withoutVoidEnd pieces.dropLast with
          | [] => some ⟨["", ""]⟩
          | above => some ⟨"" :: above⟩
  | "" :: [] => none
  | first :: rest =>
      match withoutVoidEnd rest with
      | [] => some ⟨[""]⟩
      | pieces => some ⟨first :: withoutVoidEnd pieces.dropLast⟩
  | [] => none

/-- Whether a path has an empty text. -/
def isEmpty (path : Path) : Bool := path.pieces = [] || path.pieces = [""]

/-- A path and the paths around it, each in the next, as far as they have a text. -/
def ancestors (path : Path) : List Path :=
  go path.pieces.length path
where
  /-- As many of the paths as there are pieces at most. -/
  go : Nat → Path → List Path
    | 0, _ => []
    | more + 1, path =>
        if path.isEmpty then []
        else
          match path.parent? with
          | none => [path]
          | some above => path :: go more above

/-- The path of an entry below a path, given by the names on the way to it. -/
def join (path : Path) (names : List String) : Path :=
  if path.isEmpty then ⟨names⟩ else ⟨withoutEndSlash path.pieces ++ names⟩
where
  /-- The pieces without an empty one at the end. -/
  withoutEndSlash (pieces : List String) : List String :=
    if pieces.getLast? = some "" then pieces.dropLast else pieces

/-! ### Names and their extensions -/

/-- A name in two: what stands before its last dot, and what stands after it. A dot at the start of
the name does not count. -/
def splitName (name : String) : Option (String × String) :=
  let reversed := name.toList.reverse
  let after := reversed.takeWhile (· ≠ '.')
  match reversed.dropWhile (· ≠ '.') with
  | _ :: c :: before =>
      if name = ".." then none
      else some (String.ofList (c :: before).reverse, String.ofList after.reverse)
  | _ => none

/-- The extension of a name. -/
def extension? (name : String) : Option String := (splitName name).map Prod.snd

/-- The name with another extension in the place of the one it has. The name `..` plus an extension
has no stem that could keep one and turns into `..`. -/
def renamed (name extension : String) : String :=
  match splitName name with
  | none => name ++ "." ++ extension
  | some (stem, _) => if stem = "." then ".." else stem ++ "." ++ extension

/-- Whether a text can be an extension: it holds no slash. -/
def isExtension (extension : String) : Bool := !extension.toList.contains '/'

/-- The path of the file beside that of a path, with another extension; there is none if the
extension holds a slash. -/
def withExtension? (path : Path) (extension : String) : Option Path :=
  if isExtension extension then
    match path.pieces.getLast? with
    | some name => some ⟨path.pieces.dropLast ++ [renamed name extension]⟩
    | none => some path
  else none

end Path

end ImageImports
