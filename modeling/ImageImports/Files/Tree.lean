import ImageImports.Files.Path
import ImageImports.Files.Error

/-!
# `ImageImports.Files.Tree`: files and directories

A file tree says what is where: at each location, given by the names on the way from the root, there
is a file with its bytes, a directory, or nothing. A path is walked piece by piece, and every piece
but the last has to lead to a directory; `..` leads to the directory around one.

The operations are those that a program has: to look what is at a path, to read a file, to list a
directory, to make a directory and to write a file. Each tells how it fails, and only the last two
change the tree. `get?_put` says how.
-/

set_option autoImplicit false

namespace ImageImports

/-- The names on the way from the root of all files. -/
abbrev Location := List String

/-- What can be at a location. -/
inductive Entry where
  /-- A file with its bytes. -/
  | file (bytes : ByteArray)
  /-- A directory. -/
  | directory

/-- Files and directories, and the directory in which a program runs. -/
structure FileTree where
  /-- What is where; of two entries for one location the first counts. -/
  entries : List (Location × Entry)
  /-- The directory in which a program runs. -/
  workingDirectory : Location

namespace FileTree

/-- The greatest number of bytes in a name. -/
def nameLimit : Nat := 255

/-- The least number of bytes that is too much for the text of a path. -/
def pathLimit : Nat := 4096

/-! ### Entries -/

/-- What is at a location. There is always a directory at the root. -/
def get? (tree : FileTree) (location : Location) : Option Entry :=
  if location = [] then some .directory
  else (tree.entries.find? fun entry => entry.1 = location).map Prod.snd

/-- The tree with an entry at a location in the place of any other. -/
def put (tree : FileTree) (location : Location) (entry : Entry) : FileTree :=
  { tree with entries := replace tree.entries }
where
  /-- The entries with the new one in the place of the first for its location, or else at the
  end. -/
  replace : List (Location × Entry) → List (Location × Entry)
    | [] => [(location, entry)]
    | other :: rest =>
        if other.1 = location then (location, entry) :: rest else other :: replace rest

/-- An entry that is replaced is found at its location, and all others are found as before. -/
theorem find?_replace (location : Location) (entry : Entry) (entries : List (Location × Entry))
    (other : Location) :
    (put.replace location entry entries).find? (fun e => e.1 = other)
      = if other = location then some (location, entry)
        else entries.find? fun e => e.1 = other := by
  induction entries with
  | nil => by_cases h : other = location <;> simp [put.replace, h, eq_comm]
  | cons e rest ih =>
      by_cases he : e.1 = location <;> by_cases h : other = location <;>
        by_cases ho : e.1 = other <;> simp_all [put.replace]

/-- After an entry is put at a location other than the root, it is there, and everything else is as
before. -/
theorem get?_put (tree : FileTree) (location : Location) (entry : Entry) (other : Location)
    (h : location ≠ []) :
    (tree.put location entry).get? other
      = if other = location then some entry else tree.get? other := by
  unfold get?
  by_cases ho : other = []
  · simp [ho, Ne.symm h]
  · simp only [ho, if_false, put, find?_replace]
    by_cases h' : other = location <;> simp [h']

/-- The names of the entries in a directory. -/
def namesIn (tree : FileTree) (location : Location) : List String :=
  tree.entries.filterMap fun (other, _) =>
    if other.dropLast = location then other.getLast? else none

/-! ### Walking a path -/

/-- Where a piece of a path leads from a location. -/
def step (tree : FileTree) (here : Location) (piece : String) : Except FileError Location :=
  match tree.get? here with
  | none => .error .notFound
  | some (.file _) => .error .notADirectory
  | some .directory =>
      if Path.isVoid piece then .ok here
      else if piece = ".." then .ok here.dropLast
      else if nameLimit < piece.utf8ByteSize then .error .nameTooLong
      else .ok (here ++ [piece])

/-- Where some pieces of a path lead from a location, one after the other. -/
def walk (tree : FileTree) : Location → List String → Except FileError Location
  | here, [] => .ok here
  | here, piece :: rest =>
      match tree.step here piece with
      | .error cause => .error cause
      | .ok next => tree.walk next rest

/-- Why the text of a path names nothing, whatever the tree. -/
def textFault? (path : Path) : Option FileError :=
  if path.isEmpty then some .notFound
  else if path.text.toList.contains '\x00' then some .zeroInPath
  else if pathLimit ≤ path.text.utf8ByteSize then some .nameTooLong
  else none

/-- Where the walk along a path starts. -/
def start (tree : FileTree) (path : Path) : Location :=
  if path.isAbsolute then [] else tree.workingDirectory

/-- The location to which a path leads. There need not be anything. -/
def locate (tree : FileTree) (path : Path) : Except FileError Location :=
  match textFault? path with
  | some cause => .error cause
  | none => tree.walk (tree.start path) path.steps

/-- The location that a path names for a new entry, not counting the slashes at its end; there is
none if its last piece is no name. -/
def locateNew (tree : FileTree) (path : Path) : Except FileError (Option Location) :=
  match textFault? path with
  | some cause => .error cause
  | none =>
      let pieces := Path.withoutEndSlashes path.steps
      match tree.walk (tree.start path) pieces with
      | .error cause => .error cause
      | .ok location =>
          match pieces.getLast? with
          | some piece =>
              .ok (if Path.isVoid piece || piece = ".." then none else some location)
          | none => .ok none

/-! ### Operations -/

/-- What a path leads to, if it leads to anything. -/
def lookup? (tree : FileTree) (path : Path) : Option Entry :=
  match tree.locate path with
  | .ok location => tree.get? location
  | .error _ => none

/-- Whether a path leads to a file. -/
def isFile (tree : FileTree) (path : Path) : Bool :=
  match tree.lookup? path with
  | some (.file _) => true
  | _ => false

/-- Whether a path leads to a directory. -/
def isDirectory (tree : FileTree) (path : Path) : Bool :=
  match tree.lookup? path with
  | some .directory => true
  | _ => false

/-- The text of a file. -/
def read (tree : FileTree) (path : Path) : Except FileError String :=
  match tree.locate path with
  | .error cause => .error cause
  | .ok location =>
      match tree.get? location with
      | none => .error .notFound
      | some .directory => .error .isADirectory
      | some (.file bytes) =>
          match String.fromUTF8? bytes with
          | some text => .ok text
          | none => .error .notText

/-- The names of the entries in a directory. -/
def list (tree : FileTree) (path : Path) : Except FileError (List String) :=
  match tree.locate path with
  | .error cause => .error cause
  | .ok location =>
      match tree.get? location with
      | none => .error .notFound
      | some (.file _) => .error .notADirectory
      | some .directory => .ok (tree.namesIn location)

/-- The tree with a new directory. -/
def makeDirectory (tree : FileTree) (path : Path) : Except FileError FileTree :=
  match tree.locateNew path with
  | .error cause => .error cause
  | .ok none => .error .alreadyExists
  | .ok (some location) =>
      match tree.get? location with
      | some _ => .error .alreadyExists
      | none => .ok (tree.put location .directory)

/-- The tree with a file that holds some bytes, new or in the place of another file. -/
def writeBytes (tree : FileTree) (path : Path) (bytes : ByteArray) : Except FileError FileTree :=
  match tree.locateNew path with
  | .error cause => .error cause
  | .ok none => .error .isADirectory
  | .ok (some location) =>
      if path.pieces.getLast? = some "" then .error .isADirectory
      else
        match tree.get? location with
        | some .directory => .error .isADirectory
        | _ => .ok (tree.put location (.file bytes))

/-- The tree with a file that holds a text. -/
def write (tree : FileTree) (path : Path) (text : String) : Except FileError FileTree :=
  tree.writeBytes path text.toUTF8

end FileTree

end ImageImports
