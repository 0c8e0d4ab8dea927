import ImageImports.Mdast.Build
import ImageImports.Image.Url

/-!
# `ImageImports.Image.Import`: the imports of a document

Every address that is imported gets one name, however many images show it. The name is made of the
address and of the number of addresses before it, so two addresses never share a name even where
they differ only in characters that a name cannot hold.

Main definitions: `importName`, which is `identifier_name`, and `ImportList`, which stands for
`ImportTable`: the addresses of a document in the order in which they were first seen.
-/

set_option autoImplicit false

namespace ImageImports

open Mdast

/-! ### Names -/

/-- Whether a character may stand in a generated name: a digit, a letter from `A` to `Z` or `a` to
`z`, or an underscore. `NON_WORD_PATTERN` matches all the others. -/
def isWordChar (c : Char) : Bool :=
  ('0' ≤ c && c ≤ '9') || ('A' ≤ c && c ≤ 'Z') || ('a' ≤ c && c ≤ 'z') || c == '_'

/-- The number of UTF-16 units of a character. A character outside the basic plane takes two, so it
leaves two underscores in a name. -/
def utf16Length (c : Char) : Nat := if c.toNat < 0x10000 then 1 else 2

/-- A character as it stands in a name: itself, or an underscore for each of its UTF-16 units. -/
def wordChars (c : Char) : List Char :=
  if isWordChar c then [c] else List.replicate (utf16Length c) '_'

/-- The characters of an address without a leading `./`. Only one is taken off, so a second one
leaves its underscores in the name. -/
def withoutDotSlash : List Char → List Char
  | '.' :: '/' :: rest => rest
  | chars => chars

/-- The name for an address that comes after a number of others, as `identifier_name` makes it: the
index and the address in word characters, between pairs of underscores. -/
def importName (index : Nat) (url : String) : String :=
  "__" ++ toString index ++ "_"
    ++ String.ofList ((withoutDotSlash url.toList).flatMap wordChars) ++ "__"

/-! ### The list of imports -/

/-- The imported addresses, each once, in the order in which they were first seen. It stands for
`ImportTable`, which keeps a name and a statement for each address; both follow from the place of
the address. -/
structure ImportList where
  /-- The addresses. -/
  urls : List String := []

namespace ImportList

/-- The number of imports. -/
def size (imports : ImportList) : Nat := imports.urls.length

/-- The place of an address; that of the next new one if the address is not among the imports. -/
def indexOf (imports : ImportList) (url : String) : Nat := imports.urls.idxOf url

/-- The imports with an address among them. Together with `nameOf` this is `name_for`, which adds an
address on its first use. -/
def insert (imports : ImportList) (url : String) : ImportList :=
  if url ∈ imports.urls then imports else ⟨imports.urls ++ [url]⟩

/-- The name of an imported address: that of its place, so it does not change when further addresses
come. -/
def nameOf (imports : ImportList) (url : String) : String := importName (imports.indexOf url) url

/-- The import statements, one for each address from the given place on. -/
def importsFrom (index : Nat) : List String → List Node
  | [] => []
  | url :: rest => .defaultImport (importName index url) url :: importsFrom (index + 1) rest

/-- The import statements in the order of their addresses (`into_nodes`). -/
def nodes (imports : ImportList) : List Node := importsFrom 0 imports.urls

end ImportList

end ImageImports
