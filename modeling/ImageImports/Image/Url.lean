import ImageImports.Metadata

/-!
# `ImageImports.Image.Url`: which addresses of images are imported

An absolute address is never imported. An address relative to the document is imported as it
stands. Any other address is bare: it is resolved against the root of all content and the directory
of the source file, if addresses are to be resolved at all, and left alone if not.

Main definition: `importTarget?`, which is `resolve_url`. Its options are `RewriteOptions`.
-/

set_option autoImplicit false

namespace ImageImports

open Json

/-- Which images are imported (`RewriteOptions`). Only bare addresses depend on it. -/
structure ImportOptions where
  /-- Whether bare addresses are resolved. -/
  resolve : Bool := true
deriving DecidableEq, Repr

/-- Reads options in their written form. -/
def ImportOptions.ofJson (value : Json) : Except Mismatch ImportOptions :=
  (readSingleField "RewriteOptions" "resolve" true readBool value).map
    fun resolve => { resolve }

/-- The written form of options. -/
def ImportOptions.toJson (options : ImportOptions) : Json :=
  .object [("resolve", .bool options.resolve)]

/-- Whether a text starts with another one. -/
def startsWith (text start : String) : Bool := start.toList.isPrefixOf text.toList

/-- Whether an address starts at the root of a host, with or without its scheme. This is what
`URL_PATTERN` matches: one slash behind the scheme is enough. -/
def isAbsoluteUrl (url : String) : Bool :=
  startsWith url "/" || startsWith url "http:/" || startsWith url "https:/"

/-- Whether an address starts at the directory of the document or the one above it, as
`RELATIVE_PATH_PATTERN` tells. A bare `.` or `..` does not count. -/
def isRelativeUrl (url : String) : Bool := startsWith url "./" || startsWith url "../"

/-- The directory of all content (`ROOT_SEGMENT`), the first segment of a resolved address. -/
def contentRoot : String := "data"

/-- The address from which an image is imported, as `resolve_url` tells; none where it is left
alone. A resolved address is only put together: segments such as `..` in it stay as they are. -/
def importTarget? (url : String) (metadata : Metadata) (options : ImportOptions) : Option String :=
  if isAbsoluteUrl url then none
  else if isRelativeUrl url then some url
  else if options.resolve then
    some ("./" ++ String.intercalate "/" (contentRoot :: (metadata.directory?.toList ++ [url])))
  else none

end ImageImports
