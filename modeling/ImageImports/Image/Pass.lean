import ImageImports.Image.Import

/-!
# `ImageImports.Image.Pass`: images become elements that show an import

One pass over a document, in document order. Every image whose address is imported is replaced in
place by an element named `img` whose source is the name of the import; all other nodes stay. The
statements that import the addresses are put in front of the document afterwards.

Main definitions: `importImages`, which is `rewrite_images`, `shownElement`, which is
`image_element`, and `imageEvents`, which tells what the pass does to every image.
-/

set_option autoImplicit false

namespace ImageImports

open Mdast

/-- The settings of a pass over one document: the two arguments that `rewrite_images` takes beside
the document. -/
structure PassSettings where
  /-- What is known about the source of the document. -/
  metadata : Metadata := {}
  /-- Which images are imported. -/
  options : ImportOptions := {}

namespace PassSettings

/-- The address from which an image is imported, if it is imported. -/
def target? (settings : PassSettings) (url : String) : Option String :=
  importTarget? url settings.metadata settings.options

end PassSettings

/-- The element that shows an import in the place of an image with the given other members, as
`image_element` makes it. An image without an alternative text gives the attribute `alt` no value,
and an empty title is left out. -/
def shownElement (image : OtherMembers) (name : String) : Node :=
  let title :=
    match image.getString? "title" with
    | some title => if title = "" then [] else [Attribute.literal "title" (some title)]
    | none => []
  .textElement "img"
    ([.literal "alt" (image.getString? "alt"), .identifier "src" name] ++ title) []

mutual

/-- Replaces the images in a node, starting with the imports so far. This is what the visitor of
`rewrite_images` does to the node and to all below it. -/
def importNode (settings : PassSettings) : Node → ImportList → Node × ImportList
  | .leaf (.image url) others, imports =>
      match settings.target? url with
      | some target =>
          let imports := imports.insert target
          (shownElement others (imports.nameOf target), imports)
      | none => (.leaf (.image url) others, imports)
  | .leaf content others, imports => (.leaf content others, imports)
  | .branch content others children, imports =>
      let (children, imports) := importNodes settings children imports
      (.branch content others children, imports)

/-- Replaces the images in some nodes, one after the other, starting with the imports so far. -/
def importNodes (settings : PassSettings) : List Node → ImportList → List Node × ImportList
  | [], imports => ([], imports)
  | node :: rest, imports =>
      let (node, imports) := importNode settings node imports
      let (rest, imports) := importNodes settings rest imports
      (node :: rest, imports)

end

/-- Replaces the images of a document and puts the import statements in front, as `rewrite_images`
does. The children of the document that were there before keep their order behind the statements. -/
def importImages (settings : PassSettings) (root : Root) : Root :=
  let (children, imports) := importNodes settings root.children {}
  { root with children := imports.nodes ++ children }

/-! ### What a pass does -/

mutual

/-- The addresses of the images in a node, in document order. -/
def imageUrls : Node → List String
  | .leaf (.image url) _ => [url]
  | .leaf _ _ => []
  | .branch _ _ children => allImageUrls children

/-- The addresses of the images in some nodes, in document order. -/
def allImageUrls : List Node → List String
  | [] => []
  | node :: rest => imageUrls node ++ allImageUrls rest

end

/-- What a pass does to an image. -/
inductive ImageEvent where
  /-- The image is imported from an address under a name. -/
  | imported (url target name : String)
  /-- The image is left alone. -/
  | untouched (url : String)

/-- What a pass does to the images of a document, in document order, and the number of imports. The
log of `rewrite_images` has one entry for each event and one for the counts. -/
def imageEvents (settings : PassSettings) (root : Root) : List ImageEvent × Nat :=
  let urls := allImageUrls root.children
  let imports := (urls.filterMap settings.target?).foldl ImportList.insert {}
  let events := urls.map fun url =>
    match settings.target? url with
    | some target => .imported url target (imports.nameOf target)
    | none => .untouched url
  (events, imports.size)

end ImageImports
