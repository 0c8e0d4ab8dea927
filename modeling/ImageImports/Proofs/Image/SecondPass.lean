import ImageImports.Proofs.Image.Bindings
import ImageImports.Proofs.Image.Url

/-!
# `ImageImports.Proofs.Image.SecondPass`: a pass over a document that was already passed over

What a pass leaves in a document of its images are those that it does not import
(`allImageUrls_importImages`): the statements in front hold no image, and neither do the elements
in the places of the imported ones. A pass changes a document exactly where it imports some image of
it (`importImages_eq_self_iff`). So a second pass changes nothing as long as it imports no image
that the first one left alone, and only the option to resolve bare addresses decides about that
(`importTarget?_eq_none_iff`). What is known about the source of the document moves addresses and
makes no difference here.

Main statement: `importImages_importImages`.
-/

set_option autoImplicit false

namespace ImageImports

open Mdast

/-! ### Addresses that are left alone -/

namespace PassSettings

/-- What one pass leaves alone another one does too, unless it resolves bare addresses and the first
one did not. -/
theorem target?_eq_none_of_eq_none {first second : PassSettings} {url : String}
    (hresolve : first.options.resolve = true ∨ second.options.resolve = false)
    (h : first.target? url = none) : second.target? url = none := by
  rcases (importTarget?_eq_none_iff _ _ _).1 h with habsolute | ⟨hfirst, hbare⟩
  · exact (importTarget?_eq_none_iff _ _ _).2 (.inl habsolute)
  · -- A bare address was left alone because the first pass did not resolve it.
    have hsecond : second.options.resolve = false := by
      rcases hresolve with htrue | hfalse
      · rw [hfirst] at htrue
        cases htrue
      · exact hfalse
    exact (importTarget?_eq_none_iff _ _ _).2 (.inr ⟨hsecond, hbare⟩)

end PassSettings

/-! ### The images that a pass leaves -/

/-- The images of appended nodes come behind those of the others. -/
theorem allImageUrls_append (front back : List Node) :
    allImageUrls (front ++ back) = allImageUrls front ++ allImageUrls back := by
  induction front with
  | nil => rfl
  | cons node rest ih => rw [List.cons_append, allImageUrls, ih, allImageUrls, List.append_assoc]

/-- No statement that a pass puts in front holds an image. -/
theorem allImageUrls_importsFrom (index : Nat) (urls : List String) :
    allImageUrls (ImportList.importsFrom index urls) = [] := by
  induction urls generalizing index with
  | nil => rfl
  | cons url rest ih => exact ih (index + 1)

section
variable (settings : PassSettings) (imports : List String)

/-- Of the leaves a pass replaces exactly the imported images, and what it puts in their place holds
no image. -/
theorem imageUrls_showLeaf (content : Leaf) (others : OtherMembers) :
    imageUrls (settings.showLeaf imports content others)
      = (imageUrls (.leaf content others)).filter fun url => (settings.target? url).isNone := by
  cases content with
  | image url =>
      rw [PassSettings.showLeaf_image]
      cases htarget : settings.target? url with
      | none => simp [imageUrls, htarget]
      | some target => simp [imageUrls, htarget, imageElement, allImageUrls]
  | _ => rfl

mutual

/-- The images that are left of a node, in their order: those that the pass does not import. -/
theorem imageUrls_mapLeaves : ∀ node : Node,
    imageUrls (node.mapLeaves (settings.showLeaf imports))
      = (imageUrls node).filter fun url => (settings.target? url).isNone
  | .leaf content others => imageUrls_showLeaf settings imports content others
  | .branch content others children => by
      rw [Node.mapLeaves, imageUrls, imageUrls, allImageUrls_mapAllLeaves children]

/-- The images that are left of some nodes, in their order. -/
theorem allImageUrls_mapAllLeaves : ∀ nodes : List Node,
    allImageUrls (Node.mapAllLeaves (settings.showLeaf imports) nodes)
      = (allImageUrls nodes).filter fun url => (settings.target? url).isNone
  | [] => rfl
  | node :: rest => by
      rw [Node.mapAllLeaves, allImageUrls, allImageUrls, List.filter_append,
        imageUrls_mapLeaves node, allImageUrls_mapAllLeaves rest]

end

end

/-- The images of a document after a pass are those that the pass does not import. The elements that
it makes are no images, and neither are its statements. -/
theorem allImageUrls_importImages (settings : PassSettings) (root : Root) :
    allImageUrls (importImages settings root).children
      = (allImageUrls root.children).filter fun url => (settings.target? url).isNone := by
  rw [importImages, importNodes_empty]
  rw [allImageUrls_append, ImportList.nodes, allImageUrls_importsFrom, List.nil_append,
    allImageUrls_mapAllLeaves]

/-! ### Documents that a pass does not change -/

/-- A pass leaves a document as it is exactly if it imports none of its images. A second pass is the
case where the first one has left none to import. -/
theorem importImages_eq_self_iff (settings : PassSettings) (root : Root) :
    importImages settings root = root
      ↔ ∀ url ∈ allImageUrls root.children, settings.target? url = none := by
  constructor
  · intro h url hurl
    -- An image that is left after the pass was not imported, and here all of them are left.
    rw [← h, allImageUrls_importImages, List.mem_filter] at hurl
    exact Option.isNone_iff_eq_none.1 hurl.2
  · intro h
    have hnone : settings.imports root.children = [] := by
      rw [PassSettings.imports, (targets_eq_nil_iff settings root.children).2 h, List.eraseDups_nil]
    rw [importImages_eq]
    exact twoPass_eq_self hnone

/-! ### The result -/

/-- A second pass changes nothing if the first one resolved bare addresses or the second one does
not, whatever is known about the source of the document each time. In particular a pass that is
repeated changes nothing. -/
theorem importImages_importImages (first second : PassSettings) (root : Root) :
    (first.options.resolve = true ∨ second.options.resolve = false →
        importImages second (importImages first root) = importImages first root)
      ∧ importImages first (importImages first root) = importImages first root := by
  -- All that a second pass finds are images that the first one left alone.
  have hleft : ∀ url ∈ allImageUrls (importImages first root).children,
      first.target? url = none := by
    intro url hurl
    rw [allImageUrls_importImages, List.mem_filter] at hurl
    exact Option.isNone_iff_eq_none.1 hurl.2
  constructor
  · intro hresolve
    refine (importImages_eq_self_iff second _).2 fun url hurl => ?_
    exact PassSettings.target?_eq_none_of_eq_none hresolve (hleft url hurl)
  · exact (importImages_eq_self_iff first _).2 hleft

/-- A document with a bare, a relative and an absolute image, from another directory the second
time. Bare addresses are resolved neither time, and the pass imports the relative one. -/
theorem importImages_importImages_unresolved :
    let first : PassSettings := { options := { resolve := false } }
    let second : PassSettings :=
      { metadata := .inDirectory "blog", options := { resolve := false } }
    let root : Root :=
      { children := [.group .paragraph
          [.image "a.png" "a", .image "./b.png" "b", .image "/c.png" "c"]] }
    importImages second (importImages first root) = importImages first root
      ∧ allImageUrls (importImages first root).children = ["a.png", "/c.png"] :=
  ⟨(importImages_importImages _ _ _).1 (.inr rfl), by rfl⟩

end ImageImports
