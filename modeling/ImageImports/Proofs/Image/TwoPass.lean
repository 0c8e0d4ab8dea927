import ImageImports.Image.Pass
import ImageImports.Proofs.Json.Lookup
import ImageImports.Proofs.Tree.Traversal

/-!
# `ImageImports.Proofs.Image.TwoPass`: one pass is two plain passes

`importImages` goes through a document once and carries the list of imports along: whether an image
brings a new import or shares an old one depends on all images before it. This file defines the
same thing without any state (`twoPass`). The first pass collects the imported addresses of the
whole document and keeps each at its first occurrence. The second one replaces every image on its
own, by the place of its address in that list, and keeps everything else.

The two passes share with the one pass only what both are told to use: where an image is imported
from (`importTarget?`), the name of an import (`importName`) and the statement that binds the name
(`Node.defaultImport`). The element in the place of an image is written out part by part
(`imageElement`), and its texts are found in the members of the image by a search of its own
(`memberText?`).

Main statements:

* `importNodes_eq`: one pass over some nodes, from any imports so far, replaces by the final list
  and adds the addresses of these nodes to the imports. The list of imports only ever grows at its
  end, so the place of an address is final as soon as it is seen.
* `traverse?_imageVisitor`: the walk by place, which edits a list of children while it goes through
  it, does the same as the recursion of `importNodes`.
* `importImages_eq_twoPass`: both are the two plain passes.
-/

set_option autoImplicit false

namespace ImageImports

open Mdast

/-! ### The two passes -/

namespace PassSettings

/-- The addresses from which the images in some nodes are imported, in document order and with all
repetitions. -/
def targets (settings : PassSettings) (nodes : List Node) : List String :=
  (allImageUrls nodes).filterMap fun url =>
    importTarget? url settings.metadata settings.options

/-- The imported addresses of some nodes, each at its first occurrence. -/
def imports (settings : PassSettings) (nodes : List Node) : List String :=
  (settings.targets nodes).eraseDups

end PassSettings

/-- The text under a key of the other members of an image: the value that is listed under the key,
if it is a text. The members are searched from the front, without the lookup that the pass uses. -/
def memberText? (image : OtherMembers) (key : String) : Option String :=
  match image.entries.lookup key with
  | some (.string text) => some text
  | _ => none

/-- The element `img` inside a line of text that stands for an image with the given other members,
with every part of it written out. Its attributes are `alt`, with the text under that key or without
a value; `src`, with the expression that is the name and a program of one statement that refers to
it; and `title`, where the text under that key says something. It has no children and no other
members. -/
def imageElement (image : OtherMembers) (name : String) : Node :=
  let alt : Attribute :=
    .named { name := "alt", value := (memberText? image "alt").map .literal, others := .empty }
  let reference : Estree.Program :=
    { sourceType := .module
      body := [.expression { name, others := .empty } .empty]
      comments := some []
      others := .empty }
  let src : Attribute :=
    .named
      { name := "src"
        value := some (.expression
          { value := name
            data := some { fragment := some (.program reference), others := .empty }
            others := .empty })
        others := .empty }
  let title : List Attribute :=
    ((memberText? image "title").filter (· ≠ "")).toList.map fun title =>
      .named { name := "title", value := some (.literal title), others := .empty }
  .branch (.element .text (some "img") ([alt, src] ++ title)) .empty []

mutual

/-- The node with every leaf in it replaced. A branch keeps its content, its other members, and the
number and order of its children. -/
def Mdast.Node.mapLeaves (f : Leaf → OtherMembers → Node) : Node → Node
  | .leaf content others => f content others
  | .branch content others children => .branch content others (Node.mapAllLeaves f children)

/-- Some nodes with every leaf in them replaced. -/
def Mdast.Node.mapAllLeaves (f : Leaf → OtherMembers → Node) : List Node → List Node
  | [] => []
  | node :: rest => Node.mapLeaves f node :: Node.mapAllLeaves f rest

end

/-- Replacing the leaves of some nodes is replacing those of each. The recursion is spelled out in
the definition because nodes nest through lists. -/
theorem Mdast.Node.mapAllLeaves_eq_map (f : Leaf → OtherMembers → Node) (nodes : List Node) :
    Node.mapAllLeaves f nodes = nodes.map (Node.mapLeaves f) := by
  induction nodes with
  | nil => rfl
  | cons node rest ih => rw [Node.mapAllLeaves, ih, List.map_cons]

/-- What stands in the place of a leaf, given all imports of the document: for an imported image the
element that shows the import at the place of its address, and otherwise the leaf itself. -/
def PassSettings.showLeaf (settings : PassSettings) (imports : List String) :
    Leaf → OtherMembers → Node
  | .image url, others =>
      match importTarget? url settings.metadata settings.options with
      | some target => imageElement others (importName (imports.idxOf target) target)
      | none => .leaf (.image url) others
  | content, others => .leaf content others

/-- A document after two passes: the import statements of all imported addresses, followed by the
nodes with every image replaced on its own. -/
def twoPass (settings : PassSettings) (root : Root) : Root :=
  let imports := settings.imports root.children
  { children :=
      imports.mapIdx (fun index url => .defaultImport (importName index url) url)
        ++ Node.mapAllLeaves (settings.showLeaf imports) root.children
    others := root.others }

/-- The keys of other members increase, so the search from the front finds the text that the pass
finds, which looks at the last value under the key. -/
theorem memberText?_eq (image : OtherMembers) (key : String) :
    memberText? image key = image.getString? key := by
  unfold memberText?
  rw [Members.Sorted.lookup_eq_last? image.sorted key]
  show _ = (image.entries.last? key).bind Json.string?
  cases image.entries.last? key with
  | none => rfl
  | some value => cases value <;> rfl

/-- The written-out element is made of a literal attribute for `alt`, an attribute for the name, and
a literal attribute for a title that says something. This is the form in which the properties of
made nodes apply to it. -/
theorem imageElement_eq (image : OtherMembers) (name : String) :
    imageElement image name
      = .textElement "img"
          ([.literal "alt" (image.getString? "alt"), .identifier "src" name]
            ++ ((image.getString? "title").filter (· ≠ "")).toList.map fun title =>
              .literal "title" (some title)) [] := by
  unfold imageElement
  rw [memberText?_eq, memberText?_eq]
  rfl

/-- The pass puts the written-out element in the place of an imported image: it asks for a title and
then whether the title is empty, which comes to keeping one that is not. -/
theorem shownElement_eq (image : OtherMembers) (name : String) :
    shownElement image name = imageElement image name := by
  rw [imageElement_eq]
  unfold shownElement
  cases image.getString? "title" with
  | none => rfl
  | some title =>
      by_cases ht : title = ""
      · simp [Option.filter, ht]
      · simp [Option.filter, ht]

namespace PassSettings

/-- The two passes import images from where the one pass imports them from. -/
theorem targets_eq (settings : PassSettings) (nodes : List Node) :
    settings.targets nodes = (allImageUrls nodes).filterMap settings.target? := rfl

/-- Whether an image is shown as an element is decided by where the one pass imports it from. -/
theorem showLeaf_image (settings : PassSettings) (imports : List String) (url : String)
    (others : OtherMembers) :
    settings.showLeaf imports (.image url) others
      = match settings.target? url with
        | some target => imageElement others (importName (imports.idxOf target) target)
        | none => .leaf (.image url) others := rfl

end PassSettings

/-! ### The list of imports -/

namespace ImportList

/-- The imports with some more addresses among them, one after the other. -/
def insertAll (imports : ImportList) (urls : List String) : ImportList :=
  urls.foldl insert imports

/-- Two groups of addresses are put among the imports one after the other. -/
theorem insertAll_append (imports : ImportList) (first second : List String) :
    imports.insertAll (first ++ second) = (imports.insertAll first).insertAll second :=
  List.foldl_append

/-- An address that is put among the imports is among them. -/
theorem mem_urls_insert (imports : ImportList) (url : String) :
    url ∈ (imports.insert url).urls := by
  unfold insert
  split
  · assumption
  · simp

/-- Imports are only ever added at the end. -/
theorem urls_prefix_insert (imports : ImportList) (url : String) :
    imports.urls <+: (imports.insert url).urls := by
  unfold insert
  split
  · exact List.prefix_refl _
  · exact List.prefix_append _ _

/-- The imports so far stay where they are when further addresses come. -/
theorem urls_prefix_insertAll (imports : ImportList) (urls : List String) :
    imports.urls <+: (imports.insertAll urls).urls := by
  induction urls generalizing imports with
  | nil => exact List.prefix_refl _
  | cons url rest ih => exact (imports.urls_prefix_insert url).trans (ih (imports.insert url))

/-- The imports after some more addresses: to the old ones come those of the new ones that are not
among them, each at its first occurrence. -/
theorem urls_insertAll (imports : ImportList) (urls : List String) :
    (imports.insertAll urls).urls
      = imports.urls ++ (urls.filter fun url => decide (url ∉ imports.urls)).eraseDups := by
  -- Over any imports, because every address that is new changes which of the others are.
  induction urls generalizing imports with
  | nil => simp [insertAll]
  | cons url rest ih =>
      show ((imports.insert url).insertAll rest).urls = _
      rw [ih]
      by_cases h : url ∈ imports.urls
      · have hinsert : imports.insert url = imports := if_pos h
        simp [hinsert, h]
      · have hinsert : imports.insert url = ⟨imports.urls ++ [url]⟩ := if_neg h
        have hfilter : (rest.filter fun u => decide (u ∉ imports.urls ++ [url]))
            = (rest.filter fun u => decide (u ∉ imports.urls)).filter fun u => !u == url := by
          rw [List.filter_filter]
          exact List.filter_congr fun u _ => by
            by_cases hu : u = url <;> simp [hu]
        rw [hinsert, List.filter_cons_of_pos (by simpa using h), List.eraseDups_cons, hfilter,
          List.append_assoc]
        rfl

/-- The imports of some addresses, from none on, are these addresses without their repetitions. -/
theorem urls_insertAll_empty (urls : List String) :
    (insertAll {} urls).urls = urls.eraseDups := by
  have hfilter : (urls.filter fun url => decide (url ∉ ({} : ImportList).urls)) = urls :=
    List.filter_eq_self.2 (by simp)
  rw [urls_insertAll, hfilter]
  rfl

/-- The place of an address stays the same however many imports are added. -/
theorem nameOf_eq_of_prefix {imports : ImportList} {url : String} {urls : List String}
    (hmem : url ∈ imports.urls) (h : imports.urls <+: urls) :
    imports.nameOf url = importName (urls.idxOf url) url := by
  obtain ⟨more, rfl⟩ := h
  rw [List.idxOf_append, if_pos hmem]
  rfl

/-- The import statements from a place on, each by the place of its own address. -/
theorem importsFrom_eq_mapIdx (index : Nat) (urls : List String) :
    importsFrom index urls
      = urls.mapIdx fun i url => Node.defaultImport (importName (index + i) url) url := by
  induction urls generalizing index with
  | nil => rfl
  | cons url rest ih =>
      rw [importsFrom, ih, List.mapIdx_cons]
      simp only [Nat.add_zero, Nat.add_assoc, Nat.add_comm 1]

/-- The import statements by the place of their addresses: the two passes need no count that is
carried along. -/
theorem nodes_eq_mapIdx (imports : ImportList) :
    imports.nodes
      = imports.urls.mapIdx fun index url => Node.defaultImport (importName index url) url := by
  unfold nodes
  rw [importsFrom_eq_mapIdx]
  simp only [Nat.zero_add]

end ImportList

/-! ### One pass over some nodes -/

section
variable (settings : PassSettings)

/-- The addresses of some nodes are those of the first node and then those of the others. The
induction over the nodes of a document goes by this. -/
theorem targets_cons (node : Node) (rest : List Node) :
    settings.targets (node :: rest)
      = (imageUrls node).filterMap settings.target? ++ settings.targets rest := by
  rw [PassSettings.targets_eq, PassSettings.targets_eq, allImageUrls, List.filterMap_append]

mutual

/-- One pass over a node. The final list `urls` may be any list that starts with the imports after
this node, so the same statement serves the nodes before and the nodes after it. -/
theorem importNode_eq (urls : List String) : ∀ (node : Node) (imports : ImportList),
    (imports.insertAll ((imageUrls node).filterMap settings.target?)).urls <+: urls →
    importNode settings node imports
      = (node.mapLeaves (settings.showLeaf urls),
        imports.insertAll ((imageUrls node).filterMap settings.target?))
  | .leaf content others, imports, h => by
      cases content with
      | image url =>
          cases ht : settings.target? url with
          | none =>
              simp [importNode, Node.mapLeaves, PassSettings.showLeaf_image, imageUrls, ht,
                ImportList.insertAll]
          | some target =>
              -- The address has its place by now, and the final list only goes on behind it.
              have hprefix : (imports.insert target).urls <+: urls := by
                simpa [imageUrls, ht, ImportList.insertAll] using h
              have hname := ImportList.nameOf_eq_of_prefix (imports.mem_urls_insert target) hprefix
              simp [importNode, Node.mapLeaves, PassSettings.showLeaf_image, imageUrls, ht,
                ImportList.insertAll, hname, shownElement_eq]
      | _ => rfl
  | .branch content others children, imports, h => by
      have hchildren := importNodes_eq urls children imports h
      simp only [importNode, hchildren, Node.mapLeaves]
      rfl

/-- One pass over some nodes, starting with any imports: every node is replaced by the final list,
and the addresses of these nodes come to the imports. -/
theorem importNodes_eq (urls : List String) : ∀ (nodes : List Node) (imports : ImportList),
    (imports.insertAll (settings.targets nodes)).urls <+: urls →
    importNodes settings nodes imports
      = (Node.mapAllLeaves (settings.showLeaf urls) nodes,
        imports.insertAll (settings.targets nodes))
  | [], imports, _ => rfl
  | node :: rest, imports, h => by
      rw [targets_cons, ImportList.insertAll_append] at h ⊢
      -- What the first node adds is a part of what all of them add.
      have hfirst := (ImportList.urls_prefix_insertAll _ (settings.targets rest)).trans h
      have hnode := importNode_eq urls node imports hfirst
      have hrest := importNodes_eq urls rest _ h
      simp only [importNodes, hnode, hrest, Node.mapAllLeaves]

end

/-- One pass over all nodes of a document. -/
theorem importNodes_empty (nodes : List Node) :
    importNodes settings nodes {}
      = (Node.mapAllLeaves (settings.showLeaf (settings.imports nodes)) nodes,
        ⟨settings.imports nodes⟩) := by
  have hurls : (ImportList.insertAll {} (settings.targets nodes)).urls = settings.imports nodes :=
    ImportList.urls_insertAll_empty _
  rw [importNodes_eq settings (settings.imports nodes) nodes {} (hurls ▸ List.prefix_refl _),
    ← hurls]

/-! ### The walk by place -/

/-- The visitor that replaces an image where it stands in its list and carries the imports along. It
is the closure that `rewrite_images` gives to `visit_mut`. -/
def imageVisitor : Tree.Visitor ImportList where
  test := Node.isImage
  visit imports nodes index :=
    match nodes[index]? with
    | some (.leaf (.image url) others) =>
        match settings.target? url with
        | some target =>
            let imports := imports.insert target
            (imports, nodes.set index (shownElement others (imports.nameOf target)))
        | none => (imports, nodes)
    | _ => (imports, nodes)

/-- One visit: the node at the place is what `importNode` makes of it, if it is a leaf, and is left
alone if it is a branch. -/
theorem visitAt_imageVisitor_leaf (imports : ImportList) (before rest : List Node)
    (content : Leaf) (others : OtherMembers) :
    (imageVisitor settings).visitAt imports (before ++ .leaf content others :: rest) before.length
      = ((importNode settings (.leaf content others) imports).2,
        before ++ (importNode settings (.leaf content others) imports).1 :: rest) := by
  have hget : (before ++ Node.leaf content others :: rest)[before.length]?
      = some (.leaf content others) := by simp
  unfold Tree.Visitor.visitAt
  rw [hget]
  cases content with
  | image url =>
      show (imageVisitor settings).visit imports _ _ = _
      unfold imageVisitor
      simp only [hget, importNode]
      cases settings.target? url with
      | none => rfl
      | some target => simp
  | _ => rfl

/-- A branch is no image, so a visit leaves it alone and the walk goes into its children. -/
theorem visitAt_imageVisitor_branch (imports : ImportList) (before rest : List Node)
    (content : Branch) (others : OtherMembers) (children : List Node) :
    (imageVisitor settings).visitAt imports
        (before ++ .branch content others children :: rest) before.length
      = (imports, before ++ .branch content others children :: rest) := by
  unfold Tree.Visitor.visitAt
  have hget : (before ++ Node.branch content others children :: rest)[before.length]?
      = some (.branch content others children) := by simp
  rw [hget]
  rfl

/-- What a leaf becomes is a leaf or an element without children. -/
theorem importNode_leaf_cases (imports : ImportList) (content : Leaf) (others : OtherMembers) :
    (∃ leaf members, (importNode settings (.leaf content others) imports).1 = .leaf leaf members)
      ∨ ∃ branch members,
        (importNode settings (.leaf content others) imports).1 = .branch branch members [] := by
  cases content with
  | image url =>
      simp only [importNode]
      cases settings.target? url with
      | none => exact .inl ⟨_, _, rfl⟩
      | some target => exact .inr ⟨_, _, rfl⟩
  | _ => exact .inl ⟨_, _, rfl⟩

/-- The walk over what is left of a list, with one step for every node that is left and one for
its end, does what `importNodes` does. The nodes before the place are those already walked. -/
theorem traverse?_imageVisitor : ∀ (steps : Nat) (imports : ImportList) (before nodes : List Node),
    Tree.sizeAll nodes < steps →
    (imageVisitor settings).traverse? steps imports (before ++ nodes) before.length
      = some ((importNodes settings nodes imports).2,
        before ++ (importNodes settings nodes imports).1)
  | 0, _, _, _, h => absurd h (Nat.not_lt_zero _)
  | steps + 1, imports, before, [], _ => by
      rw [List.append_nil, Tree.Visitor.traverse?_nil, importNodes, List.append_nil]
  | steps + 1, imports, before, .leaf content others :: rest, h => by
      have hrest : Tree.sizeAll rest < steps := by
        simp only [Tree.sizeAll, Tree.size] at h
        omega
      have hvisit := visitAt_imageVisitor_leaf settings imports before rest content others
      have hcases := importNode_leaf_cases settings imports content others
      simp only [importNodes]
      generalize importNode settings (.leaf content others) imports = out at hvisit hcases ⊢
      obtain ⟨node, after⟩ := out
      have hnext := traverse?_imageVisitor steps after (before ++ [node]) rest hrest
      rcases hcases with ⟨leaf, members, rfl⟩ | ⟨branch, members, rfl⟩
      · rw [Tree.Visitor.traverse?_leaf hvisit]
        simpa using hnext
      · -- The new element has no children, so the walk below it ends at once.
        obtain ⟨fewer, rfl⟩ : ∃ fewer, steps = fewer + 1 := ⟨steps - 1, by omega⟩
        have hempty := Tree.Visitor.traverse?_nil (imageVisitor settings) fewer after []
        rw [Tree.Visitor.traverse?_branch hvisit hempty]
        simpa using hnext
  | steps + 1, imports, before, .branch content others children :: rest, h => by
      have hsizes : Tree.sizeAll children < steps ∧ Tree.sizeAll rest < steps := by
        simp only [Tree.sizeAll, Tree.size] at h
        omega
      have hvisit :=
        visitAt_imageVisitor_branch settings imports before rest content others children
      -- What the children bring is handed on to the nodes behind the branch.
      have hchildren := traverse?_imageVisitor steps imports [] children hsizes.1
      simp only [List.nil_append, List.length_nil] at hchildren
      have hnext := traverse?_imageVisitor steps (importNodes settings children imports).2
        (before ++ [.branch content others (importNodes settings children imports).1]) rest hsizes.2
      rw [Tree.Visitor.traverse?_branch hvisit hchildren, hnext]
      simp only [importNodes, importNode, List.append_assoc, List.singleton_append]

end

/-! ### The result -/

/-- A pass over a document is two plain passes. Other properties of the pass are read off this
form. -/
theorem importImages_eq (settings : PassSettings) (root : Root) :
    importImages settings root = twoPass settings root := by
  simp only [importImages, twoPass, importNodes_empty, ImportList.nodes_eq_mapIdx]

/-- A pass depends on its settings only through where images are imported from. -/
theorem importImages_congr {settings other : PassSettings}
    (h : ∀ url, settings.target? url = other.target? url) (root : Root) :
    importImages settings root = importImages other root := by
  have htarget : settings.target? = other.target? := funext h
  have hshow : settings.showLeaf = other.showLeaf := by
    funext imports leaf others
    cases leaf with
    | image url => rw [PassSettings.showLeaf_image, PassSettings.showLeaf_image, h]
    | _ => rfl
  rw [importImages_eq, importImages_eq]
  simp only [twoPass, PassSettings.imports, PassSettings.targets_eq, htarget, hshow]

/-- A pass over a document is two plain passes: the import statements of all imported addresses, in
the order in which these were first seen, and behind them the nodes with every image replaced on its
own. The walk by place, given a step for every node and any number more, comes to the same
document. -/
theorem importImages_eq_twoPass (settings : PassSettings) (root : Root) (more : Nat) :
    importImages settings root = twoPass settings root
      ∧ ((imageVisitor settings).traverse? (Tree.sizeAll root.children + 1 + more) {}
            root.children 0).map
          (fun (imports, children) => { root with children := imports.nodes ++ children })
        = some (twoPass settings root) := by
  refine ⟨importImages_eq settings root, ?_⟩
  have hwalk := traverse?_imageVisitor settings (Tree.sizeAll root.children + 1 + more) {} []
    root.children (by omega)
  simp only [List.nil_append, List.length_nil] at hwalk
  rw [hwalk, ← importImages_eq]
  rfl

end ImageImports
