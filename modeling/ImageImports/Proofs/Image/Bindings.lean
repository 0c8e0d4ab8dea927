import Mathlib.Data.List.Nodup
import ImageImports.Proofs.Image.Name
import ImageImports.Proofs.Image.TwoPass
import ImageImports.Proofs.Tree.Path

/-!
# `ImageImports.Proofs.Image.Bindings`: what the names of a pass are bound to

After a pass the front of a document declares names and the elements behind it refer to them. The
two meet only in the text of a name: an element that refers to a name of another import shows
another picture. `Binds` says that they meet as they should, and that the elements which refer to
names are all that is new: every place that is not the place of an imported image holds what it held
before, and there are no other places. `importImages_binds` says so of every document.

Two facts carry the proof. The index of a name can be read back from its text, so names of different
imports differ. And an address takes the place in the list of imports where it was first seen, so
the name that an element refers to is the one that the statement at that place declares.
-/

set_option autoImplicit false

namespace ImageImports

/-! ### Reading names off a tree -/

namespace Estree

/-- The typed program of an embedding. -/
def Embedding.program? (embedding : Embedding) : Option Program :=
  match embedding.fragment with
  | some (.program program) => some program
  | _ => none

/-- The name that a program refers to, for a program that is nothing but a reference. -/
def Program.reference? (program : Program) : Option String :=
  match program.body with
  | [.expression identifier _] => some identifier.name
  | _ => none

end Estree

namespace Mdast

/-- The names that a node binds by default imports, each with the source it is bound to. They are
read off the program of the node, not off its text. -/
def Node.defaultImports (node : Node) : List (String × String) :=
  match node.data? with
  | some (some embedding) => (embedding.program?.map Estree.Program.defaultImports).getD []
  | _ => []

/-- The expression that an element has as the value of a named attribute. -/
def Node.expression? (node : Node) (name : String) : Option EmbeddedExpression :=
  match node with
  | .branch (.element _ _ attributes) _ _ =>
      attributes.findSome? fun
        | .named { name := found, value := some (.expression e), .. } =>
            if found = name then some e else none
        | _ => none
  | _ => none

/-- The name that the program of an expression refers to. -/
def EmbeddedExpression.reference? (expression : EmbeddedExpression) : Option String :=
  expression.data >>= Estree.Embedding.program? >>= Estree.Program.reference?

/-- That a node is an element `img` whose source refers to a name, in the text of the expression and
in its program alike. An element whose two forms disagreed would show one image to a reader of the
text and another one to a compiler. -/
def Node.ShowsImport (node : Node) (name : String) : Prop :=
  (∃ attributes, node = .branch (.element .text (some "img") attributes) .empty [])
    ∧ ∃ e, node.expression? "src" = some e ∧ e.value = name ∧ e.reference? = some name

end Mdast

open Mdast ImageImports.Tree

/-- That some statements in front of some nodes bind what these nodes refer to. The nodes `shown`
stand where those of `nodes` stood, and `pairs` are the names that the statements bind, each with
its source. Every element that is new is accounted for: the places are the same, the node at each of
them is a branch, an imported image or another leaf, and only imported images give way to an element
(`bound`), while branches and other leaves stay (`branches`, `kept`). -/
structure Binds (settings : PassSettings) (nodes front shown : List Node)
    (pairs : List (String × String)) : Prop where
  /-- Every statement binds one name. -/
  declares : front.map Node.defaultImports = pairs.map fun pair => [pair]
  /-- No name is bound twice. -/
  names_nodup : (pairs.map Prod.fst).Nodup
  /-- No source is imported twice. -/
  sources_nodup : (pairs.map Prod.snd).Nodup
  /-- In the place of an imported image stands an element that refers to a bound name, and the
  source behind that name is the address of the image. -/
  bound : ∀ path url others target,
    nodeAt path nodes = .ok (.leaf (.image url) others) →
      importTarget? url settings.metadata settings.options = some target →
      ∃ element name, nodeAt path shown = .ok element ∧ element.ShowsImport name
        ∧ (name, target) ∈ pairs ∧ ∀ pair ∈ pairs, pair.1 = name → pair = (name, target)
  /-- An image that is not imported stays in its place, and so does every other leaf. -/
  kept : ∀ path content others,
    nodeAt path nodes = .ok (.leaf content others) →
      (∀ url, content = .image url →
        importTarget? url settings.metadata settings.options = none) →
        nodeAt path shown = .ok (.leaf content others)
  /-- A branch stays in its place, with its content, its other members and as many children as
  before. -/
  branches : ∀ path content others children,
    nodeAt path nodes = .ok (.branch content others children) →
      ∃ below, nodeAt path shown = .ok (.branch content others below)
        ∧ below.length = children.length
  /-- A node stands only where one stood before. -/
  places : ∀ path node, nodeAt path shown = .ok node → ∃ old, nodeAt path nodes = .ok old
  /-- Every bound name is referred to in the place of an image with the address it is bound to. -/
  used : ∀ pair ∈ pairs, ∃ path url others element,
    nodeAt path nodes = .ok (.leaf (.image url) others)
      ∧ importTarget? url settings.metadata settings.options = some pair.2
      ∧ nodeAt path shown = .ok element ∧ element.ShowsImport pair.1

/-! ### Nodes by their place -/

/-- Replacing leaves keeps the place of every node in its list. -/
theorem getElem?_mapAllLeaves (f : Leaf → OtherMembers → Node) (nodes : List Node) (index : Nat) :
    (Node.mapAllLeaves f nodes)[index]? = nodes[index]?.map (Node.mapLeaves f) := by
  rw [Node.mapAllLeaves_eq_map, List.getElem?_map]

/-- Replacing leaves keeps the number of nodes. -/
theorem length_mapAllLeaves (f : Leaf → OtherMembers → Node) (nodes : List Node) :
    (Node.mapAllLeaves f nodes).length = nodes.length := by
  rw [Node.mapAllLeaves_eq_map, List.length_map]

/-- Replacing leaves keeps the place of every node: the path to it leads to what it has become. -/
theorem nodeAt_mapAllLeaves (f : Leaf → OtherMembers → Node) :
    ∀ {path : List Nat} {nodes : List Node} {node : Node}, nodeAt path nodes = .ok node →
      nodeAt path (Node.mapAllLeaves f nodes) = .ok (node.mapLeaves f)
  | [], _, _, h => by simp [nodeAt] at h
  | index :: rest, nodes, node, h => by
      rcases nodeAt_cons h with ⟨hget, rfl⟩ | ⟨content, others, children, hget, hrest⟩
      · exact nodeAt_singleton (by rw [getElem?_mapAllLeaves, hget]; rfl)
      · exact nodeAt_below (by rw [getElem?_mapAllLeaves, hget]; rfl) (nodeAt_mapAllLeaves f hrest)

/-- Where a leaf gives way to a leaf or to a branch without children, no place is new: a path that
leads on below a node in the new list leads on below it in the old one, too. -/
theorem exists_nodeAt_of_mapAllLeaves {f : Leaf → OtherMembers → Node}
    (hf : ∀ content others, (f content others).children?.getD [] = []) :
    ∀ {path : List Nat} {nodes : List Node} {node : Node},
      nodeAt path (Node.mapAllLeaves f nodes) = .ok node → ∃ old, nodeAt path nodes = .ok old
  | [], _, _, h => by simp [nodeAt] at h
  | index :: rest, nodes, node, h => by
      rcases nodeAt_cons h with ⟨hget, rfl⟩ | ⟨content, others, children, hget, hrest⟩
      · rw [getElem?_mapAllLeaves] at hget
        obtain ⟨old, hold, -⟩ := Option.map_eq_some_iff.1 hget
        exact ⟨old, nodeAt_singleton hold⟩
      · rw [getElem?_mapAllLeaves] at hget
        obtain ⟨old, hold, hmapped⟩ := Option.map_eq_some_iff.1 hget
        cases old with
        | leaf leaf members =>
            -- What replaces a leaf has nothing below it for the path to lead to.
            have hnone := hf leaf members
            rw [show f leaf members = _ from hmapped] at hnone
            obtain rfl : children = [] := hnone
            exact absurd hrest (nodeAt_nil rest node)
        | branch content' members below =>
            obtain ⟨-, -, rfl⟩ := Node.branch.inj hmapped
            obtain ⟨deeper, hdeeper⟩ := exists_nodeAt_of_mapAllLeaves hf hrest
            exact ⟨deeper, nodeAt_below hold hdeeper⟩

/-- Nodes of which no leaf is replaced by another node stay as they are. Leaves are told by the
paths to them, so what is known of the places of a document can be used for each. -/
theorem Mdast.Node.mapAllLeaves_eq_self {f : Leaf → OtherMembers → Node} : ∀ nodes : List Node,
    (∀ path content others, nodeAt path nodes = .ok (.leaf content others) →
      f content others = .leaf content others) →
    Node.mapAllLeaves f nodes = nodes
  | [], _ => rfl
  | node :: rest, h => by
      have hrest := Node.mapAllLeaves_eq_self rest fun path content others hpath => by
        obtain ⟨path, hpath⟩ := nodeAt_cons_nodes node hpath
        exact h path content others hpath
      have hnode : node.mapLeaves f = node := by
        cases node with
        | leaf content others => exact h [0] content others (nodeAt_singleton rfl)
        | branch content others children =>
            have hchildren := Node.mapAllLeaves_eq_self children fun path leaf members hpath =>
              h (0 :: path) leaf members (nodeAt_below rfl hpath)
            rw [Node.mapLeaves, hchildren]
      rw [Node.mapAllLeaves, hnode, hrest]

/-- Every address of an image in some nodes is that of an image at some path. -/
theorem exists_nodeAt_of_mem_allImageUrls {url : String} :
    ∀ nodes : List Node, url ∈ allImageUrls nodes →
      ∃ path others, nodeAt path nodes = .ok (.leaf (.image url) others)
  | [], h => by simp [allImageUrls] at h
  | .leaf content others :: rest, h => by
      rcases List.mem_append.1 h with h | h
      · -- Of all leaves only an image has an address.
        cases content with
        | image found =>
            have heq : url = found := by simpa [imageUrls] using h
            exact ⟨[0], others, nodeAt_singleton (by simp [heq])⟩
        | _ => simp [imageUrls] at h
      · obtain ⟨path, members, hpath⟩ := exists_nodeAt_of_mem_allImageUrls rest h
        obtain ⟨path, hpath⟩ := nodeAt_cons_nodes (.leaf content others) hpath
        exact ⟨path, members, hpath⟩
  | .branch content others children :: rest, h => by
      rcases List.mem_append.1 h with h | h
      · obtain ⟨path, members, hpath⟩ := exists_nodeAt_of_mem_allImageUrls children h
        exact ⟨0 :: path, members, nodeAt_below rfl hpath⟩
      · obtain ⟨path, members, hpath⟩ := exists_nodeAt_of_mem_allImageUrls rest h
        obtain ⟨path, hpath⟩ := nodeAt_cons_nodes (.branch content others children) hpath
        exact ⟨path, members, hpath⟩

/-- The images of a node are images of every list that holds it. -/
theorem mem_allImageUrls_of_mem {url : String} {node : Node} {nodes : List Node}
    (hmem : node ∈ nodes) (h : url ∈ imageUrls node) : url ∈ allImageUrls nodes := by
  induction nodes with
  | nil => simp at hmem
  | cons first rest ih =>
      rw [allImageUrls, List.mem_append]
      rcases List.mem_cons.1 hmem with rfl | hmem
      · exact .inl h
      · exact .inr (ih hmem)

/-- The address of an image at some path is among the addresses of all images. -/
theorem mem_allImageUrls_of_nodeAt {url : String} {others : OtherMembers} :
    ∀ {path : List Nat} {nodes : List Node},
      nodeAt path nodes = .ok (.leaf (.image url) others) → url ∈ allImageUrls nodes
  | [], _, h => by simp [nodeAt] at h
  | index :: rest, nodes, h => by
      rcases nodeAt_cons h with ⟨hget, -⟩ | ⟨content, members, children, hget, hrest⟩
      · exact mem_allImageUrls_of_mem (List.mem_of_getElem? hget) (by simp [imageUrls])
      · exact mem_allImageUrls_of_mem (List.mem_of_getElem? hget)
          (mem_allImageUrls_of_nodeAt hrest)

/-! ### The list of imports, once more -/

namespace ImportList

/-- Putting an address among the imports repeats none, because one that is there is not put there
again. -/
theorem nodup_insert {imports : ImportList} (h : imports.urls.Nodup) (url : String) :
    (imports.insert url).urls.Nodup := by
  unfold insert
  split
  · exact h
  · rename_i hmem
    refine List.nodup_append.2 ⟨h, by simp, fun a ha b hb hab => hmem ?_⟩
    rw [← List.mem_singleton.1 hb, ← hab]
    exact ha

/-- Putting some addresses among the imports repeats none. -/
theorem nodup_insertAll {imports : ImportList} (h : imports.urls.Nodup) (urls : List String) :
    (imports.insertAll urls).urls.Nodup := by
  induction urls generalizing imports with
  | nil => exact h
  | cons url rest ih => exact ih (nodup_insert h url)

end ImportList

namespace PassSettings

/-- No address is imported twice. -/
theorem nodup_imports (settings : PassSettings) (nodes : List Node) :
    (settings.imports nodes).Nodup := by
  have h := @ImportList.nodup_insertAll {} List.nodup_nil (settings.targets nodes)
  rwa [ImportList.urls_insertAll_empty] at h

/-- The imported addresses are exactly those of the imported images. So there is neither a statement
without an image nor an image without a statement. -/
theorem mem_imports_iff (settings : PassSettings) (nodes : List Node) (target : String) :
    target ∈ settings.imports nodes
      ↔ ∃ path url others, nodeAt path nodes = .ok (.leaf (.image url) others)
          ∧ settings.target? url = some target := by
  rw [imports, targets_eq, List.mem_eraseDups, List.mem_filterMap]
  constructor
  · rintro ⟨url, hurl, htarget⟩
    obtain ⟨path, others, hpath⟩ := exists_nodeAt_of_mem_allImageUrls nodes hurl
    exact ⟨path, url, others, hpath, htarget⟩
  · rintro ⟨path, url, others, hpath, htarget⟩
    exact ⟨url, mem_allImageUrls_of_nodeAt hpath, htarget⟩

/-- The names that a pass binds, each with its source, in the order of the imports. -/
def pairs (settings : PassSettings) (nodes : List Node) : List (String × String) :=
  (settings.imports nodes).mapIdx fun index url => (importName index url, url)

/-- A name is bound to a source exactly if the source is imported and the name is that of its
place. -/
theorem mem_pairs_iff (settings : PassSettings) (nodes : List Node) (pair : String × String) :
    pair ∈ settings.pairs nodes
      ↔ pair.2 ∈ settings.imports nodes
          ∧ pair.1 = importName ((settings.imports nodes).idxOf pair.2) pair.2 := by
  unfold pairs
  rw [List.mem_mapIdx]
  -- No address occurs twice, so the index of a pair is the place of its address.
  constructor
  · rintro ⟨index, hindex, rfl⟩
    refine ⟨List.getElem_mem _, ?_⟩
    rw [(settings.nodup_imports nodes).idxOf_getElem]
  · rintro ⟨hmem, hname⟩
    refine ⟨(settings.imports nodes).idxOf pair.2, List.idxOf_lt_length_of_mem hmem, ?_⟩
    rw [List.getElem_idxOf, ← hname]

/-- The sources of the bound names are the imports, in their order. -/
theorem map_snd_pairs (settings : PassSettings) (nodes : List Node) :
    (settings.pairs nodes).map Prod.snd = settings.imports nodes :=
  List.ext_getElem (by simp [pairs]) fun index _ _ => by simp [pairs]

/-- The indexes of the bound names count up from zero. As an index can be read back from a name, no
two of them are the same. -/
theorem map_nameIndex_pairs (settings : PassSettings) (nodes : List Node) :
    ((settings.pairs nodes).map Prod.fst).map nameIndex
      = List.range (settings.imports nodes).length :=
  List.ext_getElem (by simp [pairs]) fun index _ _ => by simp [pairs, nameIndex_importName]

end PassSettings

/-! ### Statements and elements -/

/-- The block of an import statement binds the one name that it is made for. -/
theorem defaultImports_defaultImport (name source : String) :
    (Node.defaultImport name source).defaultImports = [(name, source)] := rfl

/-- The statements of some imports bind exactly their pairs, one each. -/
theorem map_defaultImports (urls : List String) :
    (urls.mapIdx fun index url => Node.defaultImport (importName index url) url).map
        Node.defaultImports
      = (urls.mapIdx fun index url => (importName index url, url)).map fun pair => [pair] :=
  List.ext_getElem (by simp) fun index _ _ => by simp [defaultImports_defaultImport]

/-- The element for an image refers to the name that it is made for, in both forms. -/
theorem showsImport_imageElement (image : OtherMembers) (name : String) :
    (imageElement image name).ShowsImport name := by
  rw [imageElement_eq]
  refine ⟨⟨_, rfl⟩,
    { value := name, data := some (.ofProgram (.reference name)), others := .empty }, ?_, rfl, rfl⟩
  simp [Node.textElement, Node.expression?, Attribute.literal, Attribute.identifier]

/-- The element in the place of an imported image refers to the name of its address. -/
theorem showLeaf_imported {settings : PassSettings} {url target : String}
    (h : settings.target? url = some target) (imports : List String) (others : OtherMembers) :
    settings.showLeaf imports (.image url) others
      = imageElement others (importName (imports.idxOf target) target) := by
  rw [PassSettings.showLeaf_image, h]

/-- A leaf that is no imported image stands for itself. -/
theorem showLeaf_eq_self {settings : PassSettings} {content : Leaf}
    (h : ∀ url, content = .image url → settings.target? url = none) (imports : List String)
    (others : OtherMembers) :
    settings.showLeaf imports content others = .leaf content others := by
  cases content with
  | image url => rw [PassSettings.showLeaf_image, h url rfl]
  | _ => rfl

/-- In the place of a leaf stands a leaf or an element without children. -/
theorem children_showLeaf (settings : PassSettings) (imports : List String) (content : Leaf)
    (others : OtherMembers) :
    (settings.showLeaf imports content others).children?.getD [] = [] := by
  cases content with
  | image url =>
      rw [PassSettings.showLeaf_image]
      cases settings.target? url with
      | none => rfl
      | some target => rfl
  | _ => rfl

/-! ### Documents without imported images -/

/-- No address is imported exactly if every image is left alone. -/
theorem targets_eq_nil_iff (settings : PassSettings) (nodes : List Node) :
    settings.targets nodes = [] ↔ ∀ url ∈ allImageUrls nodes, settings.target? url = none := by
  simp [PassSettings.targets_eq, List.filterMap_eq_nil_iff]

/-- A pass that imports nothing changes nothing. -/
theorem twoPass_eq_self {settings : PassSettings} {root : Root}
    (h : settings.imports root.children = []) : twoPass settings root = root := by
  have hshown : Node.mapAllLeaves (settings.showLeaf []) root.children = root.children := by
    refine Node.mapAllLeaves_eq_self root.children fun path content others hpath => ?_
    refine showLeaf_eq_self (fun url hurl => ?_) [] others
    rw [hurl] at hpath
    -- An image with a target would have it among the imports.
    by_contra hne
    obtain ⟨target, htarget⟩ := Option.ne_none_iff_exists'.1 hne
    have hmem := (settings.mem_imports_iff root.children target).2
      ⟨path, url, others, hpath, htarget⟩
    rw [h] at hmem
    cases hmem
  simp only [twoPass, h, hshown, List.mapIdx_nil, List.nil_append]

/-! ### The result -/

/-- The statements and elements of two passes bind what they should. Each field is shown for the two
passes, where every node is replaced on its own, and holds for the one pass because it does the
same. -/
theorem twoPass_binds (settings : PassSettings) (nodes : List Node) :
    Binds settings nodes
      ((settings.imports nodes).mapIdx fun index url =>
        Node.defaultImport (importName index url) url)
      (Node.mapAllLeaves (settings.showLeaf (settings.imports nodes)) nodes)
      (settings.pairs nodes) where
  declares := map_defaultImports _
  names_nodup := by
    -- Equal names would have equal indexes, and these count up.
    have h := List.nodup_range (n := (settings.imports nodes).length)
    rw [← settings.map_nameIndex_pairs nodes] at h
    exact List.Nodup.of_map _ h
  sources_nodup := by
    rw [settings.map_snd_pairs]
    exact settings.nodup_imports nodes
  bound path url others target hpath htarget := by
    -- The image's own place shows the element, and the pair it refers to is that of its target.
    have hmem : target ∈ settings.imports nodes :=
      (settings.mem_imports_iff nodes target).2 ⟨path, url, others, hpath, htarget⟩
    have hshown := nodeAt_mapAllLeaves (settings.showLeaf (settings.imports nodes)) hpath
    rw [Node.mapLeaves, showLeaf_imported htarget] at hshown
    refine ⟨_, _, hshown, showsImport_imageElement _ _,
      (settings.mem_pairs_iff nodes _).2 ⟨hmem, rfl⟩, ?_⟩
    rintro ⟨name, source⟩ hpair hname
    obtain ⟨hsource, hsourceName⟩ := (settings.mem_pairs_iff nodes _).1 hpair
    -- The two names are one, so their indexes are, and so are the addresses at that index.
    have hindex := congrArg nameIndex (hsourceName.symm.trans hname)
    rw [nameIndex_importName, nameIndex_importName] at hindex
    have heq : source = target := (List.idxOf_inj hsource).1 hindex
    rw [← hname, heq]
  kept path content others hpath hcontent := by
    have hshown := nodeAt_mapAllLeaves (settings.showLeaf (settings.imports nodes)) hpath
    rwa [Node.mapLeaves, showLeaf_eq_self hcontent] at hshown
  branches path content others children hpath :=
    ⟨_, nodeAt_mapAllLeaves _ hpath, length_mapAllLeaves _ children⟩
  places path node hpath := exists_nodeAt_of_mapAllLeaves (children_showLeaf settings _) hpath
  used := by
    -- A target is collected because some image has it, and that image becomes an element.
    rintro ⟨name, source⟩ hpair
    obtain ⟨hsource, hname⟩ := (settings.mem_pairs_iff nodes _).1 hpair
    obtain ⟨path, url, others, hpath, htarget⟩ := (settings.mem_imports_iff nodes _).1 hsource
    have hshown := nodeAt_mapAllLeaves (settings.showLeaf (settings.imports nodes)) hpath
    rw [Node.mapLeaves, showLeaf_imported htarget] at hshown
    refine ⟨path, url, others, _, hpath, htarget, hshown, ?_⟩
    rw [hname]
    exact showsImport_imageElement _ _

/-- What a pass puts in front of a document binds what the elements in it refer to. As many nodes
stand behind the statements as there were before, place by place what stood there or the element for
an imported image, and the document stays as it was if there are no statements. -/
theorem importImages_binds (settings : PassSettings) (root : Root) :
    ∃ front shown pairs,
      (importImages settings root).children = front ++ shown
        ∧ shown.length = root.children.length
        ∧ Binds settings root.children front shown pairs
        ∧ (front = [] → importImages settings root = root) := by
  have hpass := importImages_eq settings root
  -- The front and the nodes behind it are those of the two passes.
  refine ⟨_, _, settings.pairs root.children, by rw [hpass]; rfl, length_mapAllLeaves _ _,
    twoPass_binds settings root.children, fun hfront => ?_⟩
  rw [hpass]
  exact twoPass_eq_self (List.mapIdx_eq_nil_iff.1 hfront)

end ImageImports
