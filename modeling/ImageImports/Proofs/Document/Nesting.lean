import ImageImports.Proofs.Document.Grammar
import ImageImports.Proofs.Document.Rereading
import ImageImports.Proofs.Image.Nesting
import ImageImports.Proofs.Image.WellFormed
import ImageImports.Proofs.Json.Spelling
import ImageImports.Proofs.Mdast.Reread

/-!
# `ImageImports.Proofs.Document.Nesting`: which documents are read back after the pass

The reader of JSON texts keeps to `Json.maxDepth` arrays and objects inside one another, and the
writer does not. So where the pass puts more of them inside one another than were read, the text
that is written can be refused.

That is the only reason to refuse it. Whatever the pass makes of a document that was read consists
of acceptable nodes (`acceptable_shown`), and these stay acceptable through the text. Therefore the
text is accepted exactly if what is written fits the depth of the reader
(`parse_print_importImages`), and that depends on how deep in the document its imported images and
its elements lie.

Main statement: `parse_print_importImages_iff`.
-/

set_option autoImplicit false

namespace ImageImports

open Json Mdast Members ImageImports.Tree

/-! ### What the pass makes is acceptable -/

section
variable (settings : PassSettings) (imports : List String)

/-- A written node that is read is acceptable. This is how the acceptability of what a pass makes is
shown: by the node that it is read as. -/
theorem acceptable_of_written {node read : Node}
    (h : Node.ofJson? node.toJson.normalize = some read) : Acceptable node.toJson.normalize :=
  (Node.decodes_of_ofJson? _ (normalize_normalize _) read h).1

/-- What a pass makes of a node that was read is acceptable once it is written. An element that it
shows is read back as itself, and other leaves as they were restored. -/
theorem acceptable_shown {node : Node} (h : node.AsRead) :
    Acceptable (node.mapLeaves (settings.showLeaf imports)).toJson.normalize := by
  induction h with
  | @leaf content others hcontent hothers hunknown =>
      have hkept : Acceptable (Node.leaf content others).toJson.normalize :=
        acceptable_of_written (Node.ofJson?_toJson_restored (.leaf hcontent hothers hunknown))
      rw [Node.mapLeaves]
      cases content with
      | image url =>
          rw [PassSettings.showLeaf_image]
          cases settings.target? url with
          | none => exact hkept
          | some target =>
              exact acceptable_of_written (Node.ofJson?_toJson (imageElement_wellFormed others _))
      | _ => exact hkept
  | @branch content others children hcontent hothers hunknown hchildren ih =>
      -- Any type with acceptable children makes an acceptable node.
      rw [Node.mapLeaves, Node.mapAllLeaves_eq_map]
      obtain ⟨members, heq, htype, hold⟩ :=
        Node.branch_written hothers (children.map (Node.mapLeaves (settings.showLeaf imports)))
      have hlisted := hold.lookup "children" content.children_mem_fieldNames
      rw [last?_append] at hlisted
      rw [heq]
      refine .unknown ⟨htype, .inr ⟨_, rfl, hlisted⟩⟩ fun item hitem => ?_
      rw [Option.getD_some, normalizeItems_eq_map, Node.allToJson_eq_map] at hitem
      obtain ⟨_, hwritten, rfl⟩ := List.mem_map.1 hitem
      obtain ⟨_, hnode, rfl⟩ := List.mem_map.1 hwritten
      obtain ⟨child, hchild, rfl⟩ := List.mem_map.1 hnode
      exact ih child hchild

end

namespace Document

variable (settings : PassSettings) {root : Root}

/-- The nodes of a document after the pass: the import statements, and what the pass makes of the
old ones. Each old node can be looked at alone, as the imports are known from the document as a
whole. -/
theorem mem_children_importImages {node : Node}
    (h : node ∈ (importImages settings root).children) :
    (∃ binding source, node = .defaultImport binding source)
      ∨ ∃ old ∈ root.children,
          node = old.mapLeaves (settings.showLeaf (settings.imports root.children)) := by
  rw [importImages_eq, twoPass, Node.mapAllLeaves_eq_map] at h
  rcases List.mem_append.1 h with himport | hshown
  · obtain ⟨index, hindex, rfl⟩ := List.mem_mapIdx.1 himport
    exact .inl ⟨_, _, rfl⟩
  · obtain ⟨old, hold, rfl⟩ := List.mem_map.1 hshown
    exact .inr ⟨old, hold, rfl⟩

/-- The value that is read from the text of a document after the pass is a document. -/
theorem exists_ofJson_importImages (hchildren : ∀ node ∈ root.children, node.AsRead)
    (hothers : root.others.Avoids ["children"]) :
    ∃ again, ofJson (importImages settings root).toJson.normalize.reread = .ok again := by
  have hothers' : (importImages settings root).others.Avoids ["children"] := by
    rwa [importImages_eq]
  obtain ⟨members, heq, htype, hold⟩ := holds_tagged hothers' (by decide) "root"
    [("children", .array (Node.allToJson (importImages settings root).children))] (by simp)
  have hwritten : (importImages settings root).toJson.normalize = .object members := heq
  have hnormal : (importImages settings root).toJson.normalize.reread.normalize
      = (importImages settings root).toJson.normalize.reread := by
    rw [normalize_reread, normalize_normalize]
  rw [hwritten, reread, rereadMembers_eq_mapValues] at hnormal ⊢
  -- The tag comes from the pass itself, and the list of nodes too, so neither is taken from
  -- `others`.
  have hroot : ∀ kind, NamesItself (.object (members.mapValues reread)) kind → kind = "root" := by
    rintro kind ⟨_, ⟨⟩, hkind⟩
    rw [last?_reread_string htype] at hkind
    exact (Json.string.inj (Option.some.inj hkind)).symm
  have hdocument : IsDocument (.object (members.mapValues reread)) := by
    refine ⟨_, _, rfl, last?_reread_array (hold.lookup "children" (.head _)), fun item hitem => ?_⟩
    rw [normalizeItems_eq_map, Node.allToJson_eq_map] at hitem
    obtain ⟨_, hvalue, rfl⟩ := List.mem_map.1 hitem
    obtain ⟨_, hwritten, rfl⟩ := List.mem_map.1 hvalue
    obtain ⟨node, hnode, rfl⟩ := List.mem_map.1 hwritten
    refine Acceptable.reread ?_
    -- A node after the pass is an import that the pass made, or one of the document as it is shown.
    rcases mem_children_importImages settings hnode with ⟨binding, source, rfl⟩ | ⟨old, hmem, rfl⟩
    · exact acceptable_of_written
        (Node.ofJson?_toJson (Node.Made.defaultImport binding source).wellFormed)
    · exact acceptable_shown settings _ (hchildren old hmem)
  obtain ⟨again, hread⟩ := (exists_rootOfJson_iff hnormal).2 hdocument
  exact ⟨again, by rw [ofJson_of_root hroot, shape_eq_ok_iff, hread]⟩

/-- A document takes one level of nesting for itself and one for the list of its nodes. What is left
is for the nodes. -/
theorem fits_root_iff {depth : Nat} (hothers : root.others.entries.AllFit (depth + 1)) :
    root.toJson.Fits (depth + 2) ↔ ∀ node ∈ root.children, node.toJson.Fits depth := by
  rw [Root.toJson, fits_object_succ, Node.allToJson_eq_map]
  show AllFit (depth + 1) _ ↔ _
  simp [hothers]

/-- The nodes of a document that was parsed were read from values within the depth that is left
below the document and the list of its nodes. -/
theorem within_of_parse {text : String} (h : parse text = .ok root) :
    (∀ node ∈ root.children, node.AsRead ∧ node.Within 125)
      ∧ root.others.Avoids ["children"] ∧ root.others.entries.AllFit 126 := by
  cases hvalue : Json.parse text with
  | error cause => simp [parse, hvalue] at h
  | ok value =>
      have hread : Root.ofJson value = .ok root :=
        rootOfJson_of_ofJson (by simpa [parse, hvalue] using h)
      have hnormal : value.normalize = value := by
        obtain ⟨written, -, hwritten⟩ := bind_ok_iff.1 hvalue
        rw [← Except.ok.inj hwritten, normalize_normalize]
      let canonical : CanonicalJson := ⟨value, hnormal⟩
      have hasRead := Root.asRead_of_ofJson (show Root.ofJson canonical.value = .ok root from hread)
      obtain ⟨members, items, rfl, hlisted, hall, hothers⟩ := Root.ofJson_ok hread
      have hmembers : AllFit 126 members := fits_of_parse hvalue
      refine ⟨fun node hnode => ⟨hasRead.1 node hnode, ?_⟩, hasRead.2, ?_⟩
      -- One level goes to the document and one to the list of its nodes.
      · obtain ⟨item, hitem, hnodeRead⟩ := Node.exists_mem_of_allOfJson? hall hnode
        have hitems : Json.Fits 126 (.array items) := hmembers _ (mem_of_last? hlisted)
        exact Node.within_of_ofJson? item
          (normal_of_mem (normalValues_of_normal hnormal _ _ hlisted) hitem) node 125 hnodeRead
          (hitems item hitem)
      · rw [hothers]
        exact hmembers.others _

section
variable (hwithin : ∀ node ∈ root.children, node.Within 125)
  (hothers : root.others.entries.AllFit 126)
include hwithin hothers

/-- After the pass a document fits the depth of the reader exactly if all its nodes have room. -/
theorem fits_importImages_iff :
    (importImages settings root).toJson.Fits maxDepth
      ↔ ∀ path found, nodeAt path root.children = .ok found →
          settings.HasRoom maxDepth path.length found := by
  have hothers' : (importImages settings root).others.entries.AllFit 126 := by
    rwa [importImages_eq]
  rw [maxDepth, fits_root_iff hothers',
    forall_nodeAt_iff (p := fun lists found => settings.HasRoom (125 + 2) lists found)]
  simp only [settings.hasRoom_add_two]
  rw [importImages_eq, twoPass, Node.mapAllLeaves_eq_map, List.forall_mem_append,
    List.forall_mem_map]
  have himports : ∀ node ∈ (settings.imports root.children).mapIdx fun index url =>
      Node.defaultImport (importName index url) url, node.toJson.Fits 125 := by
    intro node hnode
    obtain ⟨index, hindex, rfl⟩ := List.mem_mapIdx.1 hnode
    exact fits_defaultImport _ _ (by omega)
  rw [and_iff_right himports]
  exact forall₂_congr fun node hnode => fits_shown_iff settings _ (hwithin node hnode)

/-- However deep the document is after the pass, there is a depth that it fits: the pass adds eight
levels at most. -/
theorem fits_importImages_add_eight :
    (importImages settings root).toJson.Fits (125 + 8 + 2) := by
  have hothers' : (importImages settings root).others.entries.AllFit (125 + 8 + 1) := by
    rw [importImages_eq]
    exact hothers.mono (by omega)
  refine (fits_root_iff hothers').2 fun node hnode => ?_
  rcases mem_children_importImages settings hnode with ⟨binding, source, rfl⟩ | ⟨old, hold, rfl⟩
  · exact fits_defaultImport _ _ (by omega)
  · exact fits_shown_add_eight settings _ (hwithin old hold)

end

/-- The text of a document after the pass is accepted exactly if what is written fits the depth of
the reader. Whether the text is compact or pretty makes no difference. -/
theorem parse_print_importImages {text : String} (h : parse text = .ok root) (isPretty : Bool) :
    ((∃ again, parse ((importImages settings root).print isPretty) = .ok again)
        ↔ (importImages settings root).toJson.Fits maxDepth)
      ∧ (¬ (importImages settings root).toJson.Fits maxDepth →
        ∃ place, parse ((importImages settings root).print isPretty)
          = .error (.json (.fault .tooDeep place))) := by
  obtain ⟨hnodes, havoids, hothers⟩ := within_of_parse h
  obtain ⟨again, hagain⟩ :=
    exists_ofJson_importImages settings (fun node hnode => (hnodes node hnode).1) havoids
  obtain ⟨hread, hdeep⟩ := parse_print isPretty
    (fits_importImages_add_eight settings (fun node hnode => (hnodes node hnode).2) hothers)
  have hrefused : ¬ (importImages settings root).toJson.Fits maxDepth →
      ∃ place, parse ((importImages settings root).print isPretty)
        = .error (.json (.fault .tooDeep place)) := by
    intro hfits
    obtain ⟨place, herror⟩ := hdeep hfits
    exact ⟨place, by rw [parse, Root.print, herror]⟩
  refine ⟨⟨?_, fun hfits => ⟨again, by rw [parse, Root.print, hread hfits]; exact hagain⟩⟩,
    hrefused⟩
  -- A text that is too deep is refused, so one that is accepted is not.
  rintro ⟨found, hfound⟩
  by_contra hfits
  obtain ⟨place, herror⟩ := hrefused hfits
  rw [hfound] at herror
  cases herror

/-- In a document that was parsed, an imported image has room at most 59 nodes deep and an element
at most 62. All other nodes have it wherever they are. -/
theorem forall_hasRoom_iff {nodes : List Node} :
    (∀ path found, nodeAt path nodes = .ok found → settings.HasRoom maxDepth path.length found)
      ↔ (∀ path url others, nodeAt path nodes = .ok (.leaf (.image url) others) →
            (settings.target? url).isSome → path.length ≤ 59)
        ∧ ∀ path placement name attributes others children,
            nodeAt path nodes
              = .ok (.branch (.element placement name attributes) others children) →
            path.length ≤ 62 := by
  have himage : ∀ lists, 2 * lists + 9 ≤ maxDepth ↔ lists ≤ 59 := fun lists => by
    rw [maxDepth]
    omega
  have helement : ∀ lists, 2 * lists + 2 ≤ maxDepth ↔ lists ≤ 62 := fun lists => by
    rw [maxDepth]
    omega
  constructor
  · intro hroom
    exact ⟨fun path url others hpath htarget => (himage _).1 (hroom path _ hpath htarget),
      fun path placement name attributes others children hpath =>
        (helement _).1 (hroom path _ hpath)⟩
  · rintro ⟨himages, helements⟩ path found hpath
    -- The cases are those of `HasRoom`: an image, an element, and any other node.
    unfold PassSettings.HasRoom
    split
    · exact fun htarget => (himage _).2 (himages path _ _ hpath htarget)
    · exact (helement _).2 (helements path _ _ _ _ _ hpath)
    · trivial

/-- The text of a document after the pass is accepted exactly if there is room for what the pass
makes: every imported image lies at most 59 nodes deep, and every element at most 62. Otherwise the
text is refused as too deep. -/
theorem parse_print_importImages_iff (settings : PassSettings) (isPretty : Bool) (text : String)
    (root : Root) (h : parse text = .ok root) :
    ((∃ again, parse ((importImages settings root).print isPretty) = .ok again)
      ↔ (∀ path url others, nodeAt path root.children = .ok (.leaf (.image url) others) →
            (settings.target? url).isSome → path.length ≤ 59)
        ∧ ∀ path placement name attributes others children,
            nodeAt path root.children
              = .ok (.branch (.element placement name attributes) others children) →
            path.length ≤ 62)
      ∧ ((¬ ∃ again, parse ((importImages settings root).print isPretty) = .ok again) →
        ∃ place, parse ((importImages settings root).print isPretty)
          = .error (.json (.fault .tooDeep place))) := by
  obtain ⟨hnodes, -, hothers⟩ := within_of_parse h
  obtain ⟨haccepted, hrefused⟩ := parse_print_importImages settings h isPretty
  have hfits := fits_importImages_iff settings (fun node hnode => (hnodes node hnode).2) hothers
  rw [haccepted, hfits, forall_hasRoom_iff]
  exact ⟨Iff.rfl, fun hroom => hrefused (by rwa [hfits, forall_hasRoom_iff])⟩

/-- A document of one imported image is read back after the pass. -/
theorem parse_print_importImages_image :
    let text := "\x7b\"children\":[\x7b\"type\":\"image\",\"url\":\"./a.png\"\x7d]\x7d"
    ∃ root again, parse text = .ok root
      ∧ parse ((importImages {} root).print true) = .ok again := by
  intro text
  have hcomputed : (match parse text with
      | .ok root => root.children.map Node.isImage == [true]
      | .error _ => false) = true := by decide +kernel
  cases hread : parse text with
  | error cause => simp [hread] at hcomputed
  | ok root =>
      have himages : root.children.map Node.isImage = [true] := by
        simpa [hread] using hcomputed
      obtain ⟨node, hnode, himage⟩ := List.map_eq_singleton_iff.1 himages
      -- A path to an image without siblings has one place.
      have hpath : ∀ path found, nodeAt path root.children = .ok found →
          path.length = 1 ∧ found = node := by
        rw [hnode]
        intro path found hpath
        cases node with
        | branch content others children => cases himage
        | leaf content others =>
            cases path with
            | nil => simp [nodeAt] at hpath
            | cons index rest =>
                rcases nodeAt_cons hpath with ⟨hindex, rfl⟩ | ⟨_, _, _, hindex, -⟩
                · exact ⟨rfl, by simpa using List.mem_of_getElem? hindex⟩
                · simpa using List.mem_of_getElem? hindex
      obtain ⟨again, hagain⟩ := (parse_print_importImages_iff {} true text root hread).1.2
        ⟨fun path _ _ hfound _ => (hpath path _ hfound).1.trans_le (by decide),
          fun path _ _ _ _ _ hfound => (hpath path _ hfound).1.trans_le (by decide)⟩
      exact ⟨root, again, rfl, hagain⟩

/-! ### A document that is not read back -/

/-- A value as the only child in so many unknown nodes. -/
def nestedIn (inner : Json) : Nat → Json
  | 0 => inner
  | n + 1 => .object [("type", .string "a"), ("children", .array [nestedIn inner n])]

/-- Each node around a value takes two levels of nesting: one for the object and one for the
list. -/
theorem fits_nestedIn {inner : Json} {depth : Nat} (h : inner.Fits depth) (n : Nat) :
    (nestedIn inner n).Fits (depth + 2 * n) := by
  induction n with
  | zero => exact h
  | succ n ih =>
      rw [nestedIn, show depth + 2 * (n + 1) = depth + 2 * n + 1 + 1 by omega]
      simpa using ih

/-- An image in fifty-nine unknown nodes. -/
def deepImage : Json :=
  .object [("children", .array
    [nestedIn (.object [("type", .string "image"), ("url", .string "./a.png")]) 59])]

/-- What is computed of a document that may have been read holds of it: it was read, and at the path
stands an image with such an address. -/
theorem exists_image_at {found : Except ParseError Root} {path : List Nat} {p : String → Bool}
    (h : ((found.toOption.bind fun root => (nodeAt path root.children).toOption).any fun node =>
      node.isImage && (imageUrls node).all p) = true) :
    ∃ root url others, found = .ok root
      ∧ nodeAt path root.children = .ok (.leaf (.image url) others) ∧ p url = true := by
  cases found with
  | error cause => cases h
  | ok root =>
      simp only [Except.toOption, Option.bind_some] at h
      cases hpath : nodeAt path root.children with
      | error cause => simp [hpath] at h
      | ok node =>
          obtain ⟨himage, hall⟩ : node.isImage = true ∧ (imageUrls node).all p = true := by
            simpa [hpath] using h
          cases node with
          | branch content others children => cases himage
          | leaf content others =>
              cases content with
              | image url => exact ⟨root, url, others, rfl, hpath, by simpa [imageUrls] using hall⟩
              | _ => cases himage

/-- The document of an image that is sixty nodes deep is read, but not what the pass makes of it. -/
theorem parse_print_importImages_ne :
    ∃ root, parse deepImage.compact = .ok root
      ∧ ¬ ∃ again, parse ((importImages {} root).print false) = .ok again := by
  have hfits : deepImage.Fits maxDepth := by
    have hinner : (Json.object [("type", .string "image"), ("url", .string "./a.png")]).Fits 1 := by
      simp
    have himage := fits_nestedIn hinner 59
    have hdeep : deepImage.Fits 121 := by simpa [deepImage] using himage
    exact hdeep.mono (by decide)
  have hvalue : Json.parse deepImage.compact = .ok deepImage.normalize.reread :=
    (parse_print false hfits).1 hfits
  obtain ⟨root, url, others, hread, hpath, htarget⟩ :=
    @exists_image_at (ofJson deepImage.normalize.reread) (List.replicate 60 0)
      (fun url => (PassSettings.target? {} url).isSome) (by decide +kernel)
  have hparse : parse deepImage.compact = .ok root := by
    rw [parse, hvalue]
    exact hread
  refine ⟨root, hparse, ?_⟩
  obtain ⟨hnodes, -, hothers⟩ := within_of_parse hparse
  rw [(parse_print_importImages {} hparse false).1,
    fits_importImages_iff {} (fun node hnode => (hnodes node hnode).2) hothers, forall_hasRoom_iff]
  rintro ⟨himages, -⟩
  have hlength := himages _ url others hpath htarget
  simp at hlength

end Document

end ImageImports
