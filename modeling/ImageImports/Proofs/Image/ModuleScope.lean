import ImageImports.Proofs.Image.Bindings

/-!
# `ImageImports.Proofs.Image.ModuleScope`: the names at the top of a document

The blocks of statements among the top level nodes of a document share one scope, in which no name
may be bound twice. A pass puts its statements in front of all others and leaves these as they are,
so the names afterwards are the new ones followed by the old ones (`boundNames_importImages`).

The new names count from zero in every pass and differ among themselves. Nothing compares them with
the names that are already there. So they clash where a name of the very same text was bound before,
which a document from an earlier pass brings along (`boundNames_clash`), and nowhere else: that is
`nodup_boundNames_importImages_iff`.
-/

set_option autoImplicit false

namespace ImageImports

open Mdast

/-! ### Names in scope -/

/-- The names that a block of statements binds by default imports, if its program is typed. Other
nodes bind none. -/
def Mdast.Node.boundNames : Node → List String
  | .leaf (.esm _ (some embedding)) _ =>
      (embedding.program?.map fun program => program.defaultImports.map Prod.fst).getD []
  | _ => []

/-- The names that the blocks of statements at the top of a document bind by default imports, in
document order and with all repetitions. -/
def Mdast.Root.boundNames (root : Root) : List String := root.children.flatMap Node.boundNames

/-- The new names of a pass over a document, in the order of the imports. They are counted from zero
in every pass, whatever an earlier one has bound. -/
def PassSettings.newNames (settings : PassSettings) (root : Root) : List String :=
  (settings.imports root.children).mapIdx importName

/-- The new names are those that the statements in front bind, and these are distinct, as each has
an index of its own. -/
theorem nodup_newNames (settings : PassSettings) (root : Root) :
    (settings.newNames root).Nodup := by
  have hpairs : (settings.pairs root.children).map Prod.fst = settings.newNames root :=
    List.ext_getElem (by simp [PassSettings.pairs, PassSettings.newNames]) fun index _ _ => by
      simp [PassSettings.pairs, PassSettings.newNames]
  rw [← hpairs]
  exact (twoPass_binds settings root.children).names_nodup

/-! ### The names after a pass -/

/-- A statement in front binds its one name. -/
theorem boundNames_defaultImport (name source : String) :
    (Node.defaultImport name source).boundNames = [name] := rfl

/-- The statements of some imports bind one name each. -/
theorem flatMap_boundNames_imports (urls : List String) :
    (urls.mapIdx fun index url => Node.defaultImport (importName index url) url).flatMap
        Node.boundNames
      = urls.mapIdx importName := by
  have hsingle : (urls.mapIdx fun index url =>
        Node.defaultImport (importName index url) url).map Node.boundNames
      = (urls.mapIdx importName).map fun name => [name] :=
    List.ext_getElem (by simp) fun index _ _ => by simp [boundNames_defaultImport]
  rw [List.flatMap_def, hsingle, ← List.flatMap_def, List.flatMap_singleton']

/-- A pass replaces no node that binds a name, and no node that it puts in the place of another one
binds any. -/
theorem boundNames_mapLeaves_showLeaf (settings : PassSettings) (imports : List String)
    (node : Node) : (node.mapLeaves (settings.showLeaf imports)).boundNames = node.boundNames := by
  cases node with
  | branch content others children => rfl
  | leaf content others =>
      cases content with
      | image url =>
          rw [Node.mapLeaves, PassSettings.showLeaf_image]
          cases settings.target? url with
          | none => rfl
          | some target => rfl
      | _ => rfl

/-- The names in scope after a pass: the new ones in front of the old ones. The pass leaves all old
statements where they are, so it neither takes a name out of scope nor moves one. -/
theorem boundNames_importImages (settings : PassSettings) (root : Root) :
    (importImages settings root).boundNames = settings.newNames root ++ root.boundNames := by
  have hshown : (Node.mapAllLeaves (settings.showLeaf (settings.imports root.children))
      root.children).flatMap Node.boundNames = root.children.flatMap Node.boundNames := by
    rw [Node.mapAllLeaves_eq_map, List.flatMap_map]
    simp only [boundNames_mapLeaves_showLeaf]
  rw [importImages_eq, Root.boundNames, twoPass, List.flatMap_append, flatMap_boundNames_imports,
    hshown]
  rfl

/-! ### Clashes -/

/-- A document from an earlier pass with one more image behind it: the names at its top are
distinct, and the next pass binds the name of the first import once more. -/
theorem boundNames_clash :
    let earlier := importImages {} { children := [.group .paragraph [.image "./a.png" "a"]] }
    let later : Root := { earlier with children := earlier.children ++ [.image "./a.png" "b"] }
    later.boundNames.Nodup ∧ ¬ (importImages {} later).boundNames.Nodup := by
  intro earlier later
  have hold : later.boundNames = [importName 0 "./a.png"] := rfl
  have hnew : PassSettings.newNames {} later = [importName 0 "./a.png"] := rfl
  rw [boundNames_importImages, hold, hnew]
  exact ⟨List.nodup_singleton _, by simp⟩

/-- If the names at the top of a document are distinct, they are so after a pass exactly if none of
the new names was bound there before. -/
theorem nodup_boundNames_importImages_iff (settings : PassSettings) (root : Root)
    (h : root.boundNames.Nodup) :
    (importImages settings root).boundNames.Nodup
      ↔ ∀ index url, (settings.imports root.children)[index]? = some url →
          importName index url ∉ root.boundNames := by
  rw [boundNames_importImages, List.nodup_append]
  constructor
  · rintro ⟨-, -, hdisjoint⟩ index url hget hmem
    have hnew : importName index url ∈ settings.newNames root := by
      rw [PassSettings.newNames, List.mem_mapIdx]
      obtain ⟨hindex, rfl⟩ := List.getElem?_eq_some_iff.1 hget
      exact ⟨index, hindex, rfl⟩
    exact hdisjoint _ hnew _ hmem rfl
  · intro hfresh
    refine ⟨nodup_newNames settings root, h, ?_⟩
    rintro name hnew _ hmem rfl
    obtain ⟨index, hindex, rfl⟩ := List.mem_mapIdx.1 hnew
    exact hfresh index _ (List.getElem?_eq_getElem hindex) hmem

/-- A document that imports a name of its own keeps its names distinct. -/
theorem nodup_boundNames_importImages_chart :
    let root : Root :=
      { children := [.defaultImport "Chart" "./chart.js", .group .paragraph
          [.image "./a.png" "a", .image "./b.png" "b"]] }
    root.boundNames.Nodup ∧ (importImages {} root).boundNames.Nodup := by
  intro root
  have hold : root.boundNames = ["Chart"] := rfl
  have hnodup : root.boundNames.Nodup := by
    rw [hold]
    exact List.nodup_singleton _
  refine ⟨hnodup, (nodup_boundNames_importImages_iff {} root hnodup).2 fun index url _ hmem => ?_⟩
  -- Every new name starts with an underscore.
  rw [hold, List.mem_singleton] at hmem
  have hchars := congrArg String.toList hmem
  rw [toList_importName] at hchars
  exact absurd (List.cons.inj hchars).1 (by decide)

end ImageImports
