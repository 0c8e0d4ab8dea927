import ImageImports.Proofs.Image.SecondPass

/-!
# `ImageImports.Proofs.Image.Appending`: a document that goes on

What a pass does to a part of a document depends on what stands before it, and on nothing that
follows. So a document to which nodes are appended keeps what it had: the statements in front keep
their places and names, and the nodes behind them stay as they were. The new nodes bring statements
for the addresses that were not imported before, numbered from where the old ones end, and share the
names of the others.

`importNodes_append` says this of the recursion, with the imports so far as its state, and
`imports_append` of the list of imports. Main statement: `importImages_append`.
-/

set_option autoImplicit false

namespace ImageImports

open Mdast

section
variable (settings : PassSettings)

/-- The pass over the nodes that are appended starts with the imports that the others left. This is
the step from one document to two; what follows only says what these imports are. -/
theorem importNodes_append (first second : List Node) (imports : ImportList) :
    importNodes settings (first ++ second) imports
      = ((importNodes settings first imports).1
          ++ (importNodes settings second (importNodes settings first imports).2).1,
        (importNodes settings second (importNodes settings first imports).2).2) := by
  induction first generalizing imports with
  | nil => rfl
  | cons node rest ih => simp only [List.cons_append, importNodes, ih]

/-- The addresses that appended nodes add to the imports: those from which their images are imported
and that are not among the sources so far, each at its first occurrence. -/
def PassSettings.newImports (sources : List String) (nodes : List Node) : List String :=
  ((settings.targets nodes).filter fun url => decide (url ∉ sources)).eraseDups

/-- The addresses of appended nodes come behind those of the others. -/
theorem targets_append (first second : List Node) :
    settings.targets (first ++ second) = settings.targets first ++ settings.targets second := by
  rw [PassSettings.targets, allImageUrls_append, List.filterMap_append]
  rfl

/-- The imports of the first nodes keep their places; those that the others add come behind them. So
appending to a document changes no name that is there already. -/
theorem imports_append (first second : List Node) :
    settings.imports (first ++ second)
      = settings.imports first ++ settings.newImports (settings.imports first) second := by
  have hfirst : (ImportList.insertAll {} (settings.targets first)).urls = settings.imports first :=
    ImportList.urls_insertAll_empty _
  rw [PassSettings.imports, ← ImportList.urls_insertAll_empty, targets_append,
    ImportList.insertAll_append, ImportList.urls_insertAll, hfirst]
  rfl

/-- The pass over the appended nodes, given the imports of the others. -/
theorem importNodes_appended (first second : List Node) :
    importNodes settings second ⟨settings.imports first⟩
      = (Node.mapAllLeaves (settings.showLeaf (settings.imports (first ++ second))) second,
        ⟨settings.imports (first ++ second)⟩) := by
  have hurls : ((⟨settings.imports first⟩ : ImportList).insertAll (settings.targets second)).urls
      = settings.imports (first ++ second) := by
    rw [ImportList.urls_insertAll, imports_append]
    rfl
  rw [importNodes_eq settings (settings.imports (first ++ second)) second _
    (hurls ▸ List.prefix_refl _), ← hurls]

end

/-- The sources that some statements import by default, in their order. -/
def importedSources (statements : List Node) : List String :=
  (statements.flatMap Node.defaultImports).map Prod.snd

/-- The statements of some imports import their addresses, in their order and whatever names are
bound. -/
theorem importedSources_statements (name : Nat → String → String) (urls : List String) :
    importedSources (urls.mapIdx fun index url => Node.defaultImport (name index url) url)
      = urls := by
  induction urls generalizing name with
  | nil => rfl
  | cons url rest ih =>
      rw [List.mapIdx_cons]
      show url :: importedSources _ = url :: rest
      rw [ih fun index => name (index + 1)]

/-- A pass over a document to which nodes are appended leaves the statements and the nodes of the
document as they were, statements for new addresses behind the old ones, and the appended nodes at
the end. The new addresses are those of the appended images that none of the old statements imports,
in the order in which they were first seen, and their names are numbered from where the old ones
end. In the appended nodes every image shows the name at the place of its address among all of
them. -/
theorem importImages_append (settings : PassSettings) (first second : List Node)
    (others : OtherMembers) :
    ∃ front shown,
      importImages settings { children := first, others }
          = { children := front ++ shown, others }
        ∧ shown.length = first.length
        ∧ front = (importedSources front).mapIdx (fun index url =>
            Node.defaultImport (importName index url) url)
        ∧ ∃ new rest,
          importImages settings { children := first ++ second, others }
              = { children := front ++ new ++ shown ++ rest, others }
            ∧ rest.length = second.length
            ∧ importedSources new = settings.newImports (importedSources front) second
            ∧ new = (importedSources new).mapIdx (fun index url =>
                Node.defaultImport (importName (front.length + index) url) url)
            ∧ rest = Node.mapAllLeaves
                (settings.showLeaf (importedSources front ++ importedSources new)) second := by
  have hpass := importNodes_empty settings first
  have hnodes (urls : List String) : ImportList.nodes ⟨urls⟩
      = urls.mapIdx fun index url => Node.defaultImport (importName index url) url :=
    ImportList.nodes_eq_mapIdx _
  have hfront := importedSources_statements importName (settings.imports first)
  refine ⟨(settings.imports first).mapIdx fun index url =>
      Node.defaultImport (importName index url) url,
    Node.mapAllLeaves (settings.showLeaf (settings.imports first)) first, ?_,
    length_mapAllLeaves _ _, by rw [hfront], ?_⟩
  · simp only [importImages, hpass, hnodes]
  · rw [hfront, List.length_mapIdx]
    have hnew := importedSources_statements
      (fun index => importName ((settings.imports first).length + index))
      (settings.newImports (settings.imports first) second)
    refine ⟨_, _, ?_, length_mapAllLeaves _ second, hnew, by rw [hnew], rfl⟩
    -- The statements split where the imports do, and the pass where the nodes do.
    simp only [importImages, importNodes_append, hpass, importNodes_appended, hnodes]
    rw [hnew, imports_append, List.mapIdx_append]
    simp only [Nat.add_comm, List.append_assoc]

end ImageImports
