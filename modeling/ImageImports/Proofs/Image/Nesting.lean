import ImageImports.Proofs.Image.TwoPass
import ImageImports.Proofs.Mdast.Nesting
import ImageImports.Proofs.Tree.Path

/-!
# `ImageImports.Proofs.Image.Nesting`: how deep the pass makes a document

The element that stands for an image takes nine arrays and objects inside one another
(`fits_imageElement_iff`), and an import statement takes eight. An element that was read without
attributes and children is written with an empty list for each. Everything else is written within
the depth it was read from (`Node.Within`). So what the pass makes of a node fits exactly if every
imported image and every element below it has the room it takes (`PassSettings.HasRoom`).

Main statement: `fits_shown_iff`.
-/

set_option autoImplicit false

namespace ImageImports

open Json Mdast Members ImageImports.Tree

/-! ### New nodes -/

/-- The attribute that shows a name takes seven arrays and objects inside one another: itself, its
value, the program with its data, its statements, one of them, and the name in it. -/
theorem fits_identifier_iff (name reference : String) {depth : Nat} :
    (Attribute.identifier name reference).toJson.Fits depth ↔ 7 ≤ depth := by
  have hfits : (Attribute.identifier name reference).toJson.Fits 7
      ∧ ¬ (Attribute.identifier name reference).toJson.Fits 6 := by
    simp [Attribute.identifier, Attribute.toJson, NamedAttribute.members, AttributeValue.toJson,
      EmbeddedExpression.members, whenSome, Estree.Embedding.toJson, Estree.Embedding.ofProgram,
      Estree.Fragment.toJson, Estree.Program.toJson, Estree.Program.reference,
      Estree.Statement.toJson, Estree.Identifier.toJson, OtherMembers.empty]
  constructor
  · intro h
    by_contra hlt
    exact hfits.2 (h.mono (by omega))
  · exact fun h => hfits.1.mono h

/-- An attribute whose value is a text, or one without a value, takes one level of nesting. -/
theorem fits_literal (name : String) (value : Option String) (depth : Nat) :
    (Attribute.literal name value).toJson.Fits (depth + 1) := by
  cases value <;>
    simp [Attribute.literal, Attribute.toJson, NamedAttribute.members, AttributeValue.toJson,
      OtherMembers.empty]

/-- The element that stands for an image takes nine: itself, its attributes, and what the attribute
that shows the import takes. -/
theorem fits_imageElement_iff (image : OtherMembers) (name : String) {depth : Nat} :
    (imageElement image name).toJson.Fits depth ↔ 9 ≤ depth := by
  rw [imageElement_eq, Node.textElement, Node.fits_branch_iff]
  constructor
  · rintro ⟨inner, rfl, hfields, -, -⟩
    simp only [Branch.fields, allFit_cons, fits_array_succ, List.forall_mem_map] at hfields
    have hsource := (fits_identifier_iff "src" name).1
      (hfields.2.1 (.identifier "src" name) (by simp))
    omega
  · intro h
    obtain ⟨rest, rfl⟩ := Nat.exists_eq_add_of_le' h
    have hsource := (fits_identifier_iff "src" name).2 (Nat.le_add_left 7 rest)
    refine ⟨rest + 7, rfl, ?_, allFit_nil, by simp⟩
    simp only [Branch.fields, allFit_cons, fits_array_succ, List.forall_mem_map,
      List.forall_mem_append, List.forall_mem_cons]
    exact ⟨fits_string _ _, ⟨⟨fits_literal _ _ _, hsource, by simp⟩,
      fun title _ => fits_literal _ _ _⟩, allFit_nil⟩

/-- An import statement takes eight: itself, the program with its data, its statements, one of
them, the names it binds, one of these, and the name in it. -/
theorem fits_defaultImport (binding source : String) {depth : Nat} (h : 8 ≤ depth) :
    (Node.defaultImport binding source).toJson.Fits depth := by
  have hfits : (Node.defaultImport binding source).toJson.Fits 8 := by
    simp [Node.defaultImport, Node.toJson, Leaf.fields, whenSome, Estree.Embedding.toJson,
      Estree.Embedding.ofProgram, Estree.Fragment.toJson, Estree.Program.toJson,
      Estree.Program.defaultImport, Estree.Statement.toJson, Estree.ImportSpecifier.toJson,
      Estree.StringLiteral.quoted, Estree.StringLiteral.toJson, Estree.Identifier.toJson,
      OtherMembers.empty]
  exact hfits.mono h

/-! ### Room for what the pass makes -/

/-- A node below some lists of children has the room that what the pass makes of it takes beside its
children. Only an imported image and an element can take more than what was read. -/
def PassSettings.HasRoom (settings : PassSettings) (depth lists : Nat) : Node → Prop
  | .leaf (.image url) _ => (settings.target? url).isSome → 2 * lists + 9 ≤ depth
  | .branch (.element ..) _ _ => 2 * lists + 2 ≤ depth
  | _ => True

section
variable (settings : PassSettings) (imports : List String)

/-- Every list of children takes two, one for itself and one for the node that has it. So the room
of a node can be told from the room that is left where it stands. -/
theorem PassSettings.hasRoom_add_two {depth lists : Nat} {node : Node} :
    settings.HasRoom (depth + 2) (lists + 1) node ↔ settings.HasRoom depth lists node := by
  unfold HasRoom
  split
  · rw [show 2 * (lists + 1) + 9 ≤ depth + 2 ↔ 2 * lists + 9 ≤ depth by omega]
  · omega
  · exact Iff.rfl

/-- What the pass makes of a node fits the depth that the node is within exactly if the node and all
nodes below it have room. -/
theorem fits_shown_iff {depth : Nat} {node : Node} (h : node.Within depth) :
    (node.mapLeaves (settings.showLeaf imports)).toJson.Fits depth
      ↔ settings.HasRoom depth 0 node
        ∧ ∀ path found, nodeAt path (node.children?.getD []) = .ok found →
            settings.HasRoom depth path.length found := by
  induction h with
  | @leaf depth content others hfields hothers =>
      have hpaths : ∀ path found, nodeAt path ((Node.leaf content others).children?.getD [])
          = .ok found → settings.HasRoom (depth + 1) path.length found :=
        fun path found hpath => absurd hpath (nodeAt_nil path found)
      have hkept : (Node.leaf content others).toJson.Fits (depth + 1) :=
        Node.fits_leaf_iff.2 ⟨hfields, hothers⟩
      rw [and_iff_left hpaths, Node.mapLeaves]
      -- Of the leaves, only an image with a target is written as something else.
      cases content with
      | image url =>
          rw [PassSettings.showLeaf_image, PassSettings.HasRoom]
          cases settings.target? url with
          | none => simp [hkept]
          | some target => simp [fits_imageElement_iff]
      | _ => exact iff_of_true hkept trivial
  | @branch depth content others children hfields hothers hchildren ih =>
      have hroom : settings.HasRoom (depth + 2) 0 (.branch content others children) := by
        cases content with
        | element => exact Nat.le_add_left 2 depth
        | _ => trivial
      rw [and_iff_right hroom, Node.mapLeaves, Node.mapAllLeaves_eq_map, Node.fits_branch_iff]
      -- The fields of a branch are written as they were read, so only its children can be too deep.
      have hwritten : (∃ inner, depth + 2 = inner + 2 ∧ content.fields.AllFit (inner + 1)
          ∧ others.entries.AllFit (inner + 1)
          ∧ ∀ child ∈ children.map (Node.mapLeaves (settings.showLeaf imports)),
              child.toJson.Fits inner)
            ↔ ∀ child ∈ children,
                (child.mapLeaves (settings.showLeaf imports)).toJson.Fits depth := by
        rw [← List.forall_mem_map (P := fun child : Node => child.toJson.Fits depth)]
        constructor
        · rintro ⟨inner, hinner, -, -, hall⟩
          obtain rfl : depth = inner := by omega
          exact hall
        · exact fun hall => ⟨depth, rfl, hfields, hothers, hall⟩
      rw [hwritten]
      -- What is left is that every path into the children begins with one of them.
      show _ ↔ ∀ path found, nodeAt path children = .ok found →
        settings.HasRoom (depth + 2) path.length found
      rw [forall_nodeAt_iff (p := fun lists found => settings.HasRoom (depth + 2) lists found)]
      refine forall₂_congr fun child hchild => ?_
      rw [ih child hchild]
      simp only [settings.hasRoom_add_two]
  | @bareElement placement name others hothers =>
      -- The lists that a bare element is written with have no room.
      have hroom : ¬ settings.HasRoom 1 0 (.branch (.element placement name []) others []) := by
        simp [PassSettings.HasRoom]
      rw [Node.mapLeaves, Node.fits_branch_iff]
      constructor
      · rintro ⟨inner, hinner, -⟩
        omega
      · exact fun h => absurd h.1 hroom

/-- Whatever has no room, the pass makes nothing of it that takes more than eight beyond the depth
that the node is within. -/
theorem fits_shown_add_eight {depth : Nat} {node : Node} (h : node.Within depth) :
    (node.mapLeaves (settings.showLeaf imports)).toJson.Fits (depth + 8) := by
  induction h with
  | @leaf depth content others hfields hothers =>
      have hkept : (Node.leaf content others).toJson.Fits (depth + 9) :=
        (Node.fits_leaf_iff.2 ⟨hfields, hothers⟩).mono (Nat.le_add_right (depth + 1) 8)
      rw [Node.mapLeaves]
      cases content with
      | image url =>
          rw [PassSettings.showLeaf_image]
          cases settings.target? url with
          | none => exact hkept
          | some target => exact (fits_imageElement_iff _ _).2 (Nat.le_add_left 9 depth)
      | _ => exact hkept
  | @branch depth content others children hfields hothers hchildren ih =>
      rw [Node.mapLeaves, Node.mapAllLeaves_eq_map]
      exact Node.fits_branch_iff.2
        ⟨depth + 8, rfl, hfields.mono (by omega), hothers.mono (by omega), List.forall_mem_map.2 ih⟩
  | @bareElement placement name others hothers =>
      refine Node.fits_branch_iff.2
        ⟨7, rfl, ?_, hothers.mono (by omega), by simp [Node.mapAllLeaves]⟩
      cases name <;> simp [Branch.fields]

end

end ImageImports
