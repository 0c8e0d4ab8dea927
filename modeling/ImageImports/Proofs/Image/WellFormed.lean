import ImageImports.Mdast.Build
import ImageImports.Proofs.Image.TwoPass
import ImageImports.Proofs.Mdast.RoundTrip

/-!
# `ImageImports.Proofs.Image.WellFormed`: well-formed documents stay well-formed

Nodes and attributes that are made from well-formed parts are well-formed (`Node.Made.wellFormed`,
`Attribute.Made.wellFormed`), and so is what the pass makes of a well-formed document
(`importImages_wellFormed`). The case that needs an argument is an unknown branch: the pass changes
its children, and with them its written form, but whether that form fits a typed node does not
depend on which nodes the children are.
-/

set_option autoImplicit false

namespace ImageImports

open Json Mdast Members

/-! ### Programs -/

namespace Estree

/-- A name without other members is well-formed. -/
theorem Identifier.wellFormed_of_name (name : String) :
    ({ name := name } : Identifier).WellFormed :=
  OtherMembers.avoids_empty _

/-- The program that is made for an import is well-formed. -/
theorem Program.defaultImport_wellFormed (binding source : String) :
    (Program.defaultImport binding source).WellFormed := by
  refine ⟨?_, OtherMembers.avoids_empty _⟩
  intro statement hstatement
  obtain rfl := List.mem_singleton.1 hstatement
  refine ⟨?_, OtherMembers.avoids_empty _, OtherMembers.avoids_empty _⟩
  intro specifier hspecifier
  obtain rfl := List.mem_singleton.1 hspecifier
  exact ⟨Identifier.wellFormed_of_name binding, OtherMembers.avoids_empty _⟩

/-- The program that is made for a reference to a name is well-formed. -/
theorem Program.reference_wellFormed (name : String) : (Program.reference name).WellFormed := by
  refine ⟨?_, OtherMembers.avoids_empty _⟩
  intro statement hstatement
  obtain rfl := List.mem_singleton.1 hstatement
  exact ⟨Identifier.wellFormed_of_name name, OtherMembers.avoids_empty _⟩

/-- The embedding of a well-formed program is well-formed. -/
theorem Embedding.ofProgram_wellFormed {program : Program} (h : program.WellFormed) :
    (Embedding.ofProgram program).WellFormed := by
  refine ⟨?_, OtherMembers.avoids_empty _⟩
  intro fragment hfragment
  obtain rfl := Option.some.inj hfragment
  exact h

end Estree

/-! ### Made nodes and attributes -/

namespace Mdast

/-- An attribute that is made from texts, with one constructor for each function that makes one. -/
inductive Attribute.Made : Attribute → Prop where
  | literal (name : String) (value : Option String) : Made (.literal name value)
  | identifier (name reference : String) : Made (.identifier name reference)

/-- Attributes that are made are well-formed: they have no other members, and the program in one is
the reference to a name. -/
theorem Attribute.Made.wellFormed {attr : Attribute} (h : attr.Made) : attr.WellFormed := by
  cases h with
  | literal name value =>
      refine ⟨?_, OtherMembers.avoids_empty _⟩
      intro found hfound
      obtain ⟨text, -, rfl⟩ := Option.map_eq_some_iff.1 hfound
      trivial
  | identifier name reference =>
      refine ⟨?_, OtherMembers.avoids_empty _⟩
      intro found hfound
      obtain rfl := Option.some.inj hfound
      refine ⟨?_, OtherMembers.avoids_empty _⟩
      intro data hdata
      obtain rfl := Option.some.inj hdata
      exact Estree.Embedding.ofProgram_wellFormed (Estree.Program.reference_wellFormed reference)

/-- A node that is made from well-formed parts, with one constructor for each function that makes
one. -/
inductive Node.Made : Node → Prop where
  | text (value : String) : Made (.text value)
  | group (kind : Grouping) {children : List Node} (h : ∀ child ∈ children, child.WellFormed) :
      Made (.group kind children)
  | heading (depth : UInt8) {children : List Node} (h : ∀ child ∈ children, child.WellFormed) :
      Made (.heading depth children)
  | link (url : String) {children : List Node} (h : ∀ child ∈ children, child.WellFormed) :
      Made (.link url children)
  | image (url alt : String) : Made (.image url alt)
  | titledImage (url alt title : String) : Made (.titledImage url alt title)
  | list (ordered : Bool) {children : List Node} (h : ∀ child ∈ children, child.WellFormed) :
      Made (.list ordered children)
  | listItem {children : List Node} (h : ∀ child ∈ children, child.WellFormed) :
      Made (.listItem children)
  | thematicBreak : Made .thematicBreak
  | defaultImport (binding source : String) : Made (.defaultImport binding source)
  | textElement (name : String) {attributes : List Attribute} {children : List Node}
      (hattributes : ∀ attr ∈ attributes, attr.WellFormed)
      (h : ∀ child ∈ children, child.WellFormed) : Made (.textElement name attributes children)

/-- A leaf of a known type is well-formed if its content is and its other members avoid its
fields. -/
theorem Leaf.node_wellFormed {content : Leaf} {others : OtherMembers} {kind : LeafKind}
    (hkind : content.variant? = some kind) (hcontent : content.WellFormed)
    (hothers : others.Avoids content.fieldNames) : (Node.leaf content others).WellFormed :=
  .leaf hcontent hothers fun hnone => by
    rw [hkind] at hnone
    cases hnone

/-- A branch of a known type is well-formed if its content and its children are and its other
members avoid its fields. -/
theorem Branch.node_wellFormed {content : Branch} {others : OtherMembers} {children : List Node}
    {kind : BranchKind} (hkind : content.variant? = some kind) (hcontent : content.WellFormed)
    (hothers : others.Avoids content.fieldNames) (h : ∀ child ∈ children, child.WellFormed) :
    (Node.branch content others children).WellFormed :=
  .branch hcontent hothers (fun hnone => by
    rw [hkind] at hnone
    cases hnone) h

/-- Nodes that are made are well-formed. The members that they get beside their fields are named
like no field of theirs. -/
theorem Node.Made.wellFormed {node : Node} (h : node.Made) : node.WellFormed := by
  -- The keys of the other members are known, so it is decided that they are no typed fields.
  have hempty (typed : List String) := OtherMembers.avoids_empty typed
  cases h with
  | text value => exact Leaf.node_wellFormed rfl trivial (hempty _)
  | group kind h => exact Branch.node_wellFormed rfl trivial (hempty _) h
  | heading depth h => exact Branch.node_wellFormed rfl trivial (hempty _) h
  | link url h =>
      exact Branch.node_wellFormed rfl trivial
        ((hempty ["url", "children"]).set _ (by decide)) h
  | image url alt =>
      exact Leaf.node_wellFormed rfl trivial
        (((hempty ["url"]).set _ (by decide)).set _ (by decide))
  | titledImage url alt title =>
      exact Leaf.node_wellFormed rfl trivial
        (((hempty ["url"]).set _ (by decide)).set _ (by decide))
  | list ordered h =>
      exact Branch.node_wellFormed rfl trivial
        ((((hempty ["children"]).set _ (by decide)).set _ (by decide)).set _ (by decide)) h
  | listItem h =>
      exact Branch.node_wellFormed rfl trivial
        (((hempty ["children"]).set _ (by decide)).set _ (by decide)) h
  | thematicBreak => exact Leaf.node_wellFormed rfl trivial (hempty _)
  | defaultImport binding source =>
      refine Leaf.node_wellFormed rfl ?_ (hempty _)
      intro embedding hembedding
      obtain rfl := Option.some.inj hembedding
      exact Estree.Embedding.ofProgram_wellFormed
        (Estree.Program.defaultImport_wellFormed binding source)
  | textElement name hattributes h => exact Branch.node_wellFormed rfl hattributes (hempty _) h

/-! ### The pass -/

/-- Whether the written form of a branch fits a typed node does not depend on which nodes its
children are, as long as they are read back as nodes. -/
theorem Node.FitsNoType.withChildren {content : Branch} {others : OtherMembers}
    {children children' : List Node} (hothers : others.Avoids content.fieldNames)
    (h : (Node.branch content others children).FitsNoType)
    (hchildren : ∀ child ∈ children, child.WellFormed)
    (hchildren' : ∀ child ∈ children', child.WellFormed) :
    (Node.branch content others children').FitsNoType := by
  intro members' heq'
  obtain ⟨members, heq, -, hold⟩ := Node.branch_written hothers children
  obtain ⟨written, hwritten, -, hold'⟩ := Node.branch_written hothers children'
  obtain rfl : written = members' := Json.object.inj (hwritten.symm.trans heq')
  have hfield := Node.childField_of_holds hold <| Node.allOfJson?_written_self fun child hchild =>
    Node.ofJson?_toJson (hchildren child hchild)
  have hfield' := Node.childField_of_holds hold' <| Node.allOfJson?_written_self fun child hchild =>
    Node.ofJson?_toJson (hchildren' child hchild)
  -- The two written forms differ in their children only.
  have hlookup : ∀ key, key ≠ "children" → written.last? key = members.last? key := by
    intro key hkey
    rw [Node.toJson, normalize_object] at heq hwritten
    rw [← Json.object.inj heq, ← Json.object.inj hwritten, last?_canonical, last?_canonical]
    simp [hkey.symm]
  have hnone := h members heq
  rw [hfield] at hnone
  rw [hfield']
  exact Node.typed?_congr hold.sorted hlookup hnone

/-- What stands in the places of the leaves of a well-formed node makes a well-formed node again,
if it is well-formed itself. -/
theorem Node.WellFormed.mapLeaves {f : Leaf → OtherMembers → Node}
    (hf : ∀ content others, (Node.leaf content others).WellFormed → (f content others).WellFormed)
    {node : Node} (h : node.WellFormed) : (node.mapLeaves f).WellFormed := by
  induction h with
  | leaf hcontent hothers hunknown => exact hf _ _ (.leaf hcontent hothers hunknown)
  | @branch content others children hcontent hothers hunknown hchildren ih =>
      have hmapped : ∀ child ∈ Node.mapAllLeaves f children, child.WellFormed := by
        intro child hchild
        rw [Node.mapAllLeaves_eq_map] at hchild
        obtain ⟨child, hmem, rfl⟩ := List.mem_map.1 hchild
        exact ih child hmem
      rw [Node.mapLeaves]
      exact .branch hcontent hothers
        (fun hvariant => (hunknown hvariant).withChildren hothers hchildren hmapped) hmapped

end Mdast

/-- The element that shows an image is well-formed, because it is made of made attributes. -/
theorem imageElement_wellFormed (image : OtherMembers) (name : String) :
    (imageElement image name).WellFormed := by
  rw [imageElement_eq]
  refine (Node.Made.textElement "img" ?_ (by simp)).wellFormed
  intro attr hattr
  rcases List.mem_append.1 hattr with hattr | hattr
  · rcases List.mem_cons.1 hattr with rfl | hattr
    · exact (Attribute.Made.literal _ _).wellFormed
    · obtain rfl := List.mem_singleton.1 hattr
      exact (Attribute.Made.identifier _ _).wellFormed
  · obtain ⟨title, -, rfl⟩ := List.mem_map.1 hattr
    exact (Attribute.Made.literal _ _).wellFormed

/-- What a pass puts in the place of a well-formed leaf is well-formed. -/
theorem PassSettings.showLeaf_wellFormed (settings : PassSettings) (imports : List String)
    (content : Leaf) (others : OtherMembers) (h : (Node.leaf content others).WellFormed) :
    (settings.showLeaf imports content others).WellFormed := by
  cases content with
  | image url =>
      rw [PassSettings.showLeaf_image]
      cases settings.target? url with
      | none => exact h
      | some target => exact imageElement_wellFormed others _
  | _ => exact h

/-- The pass makes a well-formed document of a well-formed one. What it makes is well-formed
whatever the document is, and what it keeps was so before. -/
theorem importImages_wellFormed (settings : PassSettings) {root : Root} (h : root.WellFormed) :
    (importImages settings root).WellFormed := by
  obtain ⟨hchildren, hothers⟩ := h
  rw [importImages_eq]
  refine ⟨?_, hothers⟩
  intro node hnode
  -- A new node is one of the import statements or stands in the place of an old one.
  rcases List.mem_append.1 hnode with himport | hshown
  · obtain ⟨index, hindex, rfl⟩ := List.mem_mapIdx.1 himport
    exact (Node.Made.defaultImport _ _).wellFormed
  · rw [Node.mapAllLeaves_eq_map] at hshown
    obtain ⟨node, hmem, rfl⟩ := List.mem_map.1 hshown
    exact (hchildren node hmem).mapLeaves (settings.showLeaf_wellFormed _)

/-! ### The result -/

/-- A well-formed document is read back from its written form, and every node in it is written with
its kind as its type. The parts that documents are made of are well-formed, and the pass keeps
documents well-formed. -/
theorem wellFormed_read_back :
    (∀ root : Root, root.WellFormed →
      Root.ofJson root.toJson.normalize = .ok root
        ∧ ∀ path node, Tree.nodeAt path root.children = .ok node →
            Document.declaredType? node.toJson.normalize = some node.kind)
      ∧ (∀ node : Node, node.Made → node.WellFormed)
      ∧ (∀ attr : Attribute, attr.Made → attr.WellFormed)
      ∧ ∀ (settings : PassSettings) (root : Root), root.WellFormed →
          (importImages settings root).WellFormed := by
  refine ⟨?_, fun node h => h.wellFormed, fun attr h => h.wellFormed,
    fun settings root h => importImages_wellFormed settings h⟩
  intro root h
  refine ⟨Root.ofJson_toJson h, ?_⟩
  intro path node hpath
  refine Node.declaredType?_toJson (Tree.nodeAt_of_forall ?_ h.1 hpath)
  intro content others children hbranch
  cases hbranch with
  | branch hcontent hothers hunknown hchildren => exact hchildren

/-- A document with an unknown branch around an image and a program without a typed form. -/
theorem wellFormed_read_back_note :
    let note : Node :=
      .branch (.unknown "note") (OtherMembers.empty.set "tone" (.string "calm"))
        [.image "a.png" "a",
          .leaf (.esm "x" (some { fragment := some (.untyped (.ofJson (.string "x"))) })) .empty]
    let root : Root := { children := [note] }
    root.WellFormed
      ∧ Root.ofJson root.toJson.normalize = .ok root
      ∧ (importImages {} root).WellFormed := by
  intro note root
  have himage : (Node.image "a.png" "a").WellFormed := wellFormed_read_back.2.1 _ (.image _ _)
  have hprogram : (Estree.Fragment.untyped (.ofJson (.string "x"))).WellFormed :=
    ⟨by simp [CanonicalJson.ofJson, Json.normalize], fun p hp => by cases hp⟩
  have hstatement : (Node.leaf
      (.esm "x" (some { fragment := some (.untyped (.ofJson (.string "x"))) }))
      .empty).WellFormed := by
    refine Leaf.node_wellFormed rfl ?_ (OtherMembers.avoids_empty _)
    intro embedding hembedding
    obtain rfl := Option.some.inj hembedding
    refine ⟨?_, OtherMembers.avoids_empty _⟩
    intro fragment hfragment
    obtain rfl := Option.some.inj hfragment
    exact hprogram
  have hothers : (OtherMembers.empty.set "tone" (.string "calm")).Avoids ["children"] := by
    decide
  have hnote : note.WellFormed := by
    refine .branch trivial hothers (fun _ => ?_) (by simp [himage, hstatement])
    exact Node.fitsNoType_of_lookup hothers rfl
  have hroot : root.WellFormed := ⟨by simp [root, hnote], OtherMembers.avoids_empty _⟩
  exact ⟨hroot, (wellFormed_read_back.1 root hroot).1,
    wellFormed_read_back.2.2.2 {} root hroot⟩

end ImageImports
