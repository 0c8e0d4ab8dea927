import ImageImports.Proofs.Image.Bindings
import ImageImports.Proofs.Mdast.RoundTrip

/-!
# `ImageImports.Proofs.Document.Rereading`: documents that are read, written and read again

Writing a document drops the null in the place of the children of an unknown node. That null is all
that keeps an element from being typed whose name and attributes fit
(`Node.children_null_of_element?`), because an element may leave its children out but not give null
for them. So such a node is unknown when it is read first and an element when what was written is
read again. `Leaf.element?` tells these nodes from the others, and `Root.restored` puts the elements
in their places. A document in which no node gives null for its children is read back as it is
(`Root.ofJson_toJson_of_noNullChildren`).

Nothing else changes, and it changes only once. Whatever was read from a value in normal form is
`AsRead`: all its parts are well-formed, and its unknown nodes fit no type apart from the elements
just described. From there the written form is read as the restored document
(`Node.ofJson?_toJson_restored`), and restoring twice is restoring once
(`Root.restored_restored`).

Main statement: `Root.ofJson_toJson_restored`.
-/

set_option autoImplicit false

namespace ImageImports.Mdast

open Json Members ImageImports.Tree

/-! ### Elements without children -/

/-- The element that an unknown leaf is read as once it is written. Its type is that of an element,
and its other members fit the name and the attributes of one. -/
def Leaf.element? (content : Leaf) (others : OtherMembers) : Option Node :=
  match content with
  | .unknown type =>
      match NodeKind.names.lookup type with
      | some (.branch (.element placement)) =>
          match (BranchKind.element placement).read others.entries with
          | .ok element =>
              some (.branch element
                (.ofMembers (BranchKind.element placement).fieldNames others.entries) [])
          | .error _ => none
      | _ => none
  | _ => none

/-- The leaf, or the element that it is read as once it is written. An unknown node loses null
children when it is written, and an element may do without children: so what was unknown for the
null alone fits an element afterwards. -/
def Leaf.restored (content : Leaf) (others : OtherMembers) : Node :=
  (content.element? others).getD (.leaf content others)

/-- The node with an element in the place of every leaf that is read as one once it is written.
Branches stay, since the children of a branch are never null. -/
def Node.restored (node : Node) : Node := node.mapLeaves Leaf.restored

/-- The document with an element in the place of every leaf that is read as one once it is
written. -/
def Root.restored (root : Root) : Root :=
  { root with children := Node.mapAllLeaves Leaf.restored root.children }

/-- What an unknown leaf has to be to be restored. -/
theorem Leaf.element?_eq_some {content : Leaf} {others : OtherMembers} {node : Node}
    (h : content.element? others = some node) :
    ∃ type placement element,
      content = .unknown type
        ∧ NodeKind.names.lookup type = some (.branch (.element placement))
        ∧ (BranchKind.element placement).read others.entries = .ok element
        ∧ node = .branch element
            (.ofMembers (BranchKind.element placement).fieldNames others.entries) [] := by
  unfold element? at h
  split at h
  · rename_i type
    split at h
    · rename_i placement hlookup
      cases hread : (BranchKind.element placement).read others.entries with
      | error complaint => simp [hread] at h
      | ok element =>
          rw [hread] at h
          exact ⟨type, placement, element, rfl, hlookup, hread, (Option.some.inj h).symm⟩
    · cases h
  · cases h

/-! ### Restoring twice -/

/-- What a leaf is restored to stays as it is when it is restored again. -/
theorem Leaf.restored_mapLeaves (content : Leaf) (others : OtherMembers) :
    (content.restored others).mapLeaves Leaf.restored = content.restored others := by
  unfold restored
  cases helement : content.element? others with
  | none =>
      show (content.element? others).getD (.leaf content others) = _
      rw [helement]
  | some node =>
      -- An element that was restored has no children, so there is nothing left to restore.
      obtain ⟨type, placement, element, -, -, -, rfl⟩ := Leaf.element?_eq_some helement
      rfl

mutual

/-- A node that was restored stays as it is when it is restored again. -/
theorem Node.restored_mapLeaves : ∀ node : Node,
    (node.mapLeaves Leaf.restored).mapLeaves Leaf.restored = node.mapLeaves Leaf.restored
  | .leaf content others => content.restored_mapLeaves others
  | .branch content others children => by
      rw [Node.mapLeaves, Node.mapLeaves, Node.restored_mapAllLeaves children]

/-- Nodes that were restored stay as they are when they are restored again. -/
theorem Node.restored_mapAllLeaves : ∀ nodes : List Node,
    Node.mapAllLeaves Leaf.restored (Node.mapAllLeaves Leaf.restored nodes)
      = Node.mapAllLeaves Leaf.restored nodes
  | [] => rfl
  | node :: rest => by
      rw [Node.mapAllLeaves, Node.mapAllLeaves, Node.restored_mapLeaves node,
        Node.restored_mapAllLeaves rest]

end

/-- Restoring a document twice is restoring it once. An element is a branch, and what is restored
are leaves only, so there is nothing left to be restored. -/
theorem Root.restored_restored (root : Root) : root.restored.restored = root.restored := by
  simp only [Root.restored, Node.restored_mapAllLeaves]

/-! ### Documents without such elements -/

/-- A document is its own restored form exactly if no leaf in it is read as an element once it is
written. -/
theorem Root.restored_eq_self_iff (root : Root) :
    root.restored = root
      ↔ ∀ path content others, nodeAt path root.children = .ok (.leaf content others) →
          content.element? others = none := by
  constructor
  -- A leaf that is read as an element would be a branch in the restored document, at the same path.
  · intro h path content others hpath
    have hmapped := nodeAt_mapAllLeaves Leaf.restored hpath
    have hchildren : Node.mapAllLeaves Leaf.restored root.children = root.children :=
      congrArg Root.children h
    rw [hchildren, hpath] at hmapped
    have hleaf : Node.leaf content others = content.restored others := Except.ok.inj hmapped
    unfold Leaf.restored at hleaf
    cases helement : content.element? others with
    | none => rfl
    | some node =>
        obtain ⟨type, placement, element, -, -, -, rfl⟩ := Leaf.element?_eq_some helement
        rw [helement] at hleaf
        cases hleaf
  · intro h
    have hchildren := Node.mapAllLeaves_eq_self (f := Leaf.restored) root.children
      fun path content others hpath => by
        rw [Leaf.restored, h path content others hpath]
        rfl
    rw [Root.restored, hchildren]

/-! ### Parts that were read -/

section
variable {members : Members} {key : String}

/-- An embedding that was read from a member in normal form is well-formed. -/
theorem wellFormed_of_data (hnormal : members.NormalValues) {data : Option Estree.Embedding}
    (h : members.optional key Estree.Embedding.ofJson = .ok data) :
    ∀ embedding ∈ data, embedding.WellFormed := by
  intro embedding hembedding
  obtain ⟨value, hvalue, -, hread⟩ := exists_of_mem_optional h hembedding
  exact Estree.Embedding.wellFormed_of_ofJson (hnormal _ _ hvalue) hread

/-- An expression that was read from members in normal form is well-formed. -/
theorem EmbeddedExpression.wellFormed_of_readFrom (hnormal : members.NormalValues)
    {e : EmbeddedExpression} (h : e.ReadFrom members) : e.WellFormed := by
  obtain ⟨-, hdata⟩ := h
  exact ⟨wellFormed_of_data hnormal hdata, OtherMembers.avoids_ofMembers _ _⟩

/-- The value of an attribute that was read from a value in normal form is well-formed. -/
theorem AttributeValue.wellFormed_of_ofJson {value : Json} (hnormal : value.normalize = value)
    {read : AttributeValue} (h : AttributeValue.ofJson value = .ok read) : read.WellFormed := by
  cases readFrom_of_ofJson h with
  | literal text => trivial
  | expression hexpression =>
      exact EmbeddedExpression.wellFormed_of_readFrom (normalValues_of_normal hnormal) hexpression

/-- An attribute that was read from a value in normal form is well-formed. Its type is taken out of
its members first, which keeps the others in normal form. -/
theorem Attribute.wellFormed_of_ofJson {form : TagForm} {value : Json}
    (hnormal : value.normalize = value) {attr : Attribute}
    (h : Attribute.ofJson form value = .ok attr) : attr.WellFormed := by
  cases readFrom_of_ofJson h with
  | named htagged hattr =>
      obtain ⟨members, -, rfl, -, -, rfl⟩ := readTagged_ok htagged
      have hkept := (normalValues_of_normal hnormal).keep (· != "type")
      obtain ⟨-, hvalue⟩ := hattr
      refine ⟨fun found hfound => ?_, OtherMembers.avoids_ofMembers _ _⟩
      obtain ⟨inside, hinside, -, hread⟩ := exists_of_mem_optional hvalue hfound
      exact AttributeValue.wellFormed_of_ofJson (hkept _ _ hinside) hread
  | spread htagged hexpression =>
      obtain ⟨members, -, rfl, -, -, rfl⟩ := readTagged_ok htagged
      have hkept := (normalValues_of_normal hnormal).keep (· != "type")
      exact EmbeddedExpression.wellFormed_of_readFrom hkept hexpression

/-- The content of a leaf that was read from members in normal form is well-formed. Only the
programs in it can fail to be so. -/
theorem Leaf.wellFormed_of_readFrom (hnormal : members.NormalValues) {content : Leaf}
    (h : content.ReadFrom members) : content.WellFormed := by
  cases content with
  | esm value data => exact wellFormed_of_data hnormal h.2
  | expression placement value data => exact wellFormed_of_data hnormal h.2
  | _ => trivial

/-- The content of a branch that was read from members in normal form is well-formed. Only the
attributes of an element can fail to be so. -/
theorem Branch.wellFormed_of_readFrom (hnormal : members.NormalValues) {content : Branch}
    (h : content.ReadFrom members) : content.WellFormed := by
  cases content with
  | element placement name attributes =>
      rcases defaulted_ok h.2 with ⟨-, rfl⟩ | ⟨value, hvalue, hread⟩
      · show ∀ attr ∈ ([] : List Attribute), attr.WellFormed
        simp
      · obtain ⟨values, rfl, hitems⟩ := readList_ok hread
        have hvalues := hnormal _ _ hvalue
        exact forall_mem_of_readItems
          (fun item hitem _ => Attribute.wellFormed_of_ofJson (normal_of_mem hvalues hitem)) hitems
  | _ => trivial

end

/-! ### Nodes that were read -/

/-- A node as it is read from a value in normal form. It is well-formed but for unknown leaves that
are read as elements once they are written. -/
inductive Node.AsRead : Node → Prop where
  | leaf {content : Leaf} {others : OtherMembers} (hcontent : content.WellFormed)
      (hothers : others.Avoids content.fieldNames)
      (hunknown : content.variant? = none → content.element? others = none →
        (Node.leaf content others).FitsNoType) :
      AsRead (.leaf content others)
  | branch {content : Branch} {others : OtherMembers} {children : List Node}
      (hcontent : content.WellFormed) (hothers : others.Avoids content.fieldNames)
      (hunknown : content.variant? = none → (Node.branch content others children).FitsNoType)
      (hchildren : ∀ child ∈ children, AsRead child) :
      AsRead (.branch content others children)

section
variable {members : Members} {others : OtherMembers}

/-- Other members beside a list of children or a null are the members themselves, the type and the
children excepted. -/
theorem last?_entries_of_ofMembers (hnormal : members.NormalValues)
    (h : OtherMembers.ofMembers ["children"] members = others) {key : String}
    (htype : key ≠ "type") (hchildren : key ≠ "children") :
    others.entries.last? key = members.last? key := by
  have hget : others.get? key = (members.last? key).map Json.normalize := by
    rw [← h, OtherMembers.get?_ofMembers, if_neg (by simp [htype, hchildren])]
  cases hlast : members.last? key with
  | none =>
      rw [hlast] at hget
      exact hget
  | some value =>
      rw [hlast, Option.map_some, hnormal key value hlast] at hget
      exact hget

/-- An object without children whose other members are those of a restored leaf is the element that
the leaf is restored to. -/
theorem Node.typed?_of_element? {type : String} {node : Node} (hsorted : members.Sorted)
    (htype : members.last? "type" = some (.string type))
    (hlast : ∀ key, key ≠ "type" → key ≠ "children" →
      others.entries.last? key = members.last? key)
    (h : (Leaf.unknown type).element? others = some node) :
    Node.typed? members .absent = some node := by
  obtain ⟨_, placement, element, ⟨⟩, hlookup, hread, rfl⟩ := Leaf.element?_eq_some h
  have htag : members.required "type" (readTag .nameOrPosition NodeKind.names)
      = .ok (.branch (.element placement)) :=
    hsorted.required htype (by rw [readTag, hlookup])
  have hfields := BranchKind.read_congr hread hsorted hlast
  -- What is left beside the fields of an element is the same in both.
  have hrest : OtherMembers.ofMembers (BranchKind.element placement).fieldNames members
      = OtherMembers.ofMembers (BranchKind.element placement).fieldNames others.entries := by
    refine OtherMembers.ext_get? fun key => ?_
    rw [OtherMembers.get?_ofMembers, OtherMembers.get?_ofMembers]
    split
    · rfl
    · rename_i hkey
      simp only [BranchKind.fieldNames, List.mem_cons, List.not_mem_nil, or_false, not_or] at hkey
      rw [hlast key hkey.1 hkey.2.2.2]
  rw [Node.typed?, htag]
  simp [hfields, hrest, BranchKind.childrenOptional]

/-- A leaf that is restored is read as its element once it is written. -/
theorem Node.ofJson?_toJson_element {content : Leaf} {node : Node}
    (hothers : others.Avoids content.fieldNames) (h : content.element? others = some node) :
    Node.ofJson? (Node.leaf content others).toJson.normalize = some node := by
  obtain ⟨type, -, -, rfl, -⟩ := Leaf.element?_eq_some h
  obtain ⟨written, heq, htype, hold⟩ := Node.leaf_written hothers
  have hnormal : written.NormalValues :=
    normalValues_of_normal (by rw [← heq, normalize_normalize])
  have habsent : Node.childField written = .absent := by
    rw [Node.childField_of_sorted hold.sorted, hold.lookup "children" (.head _)]
    rfl
  have htyped := Node.typed?_of_element? hold.sorted htype
    (fun key => last?_entries_of_ofMembers hnormal hold.others_eq) h
  rw [heq, Node.ofJson?, Node.assemble?, habsent, htyped]

end

/-- What was read is read as the restored node once it is written. It goes by the parts that are
well-formed and not by the text that was read, so it serves after a pass, too. -/
theorem Node.ofJson?_toJson_restored {node : Node} (h : node.AsRead) :
    Node.ofJson? node.toJson.normalize = some node.restored := by
  induction h with
  | @leaf content others hcontent hothers hunknown =>
      show _ = some (content.restored others)
      unfold Leaf.restored
      cases helement : content.element? others with
      | none =>
          have hwellFormed : (Node.leaf content others).WellFormed :=
            .leaf hcontent hothers fun hvariant => hunknown hvariant helement
          exact Node.ofJson?_toJson hwellFormed
      | some element => exact Node.ofJson?_toJson_element hothers helement
  | @branch content others children hcontent hothers hunknown hchildren ih =>
      have hall := Node.allOfJson?_written ih
      rw [Node.ofJson?_branch_written hcontent hothers hunknown hall, Node.restored,
        Node.mapLeaves, Node.mapAllLeaves_eq_map]
      rfl

/-! ### Reading -/

section
variable {members : Members}

/-- An unknown leaf that was read is restored, or its written form fits no type. The written form
differs from what was read in the children only, and these count for the types that are branches. -/
theorem Node.asRead_unknown_leaf (hsorted : members.Sorted) (hnormal : members.NormalValues)
    {field : ChildField} {type : String}
    (htype : members.last? "type" = some (.string type))
    (htyped : Node.typed? members field = none) :
    (Node.leaf (.unknown type) (.ofMembers ["children"] members)).AsRead := by
  have hothers := OtherMembers.avoids_ofMembers ["children"] members
  refine .leaf trivial hothers fun _ helement written heq => ?_
  obtain ⟨found, hfound, hfoundType, hold⟩ := @Node.leaf_written (.unknown type) _ hothers
  obtain rfl : found = written := Json.object.inj (hfound.symm.trans heq)
  have hlast : ∀ key, key ≠ "type" → key ≠ "children" →
      found.last? key
        = (OtherMembers.ofMembers ["children"] members).entries.last? key :=
    fun key htype hchildren => (last?_entries_of_ofMembers
      (normalValues_of_normal (by rw [← heq, normalize_normalize])) hold.others_eq htype
      hchildren).symm
  cases hwritten : Node.typed? found (Node.childField found) with
  | none => rfl
  | some node =>
      exfalso
      rcases Node.typed?_eq_some hwritten with ⟨kind, content, htag, hread, -⟩
        | ⟨kind, content, nodes, htag, hread, hfield, -⟩
      · -- A leaf would have been one before, as its children do not count.
        have htag' := hsorted.required_congr (hfoundType.trans htype.symm) htag
        have hread' := LeafKind.read_congr hread hsorted fun key htype hchildren =>
          (hlast key htype hchildren).trans
            (last?_entries_of_ofMembers hnormal rfl htype hchildren)
        simp [Node.typed?, htag', hread'] at htyped
      · -- A branch without a list of children is an element, and that would be restored.
        have habsent : Node.childField found = .absent := by
          rw [Node.childField_of_sorted hold.sorted, hold.lookup "children" (.head _)]
          rfl
        rw [habsent] at hfield
        rcases hfield with hnodes | ⟨-, hoptional, -⟩
        · cases hnodes
        · obtain ⟨placement, rfl⟩ : ∃ placement, kind = .element placement := by
            cases kind with
            | element placement => exact ⟨placement, rfl⟩
            | _ => cases hoptional
          have hlookup : NodeKind.names.lookup type = some (.branch (.element placement)) := by
            obtain ⟨tag, htagValue, htagRead⟩ := required_ok htag
            obtain rfl : Json.string type = tag :=
              Option.some.inj (hfoundType.symm.trans htagValue)
            simp only [readTag] at htagRead
            cases hname : NodeKind.names.lookup type with
            | none => simp [hname] at htagRead
            | some kind => simpa [hname] using htagRead
          have hread' := BranchKind.read_congr hread
            (OtherMembers.ofMembers ["children"] members).sorted hlast
          simp [Leaf.element?, hlookup, hread'] at helement

/-- An unknown branch that was read fits no type once it is written. The written form differs from
what was read in the nodes that are its children only. -/
theorem Node.asRead_unknown_branch (hsorted : members.Sorted) (hnormal : members.NormalValues)
    {type : String} {nodes : List Node} (htype : members.last? "type" = some (.string type))
    (htyped : Node.typed? members (.nodes nodes) = none) (hnodes : ∀ node ∈ nodes, node.AsRead) :
    (Node.branch (.unknown type) (.ofMembers ["children"] members) nodes).AsRead := by
  have hothers := OtherMembers.avoids_ofMembers ["children"] members
  refine .branch trivial hothers (fun _ written heq => ?_) hnodes
  obtain ⟨found, hfound, hfoundType, hold⟩ :=
    @Node.branch_written (.unknown type) _ hothers nodes
  obtain rfl : found = written := Json.object.inj (hfound.symm.trans heq)
  have hlast : ∀ key, key ≠ "children" → found.last? key = members.last? key := by
    intro key hchildren
    by_cases hkey : key = "type"
    · rw [hkey]
      exact hfoundType.trans htype.symm
    · have hfoundNormal : found.NormalValues :=
        normalValues_of_normal (by rw [← heq, normalize_normalize])
      rw [← last?_entries_of_ofMembers hfoundNormal hold.others_eq hkey hchildren,
        last?_entries_of_ofMembers hnormal rfl hkey hchildren]
  rw [Node.childField_of_holds hold (Node.allOfJson?_written fun node hnode =>
    Node.ofJson?_toJson_restored (hnodes node hnode))]
  exact Node.typed?_congr hsorted hlast htyped

/-- It is a null in the place of the children that keeps a leaf from being an element at once. A
document without such a null is read back as it is, because this is the only way to an element that
is not typed. -/
theorem Node.children_null_of_element? (hsorted : members.Sorted) (hnormal : members.NormalValues)
    {content : Leaf} {others : OtherMembers}
    (h : Node.ofJson? (.object members) = some (.leaf content others)) {element : Node}
    (helement : content.element? others = some element) :
    members.last? "children" = some .null := by
  obtain ⟨type, -, -, rfl, -⟩ := Leaf.element?_eq_some helement
  cases Node.readAs_of_ofJson? h with
  | typedLeaf _ hread =>
      -- What is typed is not unknown.
      cases (LeafKind.read_ok_iff.1 hread).1
  | unknownLeaf htyped htype hfield =>
      rcases hfield with habsent | hnull
      · have hagain := Node.typed?_of_element? hsorted htype
          (fun key => last?_entries_of_ofMembers hnormal rfl) helement
        rw [habsent, hagain] at htyped
        cases htyped
      · exact (Node.childField_eq_null_iff hsorted).1 hnull

end

/-- The children of a node that was read are the nodes that the items of its list were read as. An
element that leaves its children out has none. -/
theorem Node.exists_item_of_mem_children {members : Members} {content : Branch}
    {others : OtherMembers} {children : List Node} (hsorted : members.Sorted)
    (h : Node.ofJson? (.object members) = some (.branch content others children)) {child : Node}
    (hchild : child ∈ children) :
    ∃ items item, members.last? "children" = some (.array items) ∧ item ∈ items
      ∧ Node.ofJson? item = some child := by
  have hfield : Node.childField members = .nodes children := by
    cases Node.readAs_of_ofJson? h with
    | typedBranch _ _ hfield =>
        rcases hfield with hfield | ⟨-, -, rfl⟩
        · exact hfield
        · cases hchild
    | unknownBranch _ _ hfield => exact hfield
  obtain ⟨items, hitems, hall⟩ := (Node.childField_eq_nodes_iff hsorted).1 hfield
  obtain ⟨item, hitem, hread⟩ := Node.exists_mem_of_allOfJson? hall hchild
  exact ⟨items, item, hitems, hitem, hread⟩

/-- Whatever is read from a value in normal form is as `AsRead` says. -/
theorem Node.asRead_of_ofJson? (value : Json) : value.normalize = value →
    ∀ node, Node.ofJson? value = some node → node.AsRead := by
  induction value using Json.induction_children with
  | step value ih =>
      intro hnormal node h
      cases value with
      | object members =>
          have hsorted := sorted_of_normal hnormal
          have hvalues := normalValues_of_normal hnormal
          -- Every child was read from an item of a list in normal form.
          have hnodes : ∀ content others nodes, node = .branch content others nodes →
              ∀ child ∈ nodes, child.AsRead := by
            rintro content others nodes rfl child hchild
            obtain ⟨items, item, hitems, hitem, hread⟩ :=
              Node.exists_item_of_mem_children hsorted h hchild
            exact ih members items rfl hitems item hitem
              (normal_of_mem (hvalues _ _ hitems) hitem) child hread
          cases Node.readAs_of_ofJson? h with
          | typedLeaf _ hread =>
              obtain ⟨hvariant, hfields⟩ := LeafKind.read_ok_iff.1 hread
              refine .leaf (Leaf.wellFormed_of_readFrom hvalues hfields) ?_ ?_
              · rw [Leaf.fieldNames, hvariant]
                exact OtherMembers.avoids_ofMembers _ _
              · intro hnone
                rw [hvariant] at hnone
                cases hnone
          | @typedBranch kind content nodes _ hread hfield =>
              obtain ⟨hvariant, hfields⟩ := BranchKind.read_ok_iff.1 hread
              refine .branch (Branch.wellFormed_of_readFrom hvalues hfields) ?_ ?_
                (hnodes _ _ _ rfl)
              · rw [Branch.fieldNames, hvariant]
                exact OtherMembers.avoids_ofMembers _ _
              · intro hnone
                rw [hvariant] at hnone
                cases hnone
          | @unknownBranch type nodes htyped htype hfield =>
              rw [hfield] at htyped
              exact Node.asRead_unknown_branch hsorted hvalues htype htyped (hnodes _ _ _ rfl)
          | unknownLeaf htyped htype _ =>
              exact Node.asRead_unknown_leaf hsorted hvalues htype htyped
      | _ => simp [Node.ofJson?] at h

/-- The nodes of a document that was read, and what its other members avoid. -/
theorem Root.asRead_of_ofJson {value : CanonicalJson} {root : Root}
    (h : Root.ofJson value.value = .ok root) :
    (∀ node ∈ root.children, node.AsRead) ∧ root.others.Avoids ["children"] := by
  obtain ⟨members, items, hvalue, hlisted, hall, hothers⟩ := Root.ofJson_ok h
  have hnormal := value.normal
  rw [hvalue] at hnormal
  constructor
  · intro node hnode
    obtain ⟨item, hitem, hread⟩ := Node.exists_mem_of_allOfJson? hall hnode
    have hitems := normalValues_of_normal hnormal _ _ hlisted
    exact Node.asRead_of_ofJson? item (normal_of_mem hitems hitem) node hread
  · rw [hothers]
    exact OtherMembers.avoids_ofMembers _ _

/-! ### Documents without null children -/

/-- No node of a tree gives null for its children: not the object itself and, in turn, none that it
lists as its children. -/
inductive NoNullChildren : Json → Prop where
  | node {members : Members} (hnull : members.last? "children" ≠ some .null)
      (hitems : ∀ items, members.last? "children" = some (.array items) →
        ∀ item ∈ items, NoNullChildren item) :
      NoNullChildren (.object members)

/-- Nodes that are their own restored forms stay as they are. -/
theorem Node.mapAllLeaves_restored_eq_self {nodes : List Node}
    (h : ∀ node ∈ nodes, node.restored = node) :
    Node.mapAllLeaves Leaf.restored nodes = nodes := by
  rw [Node.mapAllLeaves_eq_map]
  exact (List.map_congr_left h).trans (List.map_id nodes)

/-- A node is its own restored form if neither it nor a node below it gives null for its children,
because an unknown leaf would be an element already. -/
theorem Node.restored_eq_self_of_noNullChildren {value : Json} (h : NoNullChildren value) :
    value.normalize = value → ∀ node, Node.ofJson? value = some node → node.restored = node := by
  induction h with
  | @node members hnull hitems ih =>
      intro hnormal node hread
      have hsorted := sorted_of_normal hnormal
      have hvalues := normalValues_of_normal hnormal
      cases node with
      | leaf content others =>
          have helement : content.element? others = none := by
            cases helement : content.element? others with
            | none => rfl
            | some element =>
                exact absurd (children_null_of_element? hsorted hvalues hread helement) hnull
          show (content.element? others).getD (.leaf content others) = _
          rw [helement]
          rfl
      | branch content others children =>
          have hchildren := Node.mapAllLeaves_restored_eq_self fun child hchild => by
            obtain ⟨items, item, hlisted, hitem, hread⟩ :=
              exists_item_of_mem_children hsorted hread hchild
            exact ih items hlisted item hitem (normal_of_mem (hvalues _ _ hlisted) hitem) child
              hread
          rw [Node.restored, Node.mapLeaves, hchildren]

/-! ### The result -/

/-- The written form of a document that was read is read as the restored document. -/
theorem Root.ofJson_toJson_of_asRead {root : Root} (hchildren : ∀ node ∈ root.children, node.AsRead)
    (hothers : root.others.Avoids ["children"]) :
    Root.ofJson root.toJson.normalize = .ok root.restored := by
  obtain ⟨members, heq, -, hold⟩ := holds_tagged hothers (by decide) "root"
    [("children", .array (Node.allToJson root.children))] (by simp)
  have hread : members.required "children" Node.listOfJson = .ok root.restored.children := by
    have hall := Node.allOfJson?_written fun child hchild =>
      Node.ofJson?_toJson_restored (hchildren child hchild)
    rw [Root.restored, Node.mapAllLeaves_eq_map]
    exact hold.required _ (.head _) rfl (by rw [Json.normalize, Node.listOfJson, hall]; rfl)
  rw [Root.toJson, List.cons_append, heq]
  simp [Root.ofJson, readRecord, hread, hold.others_eq, Checked.settle, bind, Except.bind,
    Root.restored]

/-- A document in which no node gives null for its children is read back as it is from what is
written for it. -/
theorem Root.ofJson_toJson_of_noNullChildren (value : CanonicalJson) (root : Root)
    (h : Root.ofJson value.value = .ok root) (hnull : NoNullChildren value.value) :
    Root.ofJson root.toJson.normalize = .ok root := by
  have hread := Root.asRead_of_ofJson h
  have hwritten := Root.ofJson_toJson_of_asRead hread.1 hread.2
  obtain ⟨members, items, hvalue, hlisted, hall, -⟩ := Root.ofJson_ok h
  have hnormal := value.normal
  rw [hvalue] at hnormal hnull
  cases hnull with
  | node _ hitems =>
      have hvalues := normalValues_of_normal hnormal _ _ hlisted
      have hchildren := Node.mapAllLeaves_restored_eq_self fun child hchild => by
        obtain ⟨item, hitem, hread⟩ := Node.exists_mem_of_allOfJson? hall hchild
        exact Node.restored_eq_self_of_noNullChildren (hitems items hlisted item hitem)
          (normal_of_mem hvalues hitem) child hread
      have hrestored : root.restored = root := by rw [Root.restored, hchildren]
      rwa [hrestored] at hwritten

/-- Reading is stable under a write up to the elements that are found in the places of unknown
nodes. The written form of every document that was read is read as its restored form. That is the
document itself exactly if no unknown leaf fits an element but for its null children, and in any
case no further write changes it again. -/
theorem Root.ofJson_toJson_restored (value : CanonicalJson) (root : Root)
    (h : Root.ofJson value.value = .ok root) :
    Root.ofJson root.toJson.normalize = .ok root.restored
      ∧ (root.restored = root
        ↔ ∀ path content others, nodeAt path root.children = .ok (.leaf content others) →
            content.element? others = none)
      ∧ Root.ofJson root.restored.toJson.normalize = .ok root.restored := by
  have hreread : ∀ (value : CanonicalJson) (root : Root), Root.ofJson value.value = .ok root →
      Root.ofJson root.toJson.normalize = .ok root.restored := fun value root h =>
    have hread := Root.asRead_of_ofJson h
    Root.ofJson_toJson_of_asRead hread.1 hread.2
  have hwritten := hreread value root h
  have hagain := hreread (.ofJson root.toJson) root.restored hwritten
  rw [Root.restored_restored] at hagain
  exact ⟨hwritten, root.restored_eq_self_iff, hagain⟩

/-- Of two nodes with null children an unknown one stays unknown, and the other becomes the element
that it would have been without the null. -/
theorem Root.ofJson_toJson_restored_note :
    let note := Json.object [("children", .null), ("type", .string "note")]
    let element := Json.object [("children", .null), ("type", .string "mdxJsxTextElement")]
    let value := Json.object [("children", .array [note, element])]
    ∃ root, Root.ofJson value = .ok root
      ∧ Root.ofJson root.toJson.normalize = .ok root.restored
      ∧ root.restored.children
        = [.leaf (.unknown "note") .empty, .branch (.element .text none []) .empty []]
      ∧ Root.ofJson root.restored.toJson.normalize = .ok root.restored := by
  intro note element value
  have hread : Root.ofJson value
      = .ok { children :=
                [.leaf (.unknown "note") .empty, .leaf (.unknown "mdxJsxTextElement") .empty] } :=
    rfl
  have hrestored := Root.ofJson_toJson_restored ⟨value, rfl⟩ _ hread
  exact ⟨_, hread, hrestored.1, rfl, hrestored.2.2⟩

/-- A document that is not read back from its written form. -/
theorem Root.ofJson_toJson_ne :
    ∃ root again,
      Root.ofJson (.object [("children", .array
          [.object [("children", .null), ("type", .string "mdxJsxTextElement")]]),
        ("type", .string "root")]) = .ok root
        ∧ Root.ofJson root.toJson.normalize = .ok again
        ∧ again ≠ root := by
  refine ⟨{ children := [.leaf (.unknown "mdxJsxTextElement") .empty] },
    { children := [.branch (.element .text none []) .empty []] }, rfl, rfl, ?_⟩
  intro h
  cases congrArg Root.children h

end ImageImports.Mdast
