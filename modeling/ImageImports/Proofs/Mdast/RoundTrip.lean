import ImageImports.Document
import ImageImports.Proofs.Estree.RoundTrip
import ImageImports.Proofs.Mdast.Content
import ImageImports.Proofs.Tree.Path

/-!
# `ImageImports.Proofs.Mdast.RoundTrip`: documents are read back as they were written

A node is well-formed (`Node.WellFormed`) when the parts of its content are, when its other members
avoid its typed fields, and when it is not kept as unknown although its written form fits a typed
node. Then its written form is read back as the same node (`Node.ofJson?_toJson`). The induction is
on the derivation that the node is well-formed; what the reader looks at on the way down is given by
`Members.Holds`, so no step goes through the members one by one.
-/

set_option autoImplicit false

namespace ImageImports.Mdast

open Json Members

/-! ### Well-formed attributes -/

/-- The program is well-formed, and the other members avoid the typed fields. -/
def EmbeddedExpression.WellFormed (expression : EmbeddedExpression) : Prop :=
  (∀ data ∈ expression.data, data.WellFormed) ∧ expression.others.Avoids ["value", "data"]

/-- An expression is well-formed. A text always is. -/
def AttributeValue.WellFormed : AttributeValue → Prop
  | .literal _ => True
  | .expression e => e.WellFormed

/-- The value is well-formed, and the other members avoid the typed fields. -/
def NamedAttribute.WellFormed (attr : NamedAttribute) : Prop :=
  (∀ value ∈ attr.value, value.WellFormed) ∧ attr.others.Avoids ["name", "value"]

/-- What the attribute consists of is well-formed. -/
def Attribute.WellFormed : Attribute → Prop
  | .named attr => attr.WellFormed
  | .spread e => e.WellFormed

/-! ### Well-formed nodes -/

/-- The programs in the content are well-formed. Everything else that a leaf holds is read back as
it is in any case. -/
def Leaf.WellFormed : Leaf → Prop
  | .esm _ data => ∀ embedding ∈ data, embedding.WellFormed
  | .expression _ _ data => ∀ embedding ∈ data, embedding.WellFormed
  | _ => True

/-- The attributes in the content are well-formed. Only elements have any. -/
def Branch.WellFormed : Branch → Prop
  | .element _ _ attributes => ∀ attr ∈ attributes, attr.WellFormed
  | _ => True

/-- The written form of a node does not fit any typed node. It is asked of unknown nodes only: one
that would fit is read back as a typed node and not as itself. -/
def Node.FitsNoType (node : Node) : Prop :=
  ∀ members : Members, node.toJson.normalize = .object members →
    Node.typed? members (Node.childField members) = none

/-- A node is well-formed if its parts are, if its other members avoid its typed fields, and if it
is unknown only where its written form fits no typed node. -/
inductive Node.WellFormed : Node → Prop where
  | leaf {content : Leaf} {others : OtherMembers} (hcontent : content.WellFormed)
      (hothers : others.Avoids content.fieldNames)
      (hunknown : content.variant? = none → (Node.leaf content others).FitsNoType) :
      WellFormed (.leaf content others)
  | branch {content : Branch} {others : OtherMembers} {children : List Node}
      (hcontent : content.WellFormed) (hothers : others.Avoids content.fieldNames)
      (hunknown : content.variant? = none → (Node.branch content others children).FitsNoType)
      (hchildren : ∀ child ∈ children, WellFormed child) :
      WellFormed (.branch content others children)

/-- The other members of a well-formed node are beside its fields: none of them bears the name of
one. -/
theorem Node.WellFormed.avoids {node : Node} (h : node.WellFormed) :
    node.others.Avoids node.fieldNames := by
  cases h with
  | leaf hcontent hothers hunknown => exact hothers
  | branch hcontent hothers hunknown hchildren => exact hothers

/-- The nodes are well-formed, and the other members avoid the typed field. -/
def Root.WellFormed (root : Root) : Prop :=
  (∀ node ∈ root.children, node.WellFormed) ∧ root.others.Avoids ["children"]

/-! ### Attributes -/

/-- An expression is read back from members that hold it, whatever their type is. -/
theorem EmbeddedExpression.ofMembers_of_holds {e : EmbeddedExpression} (h : e.WellFormed)
    {members : Members}
    (hold : members.Holds ["value", "data"]
      (("value", .string e.value) :: whenSome "data" Estree.Embedding.toJson e.data) e.others) :
    EmbeddedExpression.ofMembers members = .ok e := by
  have hvalue : members.required "value" readString = .ok e.value :=
    hold.required (.string e.value) (by simp) (by simp) rfl
  have hdata : members.optional "data" Estree.Embedding.ofJson = .ok e.data := by
    refine hold.optional_map Estree.Embedding.toJson (by simp) (by simp) fun data hdata => ?_
    exact ⟨data.toJson_ne_null, Estree.Embedding.ofJson_toJson (h.1 data hdata)⟩
  rw [EmbeddedExpression.ofMembers, hvalue, hdata, hold.others_eq]
  rfl

/-- The value of an attribute is read back as it was. It is never written as null, which would be
read as no value at all. -/
theorem AttributeValue.ofJson_toJson {value : AttributeValue} (h : value.WellFormed) :
    value.toJson.normalize ≠ .null ∧ AttributeValue.ofJson value.toJson.normalize = .ok value := by
  cases value with
  | literal text => exact ⟨by simp [toJson, Json.normalize], rfl⟩
  | expression e =>
      obtain ⟨members, heq, -, hold⟩ := holds_tagged h.2 (by decide)
        "mdxJsxAttributeValueExpression" _ e.fields_subset
      -- The type is neither looked at nor kept, so an expression is all that is left.
      have hwritten : (AttributeValue.expression e).toJson.normalize = .object members := heq
      rw [hwritten]
      refine ⟨by simp, ?_⟩
      rw [AttributeValue.ofJson, EmbeddedExpression.ofMembers_of_holds h hold]

/-- A well-formed attribute is read back as it was, whether or not the reader accepts a tag by its
position. -/
theorem Attribute.ofJson_toJson (form : TagForm) {attr : Attribute} (h : attr.WellFormed) :
    Attribute.ofJson form attr.toJson.normalize = .ok attr := by
  cases attr with
  | named attr =>
      obtain ⟨hvalue, hothers⟩ := h
      have hkind : AttributeKind.names.lookup "mdxJsxAttribute" = some .named := rfl
      obtain ⟨kept, htag, hold⟩ := readTagged_written hothers (by decide) "JsxAttribute" form hkind
        [("name", .string attr.name), ("value", (attr.value.map AttributeValue.toJson).getD .null)]
        (by simp)
      have hname : kept.required "name" readString = .ok attr.name :=
        hold.required (.string attr.name) (by simp) (by simp) rfl
      have hread : kept.optional "value" AttributeValue.ofJson = .ok attr.value :=
        hold.optional_getD AttributeValue.toJson (by simp) (by simp)
          fun value hv => AttributeValue.ofJson_toJson (hvalue value hv)
      rw [Attribute.ofJson, Attribute.toJson, NamedAttribute.members, htag]
      simp [NamedAttribute.ofJson, readRecord, hname, hread, hold.others_eq, Checked.both,
        Checked.settle, bind, Except.bind, Except.map]
  | spread e =>
      have hkind : AttributeKind.names.lookup "mdxJsxExpressionAttribute" = some .spread := rfl
      obtain ⟨kept, htag, hold⟩ := readTagged_written h.2 (by decide) "JsxAttribute" form hkind _
        e.fields_subset
      have hread := EmbeddedExpression.ofMembers_of_holds h hold
      rw [Attribute.ofJson, Attribute.toJson, EmbeddedExpression.members, List.cons_append,
        List.nil_append, htag]
      simp [readRecord, hread, bind, Except.bind, Except.map]

/-! ### Content -/

/-- A reference type is read back from its name. -/
theorem ReferenceType.ofJson_name (referenceType : ReferenceType) :
    ReferenceType.ofJson (Json.string referenceType.name).normalize = .ok referenceType := by
  cases referenceType <;> rfl

/-- A leaf is read back from members that hold it. -/
theorem Leaf.readFrom_of_holds {content : Leaf} {members : Members} {others : OtherMembers}
    (h : content.WellFormed) (hold : members.Holds content.fieldNames content.fields others) :
    content.ReadFrom members := by
  have hdata {data : Option Estree.Embedding} (hwf : ∀ embedding ∈ data, embedding.WellFormed) :
      ∀ embedding ∈ data, embedding.toJson.normalize ≠ .null
        ∧ Estree.Embedding.ofJson embedding.toJson.normalize = .ok embedding :=
    fun embedding hmem =>
      ⟨embedding.toJson_ne_null, Estree.Embedding.ofJson_toJson (hwf embedding hmem)⟩
  cases content with
  | thematicBreak => trivial
  | lineBreak => trivial
  | unknown type => trivial
  | text kind value => exact hold.required _ (.head _) rfl rfl
  | image url => exact hold.required _ (.head _) rfl rfl
  | footnoteReference identifier => exact hold.required _ (.head _) rfl rfl
  | definition identifier url =>
      exact ⟨hold.required _ (.head _) rfl rfl, hold.required _ (.tail _ (.head _)) rfl rfl⟩
  | imageReference identifier referenceType =>
      exact ⟨hold.required _ (.head _) rfl rfl,
        hold.required _ (.tail _ (.head _)) rfl referenceType.ofJson_name⟩
  | esm value data =>
      exact ⟨hold.required (.string value) (.head _) (by simp [Leaf.fields]) rfl,
        hold.optional_map Estree.Embedding.toJson (.tail _ (.head _)) (by simp [Leaf.fields])
          (hdata h)⟩
  | expression placement value data =>
      exact ⟨hold.required (.string value) (.head _) (by simp [Leaf.fields]) rfl,
        hold.optional_map Estree.Embedding.toJson (.tail _ (.head _)) (by simp [Leaf.fields])
          (hdata h)⟩

/-- A depth of one byte is written as an integer in range, and it is read back from that. -/
theorem readDepth_written (depth : UInt8) :
    readDepth (Json.integer depth.toNat).normalize = .ok depth := by
  have hlt : depth.toNat < 256 := depth.toNat_lt
  rw [Json.integer, Json.normalize, readDepth, if_pos (by omega), Int.toNat_natCast]
  simp

/-- A branch is read back from members that hold it beside its children. -/
theorem Branch.readFrom_of_holds {content : Branch} {members : Members} {others : OtherMembers}
    {children : Json} (h : content.WellFormed)
    (hold : members.Holds content.fieldNames (content.fields ++ [("children", children)]) others) :
    content.ReadFrom members := by
  cases content with
  | grouping kind => trivial
  | unknown type => trivial
  | heading depth => exact hold.required _ (.head _) rfl (readDepth_written depth)
  | footnoteDefinition identifier => exact hold.required _ (.head _) rfl rfl
  | link url => exact hold.required _ (.head _) rfl rfl
  | linkReference identifier referenceType =>
      exact ⟨hold.required _ (.head _) rfl rfl,
        hold.required _ (.tail _ (.head _)) rfl referenceType.ofJson_name⟩
  | element placement name attributes =>
      have hname : members.optional "name" readString = .ok name :=
        hold.optional_getD Json.string (.head _) (by simp [Branch.fields])
          fun text _ => ⟨by simp [Json.normalize], rfl⟩
      have hattributes : members.defaulted "attributes" []
          (readList (Attribute.ofJson .nameOrPosition)) = .ok attributes :=
        hold.defaulted (.array (attributes.map Attribute.toJson)) (.tail _ (.head _))
          (by simp [Branch.fields])
          (readList_written fun attr hattr => Attribute.ofJson_toJson _ (h attr hattr))
      exact ⟨hname, hattributes⟩

/-! ### Nodes -/

/-- The written form of a leaf holds its content. -/
theorem Node.leaf_written {content : Leaf} {others : OtherMembers}
    (h : others.Avoids content.fieldNames) :
    ∃ members : Members, (Node.leaf content others).toJson.normalize = .object members
      ∧ members.last? "type" = some (.string content.kind)
      ∧ members.Holds content.fieldNames content.fields others := by
  rw [Node.toJson]
  exact holds_tagged h content.type_not_mem_fieldNames content.kind content.fields
    content.fields_subset

/-- The written form of a branch holds its content and its children. -/
theorem Node.branch_written {content : Branch} {others : OtherMembers}
    (h : others.Avoids content.fieldNames) (children : List Node) :
    ∃ members : Members, (Node.branch content others children).toJson.normalize = .object members
      ∧ members.last? "type" = some (.string content.kind)
      ∧ members.Holds content.fieldNames
          (content.fields ++ [("children", .array (Node.allToJson children))]) others := by
  -- The children count as the last of the typed fields.
  rw [Node.toJson, ← List.singleton_append (l := others.entries), ← List.append_assoc]
  exact holds_tagged h content.type_not_mem_fieldNames content.kind _
    (content.fields_subset (.array (Node.allToJson children)))

/-- What some written nodes are read as one by one they are read as together. -/
theorem Node.allOfJson?_written {nodes : List Node} {f : Node → Node}
    (h : ∀ node ∈ nodes, Node.ofJson? node.toJson.normalize = some (f node)) :
    Node.allOfJson? (normalizeItems (Node.allToJson nodes)) = some (nodes.map f) := by
  induction nodes with
  | nil => rfl
  | cons node rest ih =>
      have hnode := h node List.mem_cons_self
      have hrest := ih fun n hn => h n (List.mem_cons_of_mem _ hn)
      simp [Node.allToJson, normalizeItems, Node.allOfJson?, hnode, hrest]

/-- Nodes that are read back one by one are read back together. -/
theorem Node.allOfJson?_written_self {nodes : List Node}
    (h : ∀ node ∈ nodes, Node.ofJson? node.toJson.normalize = some node) :
    Node.allOfJson? (normalizeItems (Node.allToJson nodes)) = some nodes := by
  have hall := Node.allOfJson?_written h
  rwa [List.map_id'] at hall

/-- The children of a written branch are found where they were put. -/
theorem Node.childField_of_holds {content : Branch} {others : OtherMembers}
    {children nodes : List Node} {members : Members}
    (hold : members.Holds content.fieldNames
      (content.fields ++ [("children", .array (Node.allToJson children))]) others)
    (h : Node.allOfJson? (normalizeItems (Node.allToJson children)) = some nodes) :
    Node.childField members = .nodes nodes := by
  rw [Node.childField_of_sorted hold.sorted, hold.lookup _ content.children_mem_fieldNames,
    last?_append]
  show Node.childValue (Json.array (Node.allToJson children)).normalize = _
  rw [Json.normalize, Node.childValue, h]

/-- A node is written with its own tag. No other member can stand before it, as none of them bears
that key. -/
theorem Node.last?_type_written {node : Node} (h : node.others.Avoids node.fieldNames)
    {members : Members} (heq : node.toJson.normalize = .object members) :
    members.last? "type" = some (.string node.kind) := by
  cases node with
  | leaf content others =>
      obtain ⟨written, hwritten, htype, -⟩ := Node.leaf_written h
      obtain rfl : written = members := Json.object.inj (hwritten.symm.trans heq)
      exact htype
  | branch content others children =>
      obtain ⟨written, hwritten, htype, -⟩ := Node.branch_written h children
      obtain rfl : written = members := Json.object.inj (hwritten.symm.trans heq)
      exact htype

/-- The written form of a node fits no typed node if its type is not a known one. -/
theorem Node.fitsNoType_of_lookup {node : Node} (h : node.others.Avoids node.fieldNames)
    (hkind : NodeKind.names.lookup node.kind = none) : node.FitsNoType := by
  intro members heq
  have htype := Node.last?_type_written h heq
  unfold Node.typed?
  cases hread : members.required "type" (readTag .nameOrPosition NodeKind.names) with
  | error complaint => rfl
  | ok kind =>
      obtain ⟨tag, htag, hkind'⟩ := required_ok hread
      obtain rfl : Json.string node.kind = tag := Option.some.inj (htype.symm.trans htag)
      simp [readTag, hkind] at hkind'

/-- A written branch is read back with its own content and with what its children are read as. -/
theorem Node.ofJson?_branch_written {content : Branch} {others : OtherMembers}
    {children nodes : List Node} (hcontent : content.WellFormed)
    (hothers : others.Avoids content.fieldNames)
    (hunknown : content.variant? = none → (Node.branch content others children).FitsNoType)
    (hchildren : Node.allOfJson? (normalizeItems (Node.allToJson children)) = some nodes) :
    Node.ofJson? (Node.branch content others children).toJson.normalize
      = some (.branch content others nodes) := by
  obtain ⟨members, heq, htype, hold⟩ := Node.branch_written hothers children
  have hfield : Node.childField members = .nodes nodes := Node.childField_of_holds hold hchildren
  rw [heq, Node.ofJson?, Node.assemble?]
  cases hvariant : content.variant? with
  | some kind =>
      have htag : members.required "type" (readTag .nameOrPosition NodeKind.names)
          = .ok (.branch kind) :=
        hold.sorted.required htype (by rw [readTag, content.lookup_kind hvariant])
      have hread : kind.read members = .ok content :=
        BranchKind.read_ok_iff.2 ⟨hvariant, content.readFrom_of_holds hcontent hold⟩
      have hnames : content.fieldNames = kind.fieldNames := by
        rw [Branch.fieldNames, hvariant]
      rw [Node.typed?, htag, hfield]
      simp [hread, ← hnames, hold.others_eq]
  | none =>
      obtain ⟨type, rfl⟩ := content.eq_unknown hvariant
      have hread : members.required "type" readString = .ok type :=
        hold.sorted.required htype rfl
      rw [hunknown hvariant members heq, Node.unknown?, hread, hfield]
      exact congrArg (some ∘ fun o => Node.branch (.unknown type) o nodes) hold.others_eq

/-- A well-formed node is read back as it was written. A typed node is found under its tag again; an
unknown one is tried as a typed one first, and its well-formedness is what rules that out. -/
theorem Node.ofJson?_toJson {node : Node} (h : node.WellFormed) :
    Node.ofJson? node.toJson.normalize = some node := by
  -- On the derivation, not on the node: it hands over the children together with the fact that each
  -- of them is well-formed.
  induction h with
  | @leaf content others hcontent hothers hunknown =>
      obtain ⟨members, heq, htype, hold⟩ := Node.leaf_written hothers
      rw [heq, Node.ofJson?, Node.assemble?]
      cases hvariant : content.variant? with
      | some kind =>
          have htag : members.required "type" (readTag .nameOrPosition NodeKind.names)
              = .ok (.leaf kind) :=
            hold.sorted.required htype (by rw [readTag, content.lookup_kind hvariant])
          have hread : kind.read members = .ok content :=
            LeafKind.read_ok_iff.2 ⟨hvariant, content.readFrom_of_holds hcontent hold⟩
          have hnames : content.fieldNames = kind.fieldNames := by
            rw [Leaf.fieldNames, hvariant]
          rw [Node.typed?, htag]
          simp [hread, ← hnames, hold.others_eq]
      | none =>
          obtain ⟨type, rfl⟩ := content.eq_unknown hvariant
          have habsent : Node.childField members = .absent := by
            rw [Node.childField_of_sorted hold.sorted, hold.lookup _ (.head _)]
            rfl
          have hread : members.required "type" readString = .ok type :=
            hold.sorted.required htype rfl
          -- No typed node fits, and without a member `children` it is a leaf.
          rw [hunknown hvariant members heq, Node.unknown?, hread, habsent]
          exact congrArg (some ∘ Node.leaf (.unknown type)) hold.others_eq
  | branch hcontent hothers hunknown hchildren ih =>
      exact Node.ofJson?_branch_written hcontent hothers hunknown
        (Node.allOfJson?_written_self ih)

/-- A well-formed document is read back as it was written. -/
theorem Root.ofJson_toJson {root : Root} (h : root.WellFormed) :
    Root.ofJson root.toJson.normalize = .ok root := by
  obtain ⟨hchildren, hothers⟩ := h
  obtain ⟨members, heq, -, hold⟩ := holds_tagged hothers (by decide) "root"
    [("children", .array (Node.allToJson root.children))] (by simp)
  have hread : members.required "children" Node.listOfJson = .ok root.children := by
    have hall := Node.allOfJson?_written_self fun child hchild =>
      Node.ofJson?_toJson (hchildren child hchild)
    exact hold.required _ (.head _) rfl (by rw [Json.normalize, Node.listOfJson, hall])
  rw [Root.toJson, List.cons_append, heq]
  simp [Root.ofJson, readRecord, hread, hold.others_eq, Checked.settle, bind, Except.bind]

/-- The type that a well-formed node is written with is its kind. -/
theorem Node.declaredType?_toJson {node : Node} (h : node.WellFormed) :
    Document.declaredType? node.toJson.normalize = some node.kind := by
  have hobject : ∃ members : Members, node.toJson.normalize = .object members := by
    cases node <;> exact ⟨_, rfl⟩
  obtain ⟨members, heq⟩ := hobject
  have htype := Node.last?_type_written h.avoids heq
  rw [heq, Document.declaredType?, htype]
  rfl

end ImageImports.Mdast
