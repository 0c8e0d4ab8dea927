import ImageImports.Mdast.Build
import ImageImports.Proofs.Estree.Tidy
import ImageImports.Proofs.Mdast.Nesting

/-!
# `ImageImports.Proofs.Mdast.Tidy`: documents that repeat no key

A document is tidy when the other members of everything in it avoid the typed fields beside them: of
the document itself, of every node, of every attribute and its value, and of the programs in them.
Documents that were read are tidy (`Root.tidy_of_ofJson`), nodes and attributes are made tidy
(`Node.Built.tidy`, `Attribute.literal_tidy`, `Attribute.identifier_tidy`), and tidy documents are
written without a repeated key (`Root.Tidy.writable`).

A node that was read is typed or unknown, and in either case the reader leaves out of its other
members exactly what the node takes as fields. A member that makes a node unknown because it does
not fit stays among the other members; that is why the fields of an unknown node are its children
only.
-/

set_option autoImplicit false

namespace ImageImports.Mdast

open Json Members

/-! ### Attributes -/

/-- The program is tidy, and the other members are beside it. -/
structure EmbeddedExpression.Tidy (expression : EmbeddedExpression) : Prop where
  data : ∀ data ∈ expression.data, data.Tidy
  others : expression.others.Tidy ["value", "data"]

/-- The same expression with some other members of its parts taken out. -/
structure EmbeddedExpression.Trimmed (old new : EmbeddedExpression) : Prop where
  value : new.value = old.value
  data : Option.Rel Estree.Embedding.Trimmed old.data new.data
  others : old.others.Trimmed new.others

/-- An expression that was read is tidy: its other members are what its two fields left over. -/
theorem EmbeddedExpression.tidy_of_readFrom {members : Members} {e : EmbeddedExpression}
    (h : e.ReadFrom members) (hmembers : members.Valid) : e.Tidy := by
  obtain ⟨-, hdata⟩ := h
  have hprogram := hmembers.optional Estree.Embedding.gives_tidy hdata
  exact ⟨hprogram, OtherMembers.tidy_ofMembers hmembers _⟩

/-- Under whatever type an expression is written, it repeats no key. -/
theorem EmbeddedExpression.Tidy.writable {e : EmbeddedExpression} (h : e.Tidy) (tag : String) :
    (Json.object (("type", .string tag) :: e.members)).Writable := by
  have hfields : ("type", Json.string tag) :: e.members
      = (("type", .string tag) :: ("value", .string e.value)
          :: whenSome "data" Estree.Embedding.toJson e.data) ++ e.others.entries := rfl
  rw [hfields]
  -- The fields have different names, the other members avoid them, and each value is writable.
  refine writable_record h.others ?_ ?_ ?_
  · cases e.data <;> simp [whenSome]
  · cases e.data <;> simp [whenSome]
  · cases hdata : e.data with
    | none => simp [whenSome]
    | some data => simp [whenSome, (h.data data hdata).writable]

/-- A tidy expression stays tidy when other members are taken out of it. -/
theorem EmbeddedExpression.Tidy.trimmed {old new : EmbeddedExpression} (h : old.Tidy)
    (htrimmed : old.Trimmed new) : new.Tidy where
  data := forall_mem_of_optionRel htrimmed.data (fun _ _ ht hold => hold.trimmed ht) h.data
  others := h.others.trimmed htrimmed.others

/-- An expression is tidy. A text always is. -/
def AttributeValue.Tidy : AttributeValue → Prop
  | .literal _ => True
  | .expression e => e.Tidy

/-- The same value with some other members of its parts taken out. -/
inductive AttributeValue.Trimmed : AttributeValue → AttributeValue → Prop where
  | literal (text : String) : Trimmed (.literal text) (.literal text)
  | expression {old new : EmbeddedExpression} (h : old.Trimmed new) :
      Trimmed (.expression old) (.expression new)

/-- The reader of attribute values gives tidy ones. -/
theorem AttributeValue.gives_tidy : Gives AttributeValue.ofJson AttributeValue.Tidy := by
  intro value read h hvalid
  cases readFrom_of_ofJson h with
  | literal text => trivial
  | expression hexpression =>
      exact EmbeddedExpression.tidy_of_readFrom hexpression (valid_of_object hvalid)

/-- A tidy attribute value repeats no key when it is written. -/
theorem AttributeValue.Tidy.writable {value : AttributeValue} (h : value.Tidy) :
    value.toJson.Writable := by
  cases value with
  | literal text => exact writable_string text
  | expression e => exact EmbeddedExpression.Tidy.writable h _

/-- A tidy attribute value stays tidy when other members are taken out of its parts. -/
theorem AttributeValue.Tidy.trimmed {old new : AttributeValue} (h : old.Tidy)
    (htrimmed : old.Trimmed new) : new.Tidy := by
  cases htrimmed with
  | literal text => trivial
  | expression hexpression => exact EmbeddedExpression.Tidy.trimmed h hexpression

/-- The value is tidy, and the other members are beside it. -/
structure NamedAttribute.Tidy (attr : NamedAttribute) : Prop where
  value : ∀ value ∈ attr.value, value.Tidy
  others : attr.others.Tidy ["name", "value"]

/-- The same attribute with some other members of its parts taken out. -/
structure NamedAttribute.Trimmed (old new : NamedAttribute) : Prop where
  name : new.name = old.name
  value : Option.Rel AttributeValue.Trimmed old.value new.value
  others : old.others.Trimmed new.others

/-- What the attribute consists of is tidy. -/
def Attribute.Tidy : Attribute → Prop
  | .named attr => attr.Tidy
  | .spread e => e.Tidy

/-- The same attribute with some other members of its parts taken out. -/
inductive Attribute.Trimmed : Attribute → Attribute → Prop where
  | named {old new : NamedAttribute} (h : old.Trimmed new) : Trimmed (.named old) (.named new)
  | spread {old new : EmbeddedExpression} (h : old.Trimmed new) :
      Trimmed (.spread old) (.spread new)

/-- The reader of attributes gives tidy ones, in both forms of the tag. -/
theorem Attribute.gives_tidy (form : TagForm) : Gives (Attribute.ofJson form) Attribute.Tidy := by
  intro value attr h hvalid
  cases readFrom_of_ofJson h with
  | named htagged hattr =>
      obtain ⟨-, hvalue⟩ := hattr
      have hmembers := valid_of_readTagged htagged hvalid
      have hfound := hmembers.optional AttributeValue.gives_tidy hvalue
      exact ⟨hfound, OtherMembers.tidy_ofMembers hmembers _⟩
  | spread htagged hexpression =>
      exact EmbeddedExpression.tidy_of_readFrom hexpression (valid_of_readTagged htagged hvalid)

/-- A tidy attribute repeats no key when it is written. -/
theorem Attribute.Tidy.writable {attr : Attribute} (h : attr.Tidy) : attr.toJson.Writable := by
  cases attr with
  | named attr =>
      obtain ⟨hvalue, hothers⟩ := h
      have hwritten : ((attr.value.map AttributeValue.toJson).getD .null).Writable := by
        cases hfound : attr.value with
        | none => exact writable_null
        | some value => exact (hvalue value hfound).writable
      show (Json.object ([("type", .string "mdxJsxAttribute"), ("name", .string attr.name),
        ("value", (attr.value.map AttributeValue.toJson).getD .null)]
          ++ attr.others.entries)).Writable
      exact writable_record hothers (by simp) (by simp) (by simp [hwritten])
  | spread e => exact EmbeddedExpression.Tidy.writable h _

/-- A tidy attribute stays tidy when other members are taken out of it and out of its value. -/
theorem Attribute.Tidy.trimmed {old new : Attribute} (h : old.Tidy) (htrimmed : old.Trimmed new) :
    new.Tidy := by
  cases htrimmed with
  | named hattr =>
      obtain ⟨hvalue, hothers⟩ := h
      exact ⟨forall_mem_of_optionRel hattr.value (fun _ _ ht hold => hold.trimmed ht) hvalue,
        hothers.trimmed hattr.others⟩
  | spread hexpression => exact EmbeddedExpression.Tidy.trimmed h hexpression

/-- An attribute that is made with a text as its value is tidy, as it has no other members. -/
theorem Attribute.literal_tidy (name : String) (value : Option String) :
    (Attribute.literal name value).Tidy where
  value found hfound := by
    obtain ⟨text, -, rfl⟩ := Option.map_eq_some_iff.1 hfound
    trivial
  others := OtherMembers.tidy_empty _

/-- An attribute that is made with a name as its value is tidy, and so is the program in it. -/
theorem Attribute.identifier_tidy (name reference : String) :
    (Attribute.identifier name reference).Tidy where
  value found hfound := by
    obtain rfl := Option.some.inj hfound
    refine ⟨fun data hdata => ?_, OtherMembers.tidy_empty _⟩
    obtain rfl := Option.some.inj hdata
    exact Estree.Embedding.ofProgram_tidy (Estree.Program.reference_tidy reference)
  others := OtherMembers.tidy_empty _

/-! ### Content -/

/-- The programs in the content are tidy. -/
def Leaf.Tidy : Leaf → Prop
  | .esm _ data => ∀ embedding ∈ data, embedding.Tidy
  | .expression _ _ data => ∀ embedding ∈ data, embedding.Tidy
  | _ => True

/-- The attributes in the content are tidy. -/
def Branch.Tidy : Branch → Prop
  | .element _ _ attributes => ∀ attr ∈ attributes, attr.Tidy
  | _ => True

/-- The same content with some other members of its parts taken out. -/
inductive Leaf.Trimmed : Leaf → Leaf → Prop where
  | same (content : Leaf) : Trimmed content content
  | esm (value : String) {old new : Option Estree.Embedding}
      (h : Option.Rel Estree.Embedding.Trimmed old new) : Trimmed (.esm value old) (.esm value new)
  | expression (placement : Placement) (value : String) {old new : Option Estree.Embedding}
      (h : Option.Rel Estree.Embedding.Trimmed old new) :
      Trimmed (.expression placement value old) (.expression placement value new)

/-- The same content with some other members of its parts taken out. -/
inductive Branch.Trimmed : Branch → Branch → Prop where
  | same (content : Branch) : Trimmed content content
  | element (placement : Placement) (name : Option String) {old new : List Attribute}
      (h : List.Forall₂ Attribute.Trimmed old new) :
      Trimmed (.element placement name old) (.element placement name new)

/-- The content of a leaf that was read is tidy: the programs in it were read. -/
theorem Leaf.tidy_of_readFrom {members : Members} {content : Leaf} (h : content.ReadFrom members)
    (hmembers : members.Valid) : content.Tidy := by
  cases content with
  | esm value data => exact hmembers.optional Estree.Embedding.gives_tidy h.2
  | expression placement value data => exact hmembers.optional Estree.Embedding.gives_tidy h.2
  | _ => trivial

/-- The content of a branch that was read is tidy: its attributes and the programs in them were
read. -/
theorem Branch.tidy_of_readFrom {members : Members} {content : Branch}
    (h : content.ReadFrom members) (hmembers : members.Valid) : content.Tidy := by
  cases content with
  | element placement name attributes =>
      exact hmembers.defaulted (Attribute.gives_tidy .nameOrPosition).list (by simp) h.2
  | _ => trivial

/-- The fields that a leaf writes have different names, whichever of the optional ones are there. -/
theorem Leaf.nodup_fields (content : Leaf) : (content.fields.map Prod.fst).Nodup := by
  cases content with
  | esm value data => cases data <;> simp [fields, whenSome]
  | expression placement value data => cases data <;> simp [fields, whenSome]
  | _ => simp [fields]

/-- With the children behind them the fields of a branch have different names. -/
theorem Branch.nodup_fields (content : Branch) (children : Json) :
    ((content.fields ++ [("children", children)]).map Prod.fst).Nodup := by
  cases content <;> simp [fields]

/-- The fields of a tidy leaf repeat no key in their values. Only programs are records of their
own. -/
theorem Leaf.Tidy.writable_fields {content : Leaf} (h : content.Tidy) :
    ∀ m ∈ content.fields, m.2.Writable := by
  have hdata {data : Option Estree.Embedding} (htidy : ∀ embedding ∈ data, embedding.Tidy) :
      ∀ m ∈ whenSome "data" Estree.Embedding.toJson data, m.2.Writable := by
    cases data with
    | none => simp [whenSome]
    | some data => simp [whenSome, (htidy data rfl).writable]
  cases content with
  | esm value data => exact List.forall_mem_cons.2 ⟨writable_string value, hdata h⟩
  | expression placement value data =>
      exact List.forall_mem_cons.2 ⟨writable_string value, hdata h⟩
  | _ => simp [fields]

/-- A depth is a number, so it repeats no key. -/
theorem writable_depth (depth : UInt8) : (Json.integer depth.toNat).Writable :=
  ⟨.number _, 0, fits_depth depth⟩

/-- The fields of a tidy branch repeat no key in their values. -/
theorem Branch.Tidy.writable_fields {content : Branch} (h : content.Tidy) :
    ∀ m ∈ content.fields, m.2.Writable := by
  cases content with
  | heading depth => simp [fields, writable_depth]
  | element placement name attributes =>
      have hname : ((name.map Json.string).getD .null).Writable := by cases name <;> simp
      have hattributes : (Json.array (attributes.map Attribute.toJson)).Writable :=
        .list fun attr hattr => (h attr hattr).writable
      simp [fields, hname, hattributes]
  | _ => simp [fields]

/-- A tidy leaf stays tidy when other members are taken out of the programs in it. -/
theorem Leaf.Tidy.trimmed {old new : Leaf} (h : old.Tidy) (htrimmed : old.Trimmed new) :
    new.Tidy := by
  cases htrimmed with
  | same => exact h
  | esm value hdata => exact forall_mem_of_optionRel hdata (fun _ _ ht hold => hold.trimmed ht) h
  | expression placement value hdata =>
      exact forall_mem_of_optionRel hdata (fun _ _ ht hold => hold.trimmed ht) h

/-- A tidy branch stays tidy when other members are taken out of its attributes. -/
theorem Branch.Tidy.trimmed {old new : Branch} (h : old.Tidy) (htrimmed : old.Trimmed new) :
    new.Tidy := by
  cases htrimmed with
  | same => exact h
  | element placement name hattributes =>
      exact forall_mem_of_forall₂ hattributes (fun _ _ ht hold => hold.trimmed ht) h

/-- Taking other members out of the parts of a leaf leaves its type, and so the names of its
fields. -/
theorem Leaf.Trimmed.fieldNames_eq {old new : Leaf} (h : old.Trimmed new) :
    new.fieldNames = old.fieldNames := by
  cases h <;> rfl

/-- Taking other members out of the parts of a branch leaves its type, and so the names of its
fields. -/
theorem Branch.Trimmed.fieldNames_eq {old new : Branch} (h : old.Trimmed new) :
    new.fieldNames = old.fieldNames := by
  cases h <;> rfl

/-! ### Nodes -/

/-- A node is tidy if its content and its children are and its other members are beside its typed
fields. -/
inductive Node.Tidy : Node → Prop where
  | leaf {content : Leaf} {others : OtherMembers} (hcontent : content.Tidy)
      (hothers : others.Tidy content.fieldNames) : Tidy (.leaf content others)
  | branch {content : Branch} {others : OtherMembers} {children : List Node}
      (hcontent : content.Tidy) (hothers : others.Tidy content.fieldNames)
      (hchildren : ∀ child ∈ children, Tidy child) : Tidy (.branch content others children)

/-- The same node with some other members of itself and its content taken out. Its children stay
as they are. -/
inductive Node.Trimmed : Node → Node → Prop where
  | leaf {content content' : Leaf} {others others' : OtherMembers}
      (hcontent : content.Trimmed content') (hothers : others.Trimmed others') :
      Trimmed (.leaf content others) (.leaf content' others')
  | branch {content content' : Branch} {others others' : OtherMembers} (children : List Node)
      (hcontent : content.Trimmed content') (hothers : others.Trimmed others') :
      Trimmed (.branch content others children) (.branch content' others' children)

/-- Nodes that are read as the children of an object were read from one of its lists. -/
theorem Node.exists_item_of_childField {members : Members} {nodes : List Node}
    (h : Node.childField members = .nodes nodes) {child : Node} (hchild : child ∈ nodes) :
    ∃ items, members.last? "children" = some (.array items)
      ∧ ∃ item ∈ items, Node.ofJson? item = some child := by
  have hne : Node.childField members ≠ .bad := by simp [h]
  have hfield := Node.childField_of_ne_bad hne
  rw [h] at hfield
  cases hlast : members.last? "children" with
  | none => simp [hlast] at hfield
  | some value =>
      rw [hlast, Option.elim_some] at hfield
      obtain ⟨items, rfl, hall⟩ := Node.childValue_eq_nodes_iff.1 hfield.symm
      exact ⟨items, rfl, Node.exists_mem_of_allOfJson? hall hchild⟩

/-- A node that was read is tidy, be it typed or unknown. -/
theorem Node.tidy_of_ofJson? (value : Json) :
    ∀ node, Node.ofJson? value = some node → value.Valid → node.Tidy := by
  induction value using Json.induction_children with
  | step value ih =>
      intro node h hvalid
      cases value with
      | object members =>
          have hmembers := valid_of_object hvalid
          -- The children were read from the items of a list, and these are valid with the object.
          have hchildren : ∀ nodes, Node.childField members = .nodes nodes →
              ∀ child ∈ nodes, child.Tidy := by
            intro nodes hfield child hchild
            obtain ⟨items, hlast, item, hitem, hread⟩ :=
              Node.exists_item_of_childField hfield hchild
            have hitems := valid_array_iff.1 (hmembers _ (mem_of_last? hlast))
            exact ih members items rfl hlast item hitem child hread (hitems item hitem)
          have hothers := OtherMembers.tidy_ofMembers hmembers
          cases Node.readAs_of_ofJson? h with
          | typedLeaf _ hread =>
              obtain ⟨hvariant, hfields⟩ := LeafKind.read_ok_iff.1 hread
              refine .leaf (Leaf.tidy_of_readFrom hfields hmembers) ?_
              rw [Leaf.fieldNames, hvariant]
              exact hothers _
          | @typedBranch kind content nodes _ hread hfield =>
              obtain ⟨hvariant, hfields⟩ := BranchKind.read_ok_iff.1 hread
              refine .branch (Branch.tidy_of_readFrom hfields hmembers) ?_ ?_
              · rw [Branch.fieldNames, hvariant]
                exact hothers _
              · rcases hfield with hfield | ⟨-, -, rfl⟩
                · exact hchildren nodes hfield
                · simp
          | @unknownBranch type nodes _ _ hfield =>
              exact .branch trivial (hothers _) (hchildren nodes hfield)
          | unknownLeaf _ _ _ => exact .leaf trivial (hothers _)
      | _ => simp [Node.ofJson?] at h

/-- A tidy node repeats no key when it is written. -/
theorem Node.Tidy.writable {node : Node} (h : node.Tidy) : node.toJson.Writable := by
  induction h with
  | @leaf content others hcontent hothers =>
      rw [Node.toJson, ← List.cons_append]
      refine writable_record hothers ?_ ?_ ?_
      · refine List.nodup_cons.2 ⟨fun hmem => ?_, content.nodup_fields⟩
        obtain ⟨m, hm, heq⟩ := List.mem_map.1 hmem
        have hname := content.fields_subset m hm
        rw [heq] at hname
        exact content.type_not_mem_fieldNames hname
      · refine List.forall_mem_cons.2 ⟨.head _, fun m hm => .tail _ (content.fields_subset m hm)⟩
      · exact List.forall_mem_cons.2 ⟨writable_string _, hcontent.writable_fields⟩
  | @branch content others children hcontent hothers hchildren ih =>
      have hlist : (Json.array (Node.allToJson children)).Writable := by
        rw [Node.allToJson_eq_map]
        exact .list ih
      -- The children count as the last of the typed fields.
      rw [Node.toJson, ← List.singleton_append (l := others.entries), ← List.append_assoc,
        ← List.cons_append]
      refine writable_record hothers ?_ ?_ ?_
      · refine List.nodup_cons.2 ⟨fun hmem => ?_, content.nodup_fields _⟩
        obtain ⟨m, hm, heq⟩ := List.mem_map.1 hmem
        have hname := content.fields_subset _ m hm
        rw [heq] at hname
        exact content.type_not_mem_fieldNames hname
      · exact List.forall_mem_cons.2 ⟨.head _, fun m hm => .tail _ (content.fields_subset _ m hm)⟩
      · refine List.forall_mem_cons.2 ⟨writable_string _, List.forall_mem_append.2 ⟨?_, ?_⟩⟩
        · exact hcontent.writable_fields
        · simpa using hlist

/-- A tidy node stays tidy when other members are taken out of it and out of its content. Its
children are the same. -/
theorem Node.Tidy.trimmed {old new : Node} (h : old.Tidy) (htrimmed : old.Trimmed new) :
    new.Tidy := by
  cases htrimmed with
  | leaf hleaf hrest =>
      cases h with
      | leaf hcontent hothers =>
          exact .leaf (hcontent.trimmed hleaf) (hleaf.fieldNames_eq ▸ hothers.trimmed hrest)
  | branch children hbranch hrest =>
      cases h with
      | branch hcontent hothers hchildren =>
          exact .branch (hcontent.trimmed hbranch) (hbranch.fieldNames_eq ▸ hothers.trimmed hrest)
            hchildren

/-! ### New nodes -/

/-- The nodes that are made with some attributes and some children. There is one constructor for
each function that makes a node, with the texts and numbers it takes. -/
inductive Node.Built (attributes : List Attribute) (children : List Node) : Node → Prop where
  | text (value : String) : Built attributes children (.text value)
  | group (kind : Grouping) : Built attributes children (.group kind children)
  | heading (depth : UInt8) : Built attributes children (.heading depth children)
  | link (url : String) : Built attributes children (.link url children)
  | image (url alt : String) : Built attributes children (.image url alt)
  | titledImage (url alt title : String) : Built attributes children (.titledImage url alt title)
  | list (ordered : Bool) : Built attributes children (.list ordered children)
  | listItem : Built attributes children (.listItem children)
  | thematicBreak : Built attributes children .thematicBreak
  | defaultImport (binding source : String) :
      Built attributes children (.defaultImport binding source)
  | textElement (name : String) : Built attributes children (.textElement name attributes children)

/-- The import statement that the pass makes is tidy: the program in it is made without other
members. -/
theorem Node.defaultImport_tidy (binding source : String) :
    (Node.defaultImport binding source).Tidy := by
  refine .leaf (fun embedding hembedding => ?_) (OtherMembers.tidy_empty _)
  obtain rfl := Option.some.inj hembedding
  exact Estree.Embedding.ofProgram_tidy (Estree.Program.defaultImport_tidy binding source)

/-- A node that is made of tidy attributes and tidy children is tidy. Nothing else goes into it. -/
theorem Node.Built.tidy {attributes : List Attribute} {children : List Node} {node : Node}
    (h : node.Built attributes children) (hattributes : ∀ attr ∈ attributes, attr.Tidy)
    (hchildren : ∀ child ∈ children, child.Tidy) : node.Tidy := by
  -- The keys of the other members are known, so it is decided that they are no typed fields.
  have hempty (typed : List String) := OtherMembers.tidy_empty typed
  have hnull : Json.null.Valid := writable_null.valid
  have hfalse : (Json.bool false).Valid := ⟨0, fits_bool _ _⟩
  cases h with
  | text value => exact .leaf trivial (hempty _)
  | group kind => exact .branch trivial (hempty _) hchildren
  | heading depth => exact .branch trivial (hempty _) hchildren
  | link url =>
      exact .branch trivial ((hempty ["url", "children"]).set hnull (by decide)) hchildren
  | image url alt =>
      exact .leaf trivial
        (((hempty ["url"]).set hnull (by decide)).set (valid_string alt) (by decide))
  | titledImage url alt title =>
      exact .leaf trivial
        (((hempty ["url"]).set (valid_string title) (by decide)).set (valid_string alt) (by decide))
  | list ordered =>
      have hordered : (Json.bool ordered).Valid := ⟨0, fits_bool _ _⟩
      have hstart : (if ordered then Json.integer 1 else Json.null).Valid := by
        cases ordered with
        | true => exact ⟨0, fits_depth 1⟩
        | false => exact hnull
      exact .branch trivial ((((hempty ["children"]).set hordered (by decide)).set hstart
        (by decide)).set hfalse (by decide)) hchildren
  | listItem =>
      exact .branch trivial
        (((hempty ["children"]).set hfalse (by decide)).set hnull (by decide)) hchildren
  | thematicBreak => exact .leaf trivial (hempty _)
  | defaultImport binding source => exact Node.defaultImport_tidy binding source
  | textElement name => exact .branch hattributes (hempty _) hchildren

/-! ### Documents -/

/-- The nodes are tidy, and the other members are beside them. -/
structure Root.Tidy (root : Root) : Prop where
  children : ∀ node ∈ root.children, node.Tidy
  others : root.others.Tidy ["children"]

/-- The same document with some of its other members taken out. -/
structure Root.Trimmed (old new : Root) : Prop where
  children : new.children = old.children
  others : old.others.Trimmed new.others

/-- A document that was read from a value without repeated keys is tidy. -/
theorem Root.tidy_of_ofJson {value : Json} {root : Root} (h : Root.ofJson value = .ok root)
    (hvalid : value.Valid) : root.Tidy := by
  obtain ⟨members, items, rfl, hlast, hall, hothers⟩ := Root.ofJson_ok h
  have hmembers := valid_of_object hvalid
  have hitems := valid_array_iff.1 (hmembers _ (mem_of_last? hlast))
  refine ⟨fun node hnode => ?_, hothers ▸ OtherMembers.tidy_ofMembers hmembers _⟩
  obtain ⟨item, hitem, hread⟩ := Node.exists_mem_of_allOfJson? hall hnode
  exact Node.tidy_of_ofJson? item node hread (hitems item hitem)

/-- A tidy document repeats no key when it is written. -/
theorem Root.Tidy.writable {root : Root} (h : root.Tidy) : root.toJson.Writable := by
  have hlist : (Json.array (Node.allToJson root.children)).Writable := by
    rw [Node.allToJson_eq_map]
    exact .list fun node hnode => (h.children node hnode).writable
  exact writable_record h.others (by simp) (by simp) (by simp [hlist])

/-- A tidy document stays tidy when other members of the document itself are taken out. -/
theorem Root.Tidy.trimmed {old new : Root} (h : old.Tidy) (htrimmed : old.Trimmed new) :
    new.Tidy where
  children := htrimmed.children ▸ h.children
  others := h.others.trimmed htrimmed.others

end ImageImports.Mdast
