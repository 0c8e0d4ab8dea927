import ImageImports.Proofs.Estree.Nesting
import ImageImports.Proofs.Mdast.Content

/-!
# `ImageImports.Proofs.Mdast.Nesting`: what is left of a depth for the parts of a node

A node that was read from a value within some depth has parts that fit what the depth leaves for
them (`Node.Within`): its fields and other members fit one less, and its children, which stand in a
list, are within two less. The one exception is an element that was read without attributes and
children. It has no list, and so may stand where no list fits.

Main statement: `Node.within_of_ofJson?`.
-/

set_option autoImplicit false

namespace ImageImports

open Json Members

/-- What a field with a default was read as is written within the depth of the members, if the
default is. -/
theorem Members.AllFit.defaulted {members : Members} {depth : Nat} {key : String} {α : Type}
    {read : Json → Except Mismatch α} {write : α → Json} (h : members.AllFit depth)
    (hkeeps : Keeps read write) {default a : α} (hdefault : (write default).Fits depth)
    (hread : members.defaulted key default read = .ok a) : (write a).Fits depth := by
  rcases defaulted_ok hread with ⟨-, rfl⟩ | ⟨value, hvalue, hread⟩
  · exact hdefault
  · exact hkeeps value a depth hread (h _ (mem_of_last? hvalue))

namespace Mdast

/-! ### Attributes -/

/-- An expression that was read from members is written with members that fit as these do. -/
theorem EmbeddedExpression.allFit_members {members : Members} {e : EmbeddedExpression} {depth : Nat}
    (h : e.ReadFrom members) (hmembers : members.AllFit depth) : e.members.AllFit depth := by
  obtain ⟨-, hdata⟩ := h
  have hprogram := hmembers.optional Estree.Embedding.keeps hdata
  exact allFit_append.2 ⟨allFit_append.2 ⟨by simp, allFit_whenSome.2 hprogram⟩, hmembers.others _⟩

/-- The value of an attribute is written within the depth that it was read from. -/
theorem AttributeValue.keeps : Keeps AttributeValue.ofJson AttributeValue.toJson := by
  intro value read depth h hfits
  cases readFrom_of_ofJson h with
  | literal text => exact fits_string _ _
  | expression hexpression =>
      obtain ⟨inner, rfl, hmembers⟩ := allFit_of_fits hfits
      exact allFit_cons.2
        ⟨fits_string _ _, EmbeddedExpression.allFit_members hexpression hmembers⟩

/-- An attribute that was read from members is written with members that fit as these do. Null takes
no depth where it has no value. -/
theorem NamedAttribute.allFit_members {members : Members} {attr : NamedAttribute} {depth : Nat}
    (h : attr.ReadFrom members) (hmembers : members.AllFit depth) :
    attr.members.AllFit depth := by
  obtain @⟨name, found, -, hvalue⟩ := h
  have hfound := hmembers.optional AttributeValue.keeps hvalue
  refine allFit_append.2 ⟨?_, hmembers.others _⟩
  cases found with
  | none => simp
  | some found => simp [hfound found rfl]

/-- An attribute is written within the depth that it was read from. -/
theorem Attribute.keeps (form : TagForm) : Keeps (Attribute.ofJson form) Attribute.toJson := by
  intro value attr depth h hfits
  cases readFrom_of_ofJson h with
  | named htagged hattr =>
      obtain ⟨inner, rfl, hmembers⟩ := allFit_of_readTagged htagged hfits
      exact allFit_cons.2 ⟨fits_string _ _, NamedAttribute.allFit_members hattr hmembers⟩
  | spread htagged hexpression =>
      obtain ⟨inner, rfl, hmembers⟩ := allFit_of_readTagged htagged hfits
      exact allFit_cons.2
        ⟨fits_string _ _, EmbeddedExpression.allFit_members hexpression hmembers⟩

/-! ### Content -/

section
variable {members : Members} {depth : Nat}

/-- The typed fields of a leaf that was read from members fit as these do. -/
theorem Leaf.allFit_fields {content : Leaf} (h : content.ReadFrom members)
    (hmembers : members.AllFit depth) : content.fields.AllFit depth := by
  cases content with
  | esm value data =>
      have hprogram := hmembers.optional Estree.Embedding.keeps h.2
      simpa [fields, allFit_whenSome] using hprogram
  | expression placement value data =>
      have hprogram := hmembers.optional Estree.Embedding.keeps h.2
      simpa [fields, allFit_whenSome] using hprogram
  | _ => simp [fields]

/-- The depth of a heading is a number that can be written. -/
theorem fits_depth (n : UInt8) : (Json.integer n.toNat).Fits depth := by
  have hlt : n.toNat < 256 := n.toNat_lt
  rw [Json.integer, fits_number, Number.Valid]
  omega

/-- The attributes of an element are written as a list, so they need room for one even where there
are none. -/
theorem Branch.allFit_fields {content : Branch} (h : content.ReadFrom members)
    (hmembers : members.AllFit (depth + 1)) : content.fields.AllFit (depth + 1) := by
  cases content with
  | heading n => simp [fields, fits_depth]
  | element placement name attributes =>
      have hname : ((name.map Json.string).getD .null).Fits (depth + 1) := by
        cases name <;> simp
      have hattributes := hmembers.defaulted (Attribute.keeps .nameOrPosition).list (by simp) h.2
      exact allFit_cons.2 ⟨hname, allFit_cons.2 ⟨hattributes, allFit_nil⟩⟩
  | _ => simp [fields]

/-- Where no list fits, no attributes are found. -/
theorem attributes_eq_nil {placement : Placement} {name : Option String}
    {attributes : List Attribute} (h : (Branch.element placement name attributes).ReadFrom members)
    (hmembers : members.AllFit 0) : attributes = [] := by
  rcases defaulted_ok h.2 with ⟨-, hnil⟩ | ⟨value, hvalue, hread⟩
  · exact hnil
  · obtain ⟨items, rfl, -⟩ := readList_ok hread
    exact absurd (hmembers _ (mem_of_last? hvalue)) (not_fits_array_zero items)

end

/-! ### Nodes -/

/-- The parts of a node fit what the depth leaves for them. An element that was read from an object
without room for any list stands apart, as it is written with two. -/
inductive Node.Within : Nat → Node → Prop where
  | leaf {depth : Nat} {content : Leaf} {others : OtherMembers}
      (hfields : content.fields.AllFit depth) (hothers : others.entries.AllFit depth) :
      Within (depth + 1) (.leaf content others)
  | branch {depth : Nat} {content : Branch} {others : OtherMembers} {children : List Node}
      (hfields : content.fields.AllFit (depth + 1)) (hothers : others.entries.AllFit (depth + 1))
      (hchildren : ∀ child ∈ children, Within depth child) :
      Within (depth + 2) (.branch content others children)
  | bareElement {placement : Placement} {name : Option String} {others : OtherMembers}
      (hothers : others.entries.AllFit 0) :
      Within 1 (.branch (.element placement name []) others [])

/-- A node is within every depth that the value fits from which it was read. The induction goes down
the value by its lists of children. -/
theorem Node.within_of_ofJson? (value : Json) : value.normalize = value →
    ∀ node depth, Node.ofJson? value = some node → value.Fits depth → node.Within depth := by
  induction value using Json.induction_children with
  | step value ih =>
      intro hnormal node depth h hfits
      cases value with
      | object members =>
          have hsorted := sorted_of_normal hnormal
          have hvalues := normalValues_of_normal hnormal
          obtain ⟨inner, rfl, (hmembers : AllFit inner members)⟩ := fits_object.1 hfits
          -- The children come from a list, which takes one more of the depth.
          have hnodes : ∀ nodes, Node.childField members = .nodes nodes →
              ∃ rest, inner = rest + 1 ∧ ∀ child ∈ nodes, child.Within rest := by
            intro nodes hfield
            obtain ⟨items, hlisted, hall⟩ := (Node.childField_eq_nodes_iff hsorted).1 hfield
            obtain ⟨rest, rfl, hitems⟩ := fits_array.1 (hmembers _ (mem_of_last? hlisted))
            refine ⟨rest, rfl, fun child hchild => ?_⟩
            obtain ⟨item, hitem, hread⟩ := Node.exists_mem_of_allOfJson? hall hchild
            exact ih members items rfl hlisted item hitem
              (normal_of_mem (hvalues _ _ hlisted) hitem) child rest hread (hitems item hitem)
          cases Node.readAs_of_ofJson? h with
          | typedLeaf _ hread =>
              have hfields := (LeafKind.read_ok_iff.1 hread).2
              exact .leaf (Leaf.allFit_fields hfields hmembers) (hmembers.others _)
          | @typedBranch kind content nodes _ hread hfield =>
              obtain ⟨hvariant, hfields⟩ := BranchKind.read_ok_iff.1 hread
              rcases hfield with hfield | ⟨-, hoptional, rfl⟩
              · obtain ⟨rest, rfl, hchildren⟩ := hnodes nodes hfield
                exact .branch (Branch.allFit_fields hfields hmembers) (hmembers.others _) hchildren
              · -- Without a list of children only an element is typed.
                cases content with
                | element placement name attributes =>
                    cases inner with
                    | zero =>
                        rw [attributes_eq_nil hfields hmembers]
                        exact .bareElement (hmembers.others _)
                    | succ rest =>
                        exact .branch (Branch.allFit_fields hfields hmembers) (hmembers.others _)
                          (by simp)
                | _ => cases hvariant <;> cases hoptional
          | @unknownBranch type nodes _ _ hfield =>
              obtain ⟨rest, rfl, hchildren⟩ := hnodes nodes hfield
              exact .branch (by simp [Branch.fields]) (hmembers.others _) hchildren
          | unknownLeaf _ _ _ => exact .leaf (by simp [Leaf.fields]) (hmembers.others _)
      | _ => simp [Node.ofJson?] at h

/-! ### Written nodes -/

/-- Writing nodes is writing each of them. The recursion is spelled out in the definition because
nodes nest through lists. -/
theorem Node.allToJson_eq_map (nodes : List Node) : allToJson nodes = nodes.map toJson := by
  induction nodes with
  | nil => rfl
  | cons node rest ih => rw [allToJson, ih, List.map_cons]

/-- A leaf takes one level of nesting for itself; its fields and other members have what is left. -/
theorem Node.fits_leaf_iff {content : Leaf} {others : OtherMembers} {depth : Nat} :
    (Node.leaf content others).toJson.Fits (depth + 1)
      ↔ content.fields.AllFit depth ∧ others.entries.AllFit depth := by
  rw [Node.toJson, fits_object_succ]
  show AllFit depth _ ↔ _
  simp

/-- A branch takes one for itself and one for the list of its children. -/
theorem Node.fits_branch_iff {content : Branch} {others : OtherMembers} {children : List Node}
    {depth : Nat} :
    (Node.branch content others children).toJson.Fits depth
      ↔ ∃ inner, depth = inner + 2 ∧ content.fields.AllFit (inner + 1)
          ∧ others.entries.AllFit (inner + 1) ∧ ∀ child ∈ children, child.toJson.Fits inner := by
  rw [Node.toJson, fits_object, allToJson_eq_map]
  constructor
  · rintro ⟨next, rfl, (hmembers : AllFit next _)⟩
    simp only [allFit_cons, allFit_append] at hmembers
    obtain ⟨-, hfields, hchildren, hothers⟩ := hmembers
    obtain ⟨inner, rfl, hitems⟩ := fits_array.1 hchildren
    exact ⟨inner, rfl, hfields, hothers, List.forall_mem_map.1 hitems⟩
  · rintro ⟨inner, rfl, hfields, hothers, hchildren⟩
    refine ⟨inner + 1, rfl, ?_⟩
    show AllFit (inner + 1) _
    simp only [allFit_cons, allFit_append]
    exact ⟨fits_string _ _, hfields, fits_array_succ.2 (List.forall_mem_map.2 hchildren), hothers⟩

end Mdast

end ImageImports
