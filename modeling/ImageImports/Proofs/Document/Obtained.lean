import ImageImports.Proofs.Document.Grammar
import ImageImports.Proofs.Image.TwoPass
import ImageImports.Proofs.Mdast.Tidy
import ImageImports.Proofs.Tree.Path
import ImageImports.Proofs.Tree.Traversal
import ImageImports.Tree.Path

/-!
# `ImageImports.Proofs.Document.Obtained`: no key is written twice

A document comes about by reading, by making nodes, by passes and by edits. `Part.Obtained` says
which documents, nodes and attributes can come about that way. All edits of lists of children are
one case of it: a list of children may give way to any other list of nodes that came about. So nodes
may be put in, taken out, replaced, wrapped and doubled at any place, and a walk may do so on its
way (`Root.Editable`). Other members can be taken out anywhere, but none can be put in.

Everything that comes about is tidy (`Part.Obtained.tidy`), by induction on how it did. The reader
leaves the names of typed fields out of what it keeps besides, the makers of nodes put in no such
name, and nothing else adds to the other members of anything. What is tidy is written without a
repeated key, and so is its text (`obtained_repeats_no_key`).
-/

set_option autoImplicit false

namespace ImageImports

open Json Mdast

/-! ### What a pass leaves tidy -/

namespace Mdast

/-- Putting tidy nodes in the place of tidy leaves leaves a node tidy. The branches keep their own
content and other members. -/
theorem Node.Tidy.mapLeaves {f : Leaf → OtherMembers → Node}
    (hf : ∀ content others, (Node.leaf content others).Tidy → (f content others).Tidy)
    {node : Node} (h : node.Tidy) : (node.mapLeaves f).Tidy := by
  induction h with
  | leaf hcontent hothers => exact hf _ _ (.leaf hcontent hothers)
  | branch hcontent hothers hchildren ih =>
      rw [Node.mapLeaves, Node.mapAllLeaves_eq_map]
      exact .branch hcontent hothers (List.forall_mem_map.2 ih)

end Mdast

/-- The element that shows an image is tidy, because it has no other members at all. -/
theorem imageElement_tidy (image : OtherMembers) (name : String) :
    (imageElement image name).Tidy := by
  rw [imageElement_eq]
  refine (Node.Built.textElement "img").tidy ?_ (by simp)
  intro attr hattr
  rcases List.mem_append.1 hattr with hattr | hattr
  · rcases List.mem_cons.1 hattr with rfl | hattr
    · exact Attribute.literal_tidy _ _
    · obtain rfl := List.mem_singleton.1 hattr
      exact Attribute.identifier_tidy _ _
  · obtain ⟨title, -, rfl⟩ := List.mem_map.1 hattr
    exact Attribute.literal_tidy _ _

/-- What a pass puts in the place of a tidy leaf is tidy. -/
theorem PassSettings.showLeaf_tidy (settings : PassSettings) (imports : List String)
    (content : Leaf) (others : OtherMembers) (h : (Node.leaf content others).Tidy) :
    (settings.showLeaf imports content others).Tidy := by
  cases content with
  | image url =>
      rw [PassSettings.showLeaf_image]
      cases settings.target? url with
      | none => exact h
      | some target => exact imageElement_tidy others _
  | _ => exact h

/-- A pass makes a tidy document of a tidy one. The import statements in front of it are tidy for
any names and addresses. -/
theorem importImages_tidy (settings : PassSettings) {root : Root} (h : root.Tidy) :
    (importImages settings root).Tidy := by
  rw [importImages_eq]
  refine ⟨fun node hnode => ?_, h.others⟩
  rcases List.mem_append.1 hnode with himport | hshown
  · obtain ⟨index, hindex, rfl⟩ := List.mem_mapIdx.1 himport
    exact Node.defaultImport_tidy _ _
  · rw [Node.mapAllLeaves_eq_map] at hshown
    obtain ⟨node, hmem, rfl⟩ := List.mem_map.1 hshown
    exact (h.children node hmem).mapLeaves (settings.showLeaf_tidy _)

/-! ### What can come about -/

/-- A document or a part of one that can be handled on its own. It is what a program can get hold of
and pass on. -/
inductive Part where
  /-- An attribute of an element. -/
  | ofAttribute (attr : Attribute)
  /-- A node with all below it. -/
  | ofNode (node : Node)
  /-- A document. -/
  | ofRoot (root : Root)

/-- That an attribute, a node or a document comes about by reading, making, passing and editing.
There is one constructor for each way, so a property of all of these is shown by one induction. -/
inductive Part.Obtained : Part → Prop where
  /-- An attribute that was read. -/
  | readAttribute {form : TagForm} {value : Json} {attr : Attribute} (hvalue : value.Valid)
      (h : Attribute.ofJson form value = .ok attr) : Obtained (.ofAttribute attr)
  /-- A node that was read. -/
  | readNode {value : Json} {node : Node} (hvalue : value.Valid)
      (h : Node.ofJson? value = some node) : Obtained (.ofNode node)
  /-- A document that was read. -/
  | readRoot {value : Json} {root : Root} (hvalue : value.Valid)
      (h : Root.ofJson value = .ok root) : Obtained (.ofRoot root)
  /-- An attribute with a text as its value. -/
  | literal (name : String) (value : Option String) : Obtained (.ofAttribute (.literal name value))
  /-- An attribute with the value of a name. -/
  | identifier (name reference : String) : Obtained (.ofAttribute (.identifier name reference))
  /-- A node that was made. -/
  | built {attributes : List Attribute} {children : List Node} {node : Node}
      (h : node.Built attributes children)
      (hattributes : ∀ attr ∈ attributes, Obtained (.ofAttribute attr))
      (hchildren : ∀ child ∈ children, Obtained (.ofNode child)) : Obtained (.ofNode node)
  /-- A document that was made. -/
  | document {children : List Node} (h : ∀ child ∈ children, Obtained (.ofNode child)) :
      Obtained (.ofRoot { children })
  /-- An attribute of an element. -/
  | attributeOf {placement : Placement} {name : Option String} {attributes : List Attribute}
      {others : OtherMembers} {children : List Node}
      (h : Obtained (.ofNode (.branch (.element placement name attributes) others children)))
      {attr : Attribute} (hattr : attr ∈ attributes) : Obtained (.ofAttribute attr)
  /-- A child of a branch. -/
  | childOf {content : Branch} {others : OtherMembers} {children : List Node}
      (h : Obtained (.ofNode (.branch content others children))) {child : Node}
      (hchild : child ∈ children) : Obtained (.ofNode child)
  /-- A top level node of a document. -/
  | nodeOf {root : Root} (h : Obtained (.ofRoot root)) {node : Node}
      (hnode : node ∈ root.children) : Obtained (.ofNode node)
  /-- A branch with other children. -/
  | branch {content : Branch} {others : OtherMembers} {children edited : List Node}
      (h : Obtained (.ofNode (.branch content others children)))
      (hedited : ∀ child ∈ edited, Obtained (.ofNode child)) :
      Obtained (.ofNode (.branch content others edited))
  /-- A document with other nodes. -/
  | root {root : Root} {edited : List Node} (h : Obtained (.ofRoot root))
      (hedited : ∀ child ∈ edited, Obtained (.ofNode child)) :
      Obtained (.ofRoot { root with children := edited })
  /-- A document after a pass. -/
  | pass (settings : PassSettings) {root : Root} (h : Obtained (.ofRoot root)) :
      Obtained (.ofRoot (importImages settings root))
  /-- An attribute with some other members taken out. -/
  | trimAttribute {old new : Attribute} (h : Obtained (.ofAttribute old))
      (htrim : old.Trimmed new) : Obtained (.ofAttribute new)
  /-- A node with some other members taken out. -/
  | trimNode {old new : Node} (h : Obtained (.ofNode old)) (htrim : old.Trimmed new) :
      Obtained (.ofNode new)
  /-- A document with some other members taken out. -/
  | trimRoot {old new : Root} (h : Obtained (.ofRoot old)) (htrim : old.Trimmed new) :
      Obtained (.ofRoot new)

/-- The attribute, the node or the document is tidy. -/
def Part.Tidy : Part → Prop
  | .ofAttribute attr => attr.Tidy
  | .ofNode node => node.Tidy
  | .ofRoot root => root.Tidy

/-- Whatever comes about is tidy. The induction has one case for each way in which a part comes
about. -/
theorem Part.Obtained.tidy {part : Part} (h : part.Obtained) : part.Tidy := by
  -- By how it came about: what was read, what was made, what is part of something tidy, and what
  -- became of something tidy by an edit, a pass or by taking members out.
  induction h with
  | readAttribute hvalue h => exact Attribute.gives_tidy _ _ _ h hvalue
  | readNode hvalue h => exact Node.tidy_of_ofJson? _ _ h hvalue
  | readRoot hvalue h => exact Root.tidy_of_ofJson h hvalue
  | literal name value => exact Attribute.literal_tidy name value
  | identifier name reference => exact Attribute.identifier_tidy name reference
  | built h _ _ hattributes hchildren => exact Node.Built.tidy h hattributes hchildren
  | document _ hchildren => exact ⟨hchildren, OtherMembers.tidy_empty _⟩
  | attributeOf _ hattr ih =>
      cases ih with
      | branch hcontent hothers hchildren => exact hcontent _ hattr
  | childOf _ hchild ih =>
      cases ih with
      | branch hcontent hothers hchildren => exact hchildren _ hchild
  | nodeOf _ hnode ih => exact Root.Tidy.children ih _ hnode
  | branch _ _ ih hedited =>
      cases ih with
      | branch hcontent hothers hchildren => exact .branch hcontent hothers hedited
  | root _ _ ih hedited =>
      obtain ⟨-, hothers⟩ : Root.Tidy _ := ih
      exact ⟨hedited, hothers⟩
  | pass settings _ ih => exact importImages_tidy settings ih
  | trimAttribute _ htrim ih => exact Attribute.Tidy.trimmed ih htrim
  | trimNode _ htrim ih => exact Node.Tidy.trimmed ih htrim
  | trimRoot _ htrim ih => exact Root.Tidy.trimmed ih htrim

/-! ### Edits at a path and on a walk -/

/-- That a node comes about, by any of the ways in `Part.Obtained`. -/
def Mdast.Node.Obtained (node : Node) : Prop := Part.Obtained (.ofNode node)

/-- That a document comes about, by any of the ways in `Part.Obtained`. -/
def Mdast.Root.Obtained (root : Root) : Prop := Part.Obtained (.ofRoot root)

namespace Tree

variable {nodes edited : List Node}

/-- An edit of the list of children at a path leaves nodes that come about, if it makes such nodes
of such nodes. -/
theorem obtained_of_editChildrenAt {edit : List Node → Except PathError (List Node)}
    (hedit : ∀ list list', (∀ n ∈ list, n.Obtained) → edit list = .ok list' →
      ∀ n ∈ list', n.Obtained) :
    ∀ {path : List Nat} {nodes edited : List Node}, (∀ n ∈ nodes, n.Obtained) →
      editChildrenAt edit path nodes = .ok edited → ∀ n ∈ edited, n.Obtained
  | [], _, _, hnodes, h => hedit _ _ hnodes h
  | index :: rest, nodes, edited, hnodes, h => by
      unfold editChildrenAt at h
      cases hget : nodes[index]? with
      | none => simp [hget] at h
      | some node =>
          cases node with
          | leaf content others => simp [hget] at h
          | branch content others children =>
              have hbranch := hnodes _ (List.mem_of_getElem? hget)
              cases hbelow : editChildrenAt edit rest children with
              | error cause => simp [hget, hbelow] at h
              | ok below =>
                  -- One node of the list is another now, a branch with the edited children.
                  obtain rfl : nodes.set index (.branch content others below) = edited := by
                    simpa [hget, hbelow] using h
                  have hchildren := obtained_of_editChildrenAt hedit
                    (fun child hchild => Part.Obtained.childOf hbranch hchild) hbelow
                  intro n hn
                  rcases List.mem_or_eq_of_mem_set hn with hn | rfl
                  · exact hnodes n hn
                  · exact Part.Obtained.branch hbranch hchildren

/-- An edit of the node at a path leaves nodes that come about, if it makes such nodes of such
nodes. -/
theorem obtained_of_editNodeAt {edit : Node → Node} {path : List Nat}
    (hedit : ∀ node : Node, node.Obtained → (edit node).Obtained) (hnodes : ∀ n ∈ nodes, n.Obtained)
    (h : editNodeAt edit path nodes = .ok edited) : ∀ n ∈ edited, n.Obtained := by
  unfold editNodeAt at h
  cases hlast : path.getLast? with
  | none => simp [hlast] at h
  | some index =>
      simp only [hlast] at h
      refine obtained_of_editChildrenAt (fun list list' hlist hset n hn => ?_) hnodes h
      cases hget : list[index]? with
      | none => simp [hget] at hset
      | some node =>
          obtain rfl : list.set index (edit node) = list' := by simpa [hget] using hset
          rcases List.mem_or_eq_of_mem_set hn with hn | rfl
          · exact hlist n hn
          · exact hedit node (hlist node (List.mem_of_getElem? hget))

/-- Taking a node out leaves nodes that come about. -/
theorem obtained_of_remove {index : Nat} {path : List Nat} (hnodes : ∀ n ∈ nodes, n.Obtained)
    (h : remove index path nodes = .ok edited) : ∀ n ∈ edited, n.Obtained := by
  refine obtained_of_editChildrenAt (fun list list' hlist herase n hn => ?_) hnodes h
  split at herase
  · cases herase
    exact hlist n (List.mem_of_mem_eraseIdx hn)
  · cases herase

/-- Putting a node that comes about among others that do leaves such nodes. -/
theorem obtained_of_insert {index : Nat} {node : Node} {path : List Nat} (hnode : node.Obtained)
    (hnodes : ∀ n ∈ nodes, n.Obtained) (h : insert index node path nodes = .ok edited) :
    ∀ n ∈ edited, n.Obtained := by
  refine obtained_of_editChildrenAt (fun list list' hlist hinsert n hn => ?_) hnodes h
  cases hinsert
  rcases (List.mem_insertIdx (Nat.min_le_right _ _)).1 hn with rfl | hn
  · exact hnode
  · exact hlist n hn

/-- Putting a node that comes about behind others that do leaves such nodes. -/
theorem obtained_of_push {node : Node} {path : List Nat} (hnode : node.Obtained)
    (hnodes : ∀ n ∈ nodes, n.Obtained) (h : push node path nodes = .ok edited) :
    ∀ n ∈ edited, n.Obtained := by
  refine obtained_of_editChildrenAt (fun list list' hlist hpush n hn => ?_) hnodes h
  cases hpush
  rcases List.mem_append.1 hn with hn | hn
  · exact hlist n hn
  · exact List.mem_singleton.1 hn ▸ hnode

/-- A walk leaves nodes that come about, if each visit makes such nodes of such nodes. -/
theorem obtained_of_traverse? {σ : Type} {visitor : Visitor σ}
    (hvisit : ∀ state nodes index, (∀ n ∈ nodes, n.Obtained) →
      ∀ n ∈ (visitor.visit state nodes index).2, n.Obtained)
    {steps : Nat} {state : σ} {index : Nat} {result : σ × List Node}
    (hnodes : ∀ n ∈ nodes, n.Obtained)
    (h : visitor.traverse? steps state nodes index = some result) :
    ∀ n ∈ result.2, n.Obtained :=
  (Visitor.traverse?_keeps (I := fun _ => True)
    (fun state nodes index _ _ hlist _ _ => ⟨trivial, hvisit state nodes index hlist⟩)
    (fun _ _ _ hbranch _ hchild => Part.Obtained.childOf hbranch hchild)
    (fun _ _ _ _ hbranch hwalked => Part.Obtained.branch hbranch hwalked) steps trivial hnodes h).2

end Tree

/-- What comes about of a document by edits: its nodes come about on their own, and the document
does that has nodes put in, taken out or replaced at a path or by a walk. -/
structure Mdast.Root.Editable (root : Root) : Prop where
  nodeAt : ∀ path node, Tree.nodeAt path root.children = .ok node → node.Obtained
  push : ∀ path node children, node.Obtained →
    Tree.push node path root.children = .ok children → Root.Obtained { root with children }
  insert : ∀ path index node children, node.Obtained →
    Tree.insert index node path root.children = .ok children → Root.Obtained { root with children }
  remove : ∀ path index children,
    Tree.remove index path root.children = .ok children → Root.Obtained { root with children }
  replace : ∀ path edit children, (∀ node : Node, node.Obtained → (edit node).Obtained) →
    Tree.editNodeAt edit path root.children = .ok children → Root.Obtained { root with children }
  walk : ∀ (σ : Type) (visitor : Tree.Visitor σ) state steps after children,
    (∀ state nodes index, (∀ n ∈ nodes, n.Obtained) →
      ∀ n ∈ (visitor.visit state nodes index).2, n.Obtained) →
    visitor.traverse? steps state root.children 0 = some (after, children) →
      Root.Obtained { root with children }

/-- Edits of a document that comes about leave documents that come about. -/
theorem Mdast.Root.Obtained.editable {root : Root} (h : root.Obtained) : root.Editable := by
  have hnodes : ∀ n ∈ root.children, n.Obtained := fun n hn => Part.Obtained.nodeOf h hn
  refine ⟨fun path node hpath => ?_, fun path node children hnode hpush => ?_,
    fun path index node children hnode hinsert => ?_, fun path index children hremove => ?_,
    fun path edit children hedit hreplace => ?_,
    fun σ visitor state steps after children hvisit hwalk => ?_⟩
  · exact Tree.nodeAt_of_forall (p := Node.Obtained)
      (fun _ _ _ hbranch _ hchild => Part.Obtained.childOf hbranch hchild) hnodes hpath
  · exact Part.Obtained.root h (Tree.obtained_of_push hnode hnodes hpush)
  · exact Part.Obtained.root h (Tree.obtained_of_insert hnode hnodes hinsert)
  · exact Part.Obtained.root h (Tree.obtained_of_remove hnodes hremove)
  · exact Part.Obtained.root h (Tree.obtained_of_editNodeAt hedit hnodes hreplace)
  · exact Part.Obtained.root h (Tree.obtained_of_traverse? hvisit hnodes hwalk)

/-- A document that is read from a text comes about. -/
theorem Document.obtained_of_parse {text : String} {root : Root}
    (h : Document.parse text = .ok root) : root.Obtained := by
  unfold Document.parse at h
  cases hvalue : Json.parse text with
  | error cause => simp [hvalue] at h
  | ok value =>
      have hread : Document.ofJson value = .ok root := by simpa [hvalue] using h
      exact Part.Obtained.readRoot ⟨maxDepth, fits_of_parse hvalue⟩
        (Document.rootOfJson_of_ofJson hread)

/-! ### The result -/

/-- Documents that are read from texts come about, and so does what edits and walks make of them.
Whatever comes about is tidy: no other member of anything in it is named `type` or like a typed
field beside it. Its text, compact or pretty, repeats no key in any object: this is what a reader
finds who takes the members of each object as they stand and allows for enough objects inside one
another. -/
theorem obtained_repeats_no_key :
    (∀ text root, Document.parse text = .ok root → root.Obtained)
    ∧ ∀ root : Root, root.Obtained →
      root.Editable ∧ root.Tidy
        ∧ ∀ isPretty, ∃ deep, ∀ depth, deep ≤ depth → ∃ value behind,
            Cursor.value (loopLimit (root.print isPretty)) depth
                (Cursor.ofString (root.print isPretty)) = .ok (value, behind)
              ∧ behind.rest = [] ∧ value.DistinctKeys := by
  refine ⟨fun text root => Document.obtained_of_parse, fun root h => ?_⟩
  have htidy : root.Tidy := Part.Obtained.tidy h
  refine ⟨h.editable, htidy, fun isPretty => ?_⟩
  have hwritable := htidy.writable
  obtain ⟨deep, hread⟩ := exists_value_print isPretty hwritable
  refine ⟨deep, fun depth hdeep => ?_⟩
  obtain ⟨behind, hvalue, hbehind⟩ := hread depth hdeep
  exact ⟨root.toJson.reread, behind, hvalue, hbehind, hwritable.distinct.reread⟩

/-- A document with an image that is doubled, wrapped and imported after it was read. -/
theorem obtained_repeats_no_key_image :
    let text :=
      "\x7b\"lang\":\"en\",\"children\":[\x7b\"type\":\"image\",\"url\":\"./a.png\"\x7d]\x7d"
    ∃ root, Document.parse text = .ok root ∧
      let wrapped : Root :=
        { root with children := [.group .emphasis (root.children ++ root.children)] }
      (importImages {} wrapped).Obtained ∧ (importImages {} wrapped).Tidy := by
  intro text
  have hcomputed : (Document.parse text).toOption.isSome = true := by decide +kernel
  cases hread : Document.parse text with
  | error cause => simp [hread, Except.toOption] at hcomputed
  | ok root =>
      have hroot : root.Obtained := obtained_repeats_no_key.1 text root hread
      have hdoubled : ∀ n ∈ root.children ++ root.children, n.Obtained := by
        intro n hn
        exact Part.Obtained.nodeOf hroot (by simpa using hn)
      have hgroup : (Node.group .emphasis (root.children ++ root.children)).Obtained :=
        @Part.Obtained.built [] _ _ (.group .emphasis) (by simp) hdoubled
      have hwrapped :=
        Part.Obtained.pass {} (Part.Obtained.root hroot (List.forall_mem_singleton.2 hgroup))
      exact ⟨root, rfl, hwrapped, (obtained_repeats_no_key.2 _ hwrapped).2.1⟩

end ImageImports
