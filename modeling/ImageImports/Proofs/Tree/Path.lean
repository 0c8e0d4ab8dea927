import ImageImports.Tree.Path

/-!
# `ImageImports.Proofs.Tree.Path`: how a path leads to a node

A path leads to a node in one of two ways: its last place names the node itself, or its first place
names a branch and the other places lead on below it (`nodeAt_cons`). Facts about the node at a path
are proved by induction on the path along these two cases.
-/

set_option autoImplicit false

namespace ImageImports.Tree

open Mdast

/-- A path of one number leads to the node with that number at the top. -/
theorem nodeAt_singleton {index : Nat} {nodes : List Node} {node : Node}
    (h : nodes[index]? = some node) : nodeAt [index] nodes = .ok node := by
  simp [nodeAt, h]

/-- Below a branch the path goes on among its children. -/
theorem nodeAt_below {index : Nat} {rest : List Nat} {nodes children : List Node} {node : Node}
    {content : Branch} {others : OtherMembers}
    (h : nodes[index]? = some (.branch content others children))
    (hrest : nodeAt rest children = .ok node) : nodeAt (index :: rest) nodes = .ok node := by
  cases rest with
  | nil => simp [nodeAt] at hrest
  | cons next rest => simpa [nodeAt, h] using hrest

/-- A node among some nodes has a path among more nodes in front of them. -/
theorem nodeAt_cons_nodes (first : Node) {nodes : List Node} {node : Node} {path : List Nat}
    (h : nodeAt path nodes = .ok node) : ∃ path, nodeAt path (first :: nodes) = .ok node := by
  cases path with
  | nil => simp [nodeAt] at h
  | cons index rest => exact ⟨(index + 1) :: rest, by simpa [nodeAt] using h⟩

/-- The two ways in which a path leads to a node: it ends at a place of the list, or it goes on
below the branch that stands there. -/
theorem nodeAt_cons {index : Nat} {rest : List Nat} {nodes : List Node} {node : Node}
    (h : nodeAt (index :: rest) nodes = .ok node) :
    nodes[index]? = some node ∧ rest = []
      ∨ ∃ content others children,
          nodes[index]? = some (.branch content others children)
            ∧ nodeAt rest children = .ok node := by
  unfold nodeAt at h
  cases hget : nodes[index]? with
  | none => simp [hget] at h
  | some found =>
      cases rest with
      | nil =>
          simp only [hget, List.isEmpty_nil, if_true] at h
          cases h
          exact .inl ⟨rfl, rfl⟩
      | cons next rest =>
          cases found with
          | leaf content others => simp [hget] at h
          | branch content others children =>
              exact .inr ⟨content, others, children, rfl, by simpa [hget] using h⟩

/-- What holds of some nodes, and with every branch of its children, holds at every path. -/
theorem nodeAt_of_forall {p : Node → Prop}
    (hbelow : ∀ content others children, p (.branch content others children) →
      ∀ child ∈ children, p child) :
    ∀ {path : List Nat} {nodes : List Node} {node : Node},
      (∀ n ∈ nodes, p n) → nodeAt path nodes = .ok node → p node
  | [], _, _, _, h => by simp [nodeAt] at h
  | _ :: _, _, _, hall, h => by
      rcases nodeAt_cons h with ⟨hget, -⟩ | ⟨content, others, children, hget, hrest⟩
      · exact hall _ (List.mem_of_getElem? hget)
      · have hbranch := hall _ (List.mem_of_getElem? hget)
        exact nodeAt_of_forall hbelow (hbelow content others children hbranch) hrest

/-- Among no nodes, no path leads anywhere. -/
theorem nodeAt_nil (path : List Nat) (node : Node) : nodeAt path [] ≠ .ok node := by
  cases path <;> simp [nodeAt]

/-- What holds at every path holds of every node at the top and at every path below it. -/
theorem forall_nodeAt_iff {p : Nat → Node → Prop} {nodes : List Node} :
    (∀ path found, nodeAt path nodes = .ok found → p path.length found)
      ↔ ∀ node ∈ nodes, p 1 node
        ∧ ∀ path found, nodeAt path (node.children?.getD []) = .ok found →
            p (path.length + 1) found := by
  constructor
  · intro h node hnode
    obtain ⟨index, hindex⟩ := List.getElem?_of_mem hnode
    refine ⟨h [index] node (nodeAt_singleton hindex), fun path found hpath => ?_⟩
    cases node with
    | leaf content others => exact absurd hpath (nodeAt_nil path found)
    | branch content others children => exact h (index :: path) found (nodeAt_below hindex hpath)
  · intro h path found hpath
    cases path with
    | nil => simp [nodeAt] at hpath
    | cons index rest =>
        rcases nodeAt_cons hpath with ⟨hindex, rfl⟩ | ⟨content, others, children, hindex, hrest⟩
        · exact (h found (List.mem_of_getElem? hindex)).1
        · exact (h _ (List.mem_of_getElem? hindex)).2 rest found hrest

end ImageImports.Tree
