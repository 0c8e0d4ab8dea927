import ImageImports.Mdast.Basic

/-!
# `ImageImports.Tree.Traversal`: walking a tree while it is edited

The walk goes through a list of children by place. At each place it first calls the visitor, if the
node there is to be visited, with the whole list and the place; the visitor may return any list.
Then the walk descends into whatever node now stands at that place, and goes on to the next place.

A visitor that keeps adding nodes can keep the walk going for ever, so the walk takes a bound on its
steps and has no result where the bound is too small.

Main definition: `Visitor.traverse?`, which is `visit_mut` with its inner function `walk`.
-/

set_option autoImplicit false

namespace ImageImports.Tree

open Mdast

/-- What is done on a walk: which nodes are visited, and what a visit does to the list of children
and to a state. The state stands for whatever the function that is called at each node may hold on
to. -/
structure Visitor (σ : Type) where
  /-- Whether a node is visited. -/
  test : Node → Bool
  /-- What a visit does, given the state, the list and the place of the node in it. -/
  visit : σ → List Node → Nat → σ × List Node

namespace Visitor

variable {σ : Type}

/-- The state and the list after the visit at a place, if there is one. -/
def visitAt (visitor : Visitor σ) (state : σ) (nodes : List Node) (index : Nat) : σ × List Node :=
  match nodes[index]? with
  | some node => if visitor.test node then visitor.visit state nodes index else (state, nodes)
  | none => (state, nodes)

/-- Walks a list of children from a place on, within a number of steps. This is the loop of
`visit_mut`: after a visit the list may be another one, and what counts is the node at the same
place in it. -/
def traverse? (visitor : Visitor σ) : Nat → σ → List Node → Nat → Option (σ × List Node)
  | 0, _, _, _ => none
  | steps + 1, state, nodes, index =>
      if index < nodes.length then
        let (state, nodes) := visitor.visitAt state nodes index
        match nodes[index]? with
        | some (.branch content others children) =>
            match traverse? visitor steps state children 0 with
            | none => none
            | some (state, children) =>
                traverse? visitor steps state (nodes.set index (.branch content others children))
                  (index + 1)
        | _ => traverse? visitor steps state nodes (index + 1)
      else some (state, nodes)

end Visitor

/-! ### The size of a tree -/

mutual

/-- The number of nodes of a tree. -/
def size : Node → Nat
  | .leaf _ _ => 1
  | .branch _ _ children => sizeAll children + 1

/-- The number of nodes of some trees. -/
def sizeAll : List Node → Nat
  | [] => 0
  | node :: rest => size node + sizeAll rest

end

/-! ### Edits during a walk -/

/-- An edit of a list of children at a place. -/
inductive Edit where
  /-- Changes nothing. -/
  | keep
  /-- Takes the node out. -/
  | remove
  /-- Drops the node and all behind it. -/
  | truncate
  /-- Drops all nodes. -/
  | clear
  /-- Puts the node into a strong one. -/
  | wrap
  /-- Puts a copy of the node behind all others. -/
  | duplicate
  /-- Puts another node in the place of the node. -/
  | replace (node : Node)
  /-- Puts another node before the node. -/
  | before (node : Node)
  /-- Puts another node behind the node. -/
  | after (node : Node)

namespace Edit

/-- The list after an edit at a place. -/
def apply (edit : Edit) (nodes : List Node) (index : Nat) : List Node :=
  match edit with
  | .keep => nodes
  | .remove => nodes.eraseIdx index
  | .truncate => nodes.take index
  | .clear => []
  | .wrap =>
      match nodes[index]? with
      | some node => nodes.set index (.branch (.grouping .strong) .empty [node])
      | none => nodes
  | .duplicate => nodes ++ nodes[index]?.toList
  | .replace node => nodes.set index node
  | .before node => nodes.insertIdx index node
  | .after node => nodes.insertIdx (index + 1) node

/-- The number of nodes that an edit can bring in from outside. -/
def size : Edit → Nat
  | .replace node => Tree.size node
  | .before node => Tree.size node
  | .after node => Tree.size node
  | _ => 1

end Edit

/-- One visit of a walk: the place of the node, its type, and the number of nodes beside it. -/
structure Visit where
  /-- The place of the node. -/
  index : Nat
  /-- The type of the node. -/
  kind : String
  /-- The length of the list that holds it. -/
  parentLength : Nat

/-- A visitor that records every visit and edits the list on its first few ones. The state holds
the visits in reverse order. -/
def editor (test : Node → Bool) (edit : Edit) (limit : Nat) : Visitor (List Visit) where
  test := test
  visit visits nodes index :=
    let kind := (nodes[index]?.map Node.kind).getD ""
    ({ index, kind, parentLength := nodes.length } :: visits,
      if visits.length < limit then edit.apply nodes index else nodes)

/-- A bound on the steps of a walk with a limited number of edits. An edit at most doubles the tree,
apart from what it brings in, and a walk takes at most one step for each node and each list. -/
def stepBound (nodes : List Node) (edit : Edit) (limit : Nat) : Nat :=
  (sizeAll nodes + edit.size + 2) * Nat.pow 2 (limit + 2)

/-- Walks a document with a limited number of edits: the visits in their order and the document
afterwards. -/
def editWhileWalking (root : Root) (test : Node → Bool) (edit : Edit) (limit : Nat) :
    Option (List Visit × Root) :=
  let bound := stepBound root.children edit limit
  match (editor test edit limit).traverse? bound [] root.children 0 with
  | some (visits, children) => some (visits.reverse, { root with children })
  | none => none

end ImageImports.Tree
