import ImageImports.Mdast.Basic

/-!
# `ImageImports.Tree.Path`: nodes by their place in a document

A path is the list of places to go through from the top of a document. It names a node, or the list
of children below a node; the empty path names the list at the top.

Main definitions: `nodeAt`, `editNodeAt` and `editChildrenAt`.
-/

set_option autoImplicit false

namespace ImageImports.Tree

open Mdast

/-- Why a path names nothing. -/
inductive PathError where
  /-- A node is asked for and the path is empty. -/
  | emptyPath
  /-- There is no node at a place. -/
  | noSuchChild
  /-- A node on the way has no list of children. -/
  | leaf

/-- The text of an error. -/
def PathError.message : PathError → String
  | .emptyPath => "empty path"
  | .noSuchChild => "no such child"
  | .leaf => "leaf"

/-- The node that a path names. -/
def nodeAt : List Nat → List Node → Except PathError Node
  | [], _ => .error .emptyPath
  | index :: rest, nodes =>
      match nodes[index]? with
      | none => .error .noSuchChild
      | some node =>
          if rest.isEmpty then .ok node
          else
            match node with
            | .leaf _ _ => .error .leaf
            | .branch _ _ children => nodeAt rest children

/-- Edits the list of children that a path names. -/
def editChildrenAt (edit : List Node → Except PathError (List Node)) :
    List Nat → List Node → Except PathError (List Node)
  | [], nodes => edit nodes
  | index :: rest, nodes =>
      match nodes[index]? with
      | none => .error .noSuchChild
      | some (.leaf _ _) => .error .leaf
      | some (.branch content others children) =>
          match editChildrenAt edit rest children with
          | .error cause => .error cause
          | .ok children => .ok (nodes.set index (.branch content others children))

/-- Edits the node that a path names. -/
def editNodeAt (edit : Node → Node) (path : List Nat) (nodes : List Node) :
    Except PathError (List Node) :=
  match path.getLast? with
  | none => .error .emptyPath
  | some index =>
      editChildrenAt
        (fun children =>
          match children[index]? with
          | some node => .ok (children.set index (edit node))
          | none => .error .noSuchChild)
        path.dropLast nodes

/-- Puts a node behind the children that a path names. -/
def push (node : Node) : List Nat → List Node → Except PathError (List Node) :=
  editChildrenAt fun children => .ok (children ++ [node])

/-- Puts a node among the children that a path names; a place behind the last one means the end. -/
def insert (index : Nat) (node : Node) : List Nat → List Node → Except PathError (List Node) :=
  editChildrenAt fun children => .ok (children.insertIdx (min index children.length) node)

/-- Takes a node out of the children that a path names. -/
def remove (index : Nat) : List Nat → List Node → Except PathError (List Node) :=
  editChildrenAt fun children =>
    if index < children.length then .ok (children.eraseIdx index) else .error .noSuchChild

end ImageImports.Tree
