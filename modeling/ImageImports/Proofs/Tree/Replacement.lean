import Mathlib.Data.List.Basic
import ImageImports.Proofs.Tree.Path
import ImageImports.Proofs.Tree.Traversal

/-!
# `ImageImports.Proofs.Tree.Replacement`: a walk that puts one node in the place of another

A visitor may do no more than put another node in the place of the one it is called for. If that
node is never higher than the one before, the walk ends, and it is the top-down recursion one would
write for the same purpose (`Replacement.rewriteAll`): each node is replaced first, then the
children of what replaced it are gone through, and the state is threaded along. The loop over places
is related to it by cutting the list at the place, with the nodes already rewritten in front
(`Replacement.walks_rewriteAll`); the induction is on the height, and within one height on the nodes
that are left.

A visitor that changes no list can be watched at work (`observer`): it is called once for each
matching node, in the order of the document, with the list that holds the node and its place there.
The order of the document is the lexicographic one of the paths that lead to its nodes (`paths`).

Main result: `walk_eq_rewriteAll`.
-/

set_option autoImplicit false

namespace ImageImports.Tree

open Mdast

variable {σ : Type}

/-! ### The height of a tree -/

mutual

/-- The length of the longest chain of child lists that starts at a node. A leaf has none, and a
branch without children has one. -/
def height : Node → Nat
  | .leaf _ _ => 0
  | .branch _ _ children => heightAll children + 1

/-- The greatest height of some nodes. -/
def heightAll : List Node → Nat
  | [] => 0
  | node :: rest => max (height node) (heightAll rest)

end

/-! ### Replacing nodes one by one -/

/-- What a walk puts in the place of each matching node: a node that is not higher. Without this
condition a walk need not end, as a node can be replaced by one that holds what is replaced in
turn. -/
structure Replacement (σ : Type) where
  /-- Whether a node is replaced. -/
  test : Node → Bool
  /-- The state and the node after the replacement. -/
  replace : σ → Node → σ × Node
  /-- No replacement is higher than the node that it replaces. -/
  height_le : ∀ state node, height (replace state node).2 ≤ height node

namespace Replacement

/-- The visitor that sets the place of a node to its replacement and leaves all other nodes of the
list alone. -/
def visitor (r : Replacement σ) : Visitor σ where
  test := r.test
  visit state nodes index :=
    match nodes[index]? with
    | some node => ((r.replace state node).1, nodes.set index (r.replace state node).2)
    | none => (state, nodes)

/-- The state and the node after a visit, if there is one. A node that does not satisfy the test is
passed by, and the state with it. -/
def replaceIf (r : Replacement σ) (state : σ) (node : Node) : σ × Node :=
  if r.test node then r.replace state node else (state, node)

/-- Whether it was replaced or not, a node is no higher afterwards. -/
theorem height_replaceIf_le (r : Replacement σ) (state : σ) (node : Node) :
    height (r.replaceIf state node).2 ≤ height node := by
  unfold replaceIf
  split
  · exact r.height_le state node
  · exact Nat.le_refl _

/-- A branch is higher than its children are, also when it stands in for another node. -/
theorem heightAll_lt (r : Replacement σ) {state below : σ} {node : Node} {content : Branch}
    {others : OtherMembers} {children : List Node}
    (h : r.replaceIf state node = (below, .branch content others children)) :
    heightAll children < height node := by
  have hle := r.height_replaceIf_le state node
  rw [h] at hle
  exact hle

mutual

/-- Replaces a node and then the nodes below its replacement. It goes by the structure of the tree
and has no places in it: this is what one would write in the first instance. -/
def rewrite (r : Replacement σ) (state : σ) (node : Node) : σ × Node :=
  match h : r.replaceIf state node with
  | (after, .leaf content others) => (after, .leaf content others)
  | (below, .branch content others children) =>
      have := r.heightAll_lt h
      let walked := rewriteAll r below children
      (walked.1, .branch content others walked.2)
termination_by (height node, 0)

/-- Replaces the nodes of a list and below them, from left to right, with the state that comes out
of one node going into the next. -/
def rewriteAll (r : Replacement σ) (state : σ) (nodes : List Node) : σ × List Node :=
  match nodes with
  | [] => (state, [])
  | node :: rest =>
      let first := rewrite r state node
      let walked := rewriteAll r first.1 rest
      (walked.1, first.2 :: walked.2)
termination_by (heightAll nodes, nodes.length + 1)
decreasing_by
  all_goals simp only [heightAll, List.length_cons, Prod.lex_def]
  · omega
  · omega

end

/-- Where a leaf has come in its place, a node is done: there is nothing below it. -/
theorem rewrite_leaf (r : Replacement σ) {state after : σ} {node : Node} {content : Leaf}
    {others : OtherMembers} (h : r.replaceIf state node = (after, .leaf content others)) :
    r.rewrite state node = (after, .leaf content others) := by
  rw [rewrite]
  split
  · rename_i h'
    rw [h] at h'
    cases h'
    rfl
  · rename_i h'
    rw [h] at h'
    cases h'

/-- Where a branch has come in its place, the state goes on into the children of that branch, and it
comes out of them changed. -/
theorem rewrite_branch (r : Replacement σ) {state below : σ} {node : Node} {content : Branch}
    {others : OtherMembers} {children : List Node}
    (h : r.replaceIf state node = (below, .branch content others children)) :
    r.rewrite state node = ((r.rewriteAll below children).1,
      .branch content others (r.rewriteAll below children).2) := by
  rw [rewrite]
  split
  · rename_i h'
    rw [h] at h'
    cases h'
  · rename_i h'
    rw [h] at h'
    cases h'
    rfl

/-- No nodes are rewritten to no nodes, and the state stays. -/
theorem rewriteAll_nil (r : Replacement σ) (state : σ) : r.rewriteAll state [] = (state, []) := by
  rw [rewriteAll]

/-- Nodes are rewritten in their order. The state that comes out of one of them, and of everything
below it, goes into the next. -/
theorem rewriteAll_cons (r : Replacement σ) (state : σ) (node : Node) (rest : List Node) :
    r.rewriteAll state (node :: rest)
      = ((r.rewriteAll (r.rewrite state node).1 rest).1,
          (r.rewrite state node).2 :: (r.rewriteAll (r.rewrite state node).1 rest).2) := by
  rw [rewriteAll]

/-- At its place among other nodes a node is replaced or left, and all the others stay. -/
theorem visitAt (r : Replacement σ) (state : σ) (before rest : List Node) (node : Node) :
    r.visitor.visitAt state (before ++ node :: rest) before.length
      = ((r.replaceIf state node).1, before ++ (r.replaceIf state node).2 :: rest) := by
  by_cases htest : r.test node = true
  · simp [Visitor.visitAt, visitor, replaceIf, htest]
  · simp [Visitor.visitAt, visitor, replaceIf, htest]

/-- From the place behind the nodes already rewritten, the walk rewrites the others. The nodes in
front are what the recursion has made of the nodes before, and the walk does not touch them
again. -/
theorem walks_rewriteAll (r : Replacement σ) (state : σ) (before nodes : List Node) :
    r.visitor.Walks state (before ++ nodes) before.length
      ((r.rewriteAll state nodes).1, before ++ (r.rewriteAll state nodes).2) := by
  cases nodes with
  | nil =>
      rw [rewriteAll_nil, List.append_nil]
      exact Visitor.Walks.done (Nat.le_refl _)
  | cons node rest =>
      have hvisit := r.visitAt state before rest node
      rw [rewriteAll_cons]
      rcases hreplace : r.replaceIf state node with ⟨below, new⟩
      rw [hreplace] at hvisit
      -- What the walk does next depends on the node that stands there after the visit, not on the
      -- one that was visited.
      cases new with
      | leaf content others =>
          rw [r.rewrite_leaf hreplace]
          have hrest := r.walks_rewriteAll below (before ++ [.leaf content others]) rest
          rw [List.append_assoc _ _ (r.rewriteAll below rest).2] at hrest
          exact Visitor.Walks.leaf hvisit hrest
      | branch content others children =>
          rw [r.rewrite_branch hreplace]
          have hheight := r.heightAll_lt hreplace
          have hchildren := r.walks_rewriteAll below [] children
          have hrest := r.walks_rewriteAll (r.rewriteAll below children).1
            (before ++ [.branch content others (r.rewriteAll below children).2]) rest
          rw [List.append_assoc _ _ (r.rewriteAll _ rest).2] at hrest
          exact Visitor.Walks.branch hvisit hchildren hrest
termination_by (heightAll nodes, nodes.length)
decreasing_by
  all_goals simp only [heightAll, List.length_cons, Prod.lex_def]
  all_goals omega

end Replacement

/-! ### The nodes of a document in their order -/

/-- The place that a path leads to: the list that holds the last node on it, and the place in that
list. -/
def placeAt? : List Nat → List Node → Option Place
  | [], _ => none
  | [index], nodes => if index < nodes.length then some ⟨nodes, index⟩ else none
  | index :: next :: rest, nodes =>
      (nodes[index]?.bind Node.children?).bind (placeAt? (next :: rest))

mutual

/-- The paths that lead on from a node, in the order in which they come in the document. -/
def pathsBelow : Node → List (List Nat)
  | .leaf _ _ => []
  | .branch _ _ children => pathsFrom 0 children

/-- The paths that lead to some nodes, the first of which stands at a given place. -/
def pathsFrom : Nat → List Node → List (List Nat)
  | _, [] => []
  | index, node :: rest =>
      [index] :: ((pathsBelow node).map (index :: ·) ++ pathsFrom (index + 1) rest)

end

/-- The paths that lead to the nodes of a document, each before those that lead on from it. -/
def paths (nodes : List Node) : List (List Nat) := pathsFrom 0 nodes

/-- The places of the nodes behind some others, each before those below it. -/
def placesFrom (before nodes : List Node) : List Place :=
  (pathsFrom before.length nodes).filterMap fun path => placeAt? path (before ++ nodes)

/-- The places of the nodes of a document, in the order of their paths. -/
def places (nodes : List Node) : List Place := placesFrom [] nodes

/-- A path of the nodes leads to one of them, and then it ends or goes on below it. The first number
counts from the given start. -/
theorem mem_pathsFrom_iff {path : List Nat} {start : Nat} {nodes : List Node} :
    path ∈ pathsFrom start nodes ↔ ∃ index rest node, path = (start + index) :: rest
      ∧ nodes[index]? = some node ∧ (rest = [] ∨ rest ∈ pathsBelow node) := by
  induction nodes generalizing start with
  | nil => simp [pathsFrom]
  | cons first nodes ih =>
      rw [pathsFrom, List.mem_cons, List.mem_append, List.mem_map, ih]
      constructor
      · rintro (rfl | ⟨rest, hrest, rfl⟩ | ⟨index, rest, node, rfl, hget, hrest⟩)
        · exact ⟨0, [], first, rfl, rfl, .inl rfl⟩
        · exact ⟨0, rest, first, rfl, rfl, .inr hrest⟩
        · exact ⟨index + 1, rest, node, by rw [Nat.add_right_comm, Nat.add_assoc], hget, hrest⟩
      · rintro ⟨index, rest, node, rfl, hget, hrest⟩
        cases index with
        | zero =>
            cases hget
            rcases hrest with rfl | hrest
            · exact .inl rfl
            · exact .inr (.inl ⟨rest, hrest, rfl⟩)
        | succ index =>
            refine .inr (.inr ⟨index, rest, node, ?_, hget, hrest⟩)
            rw [Nat.add_right_comm, Nat.add_assoc]

/-- A path below a node has at least one number, as it leads past the node itself. -/
theorem ne_nil_of_mem_pathsBelow {path : List Nat} {node : Node} (h : path ∈ pathsBelow node) :
    path ≠ [] := by
  cases node with
  | leaf content others => simp [pathsBelow] at h
  | branch content others children =>
      obtain ⟨index, rest, node, rfl, -⟩ := mem_pathsFrom_iff.1 h
      exact List.cons_ne_nil _ _

/-- The paths of a document are those that lead to a node. -/
theorem mem_paths_iff {path : List Nat} {nodes : List Node} :
    path ∈ paths nodes ↔ ∃ node, nodeAt path nodes = .ok node := by
  induction path generalizing nodes with
  | nil => simp [paths, mem_pathsFrom_iff, nodeAt]
  | cons index rest ih =>
      rw [paths, mem_pathsFrom_iff]
      constructor
      · rintro ⟨index', rest', node, hpath, hget, hrest⟩
        rw [Nat.zero_add] at hpath
        cases hpath
        rcases hrest with rfl | hrest
        · exact ⟨node, nodeAt_singleton hget⟩
        · cases node with
          | leaf content others => simp [pathsBelow] at hrest
          | branch content others children =>
              obtain ⟨found, hfound⟩ := ih.1 hrest
              exact ⟨found, nodeAt_below hget hfound⟩
      · rintro ⟨node, hnode⟩
        rcases nodeAt_cons hnode with ⟨hget, rfl⟩ | ⟨content, others, children, hget, hrest⟩
        · exact ⟨index, [], node, by rw [Nat.zero_add], hget, .inl rfl⟩
        · exact ⟨index, rest, _, by rw [Nat.zero_add], hget, .inr (ih.2 ⟨node, hrest⟩)⟩

/-- A path leads to the place of the node that it names. -/
theorem node?_placeAt? {path : List Nat} {nodes : List Node} {node : Node}
    (h : nodeAt path nodes = .ok node) : (placeAt? path nodes).bind Place.node? = some node := by
  induction path generalizing nodes with
  | nil => simp [nodeAt] at h
  | cons index rest ih =>
      rcases nodeAt_cons h with ⟨hget, rfl⟩ | ⟨content, others, children, hget, hrest⟩
      · rw [placeAt?, if_pos (List.getElem?_eq_some_iff.1 hget).1]
        exact hget
      · cases rest with
        | nil => simp [nodeAt] at hrest
        | cons next rest =>
            rw [placeAt?, hget]
            exact ih hrest

mutual

/-- The paths below a node come in lexicographic order, which is the order of reading. -/
theorem pairwise_pathsBelow : ∀ node : Node, (pathsBelow node).Pairwise (· < ·)
  | .leaf _ _ => List.Pairwise.nil
  | .branch _ _ children => pairwise_pathsFrom 0 children

/-- Paths are listed in lexicographic order, in which what leads on from a node comes behind it. -/
theorem pairwise_pathsFrom : ∀ (start : Nat) (nodes : List Node),
    (pathsFrom start nodes).Pairwise (· < ·)
  | _, [] => List.Pairwise.nil
  | start, node :: rest => by
      have hbelow := pairwise_pathsBelow node
      have hrest := pairwise_pathsFrom (start + 1) rest
      -- Behind the first node every path starts with a greater place.
      have hlater : ∀ path ∈ pathsFrom (start + 1) rest, ∀ own : List Nat, start :: own < path := by
        intro path hpath own
        obtain ⟨index, below, _, rfl, -⟩ := mem_pathsFrom_iff.1 hpath
        exact List.cons_lt_cons_iff.2 (.inl (by omega))
      rw [pathsFrom, List.pairwise_cons, List.pairwise_append, List.pairwise_map]
      refine ⟨fun path hpath => ?_, hbelow.imp fun h => ?_, hrest, fun path hpath => ?_⟩
      · rcases List.mem_append.1 hpath with hpath | hpath
        · obtain ⟨own, hown, rfl⟩ := List.mem_map.1 hpath
          obtain ⟨next, own, rfl⟩ := List.exists_cons_of_ne_nil (ne_nil_of_mem_pathsBelow hown)
          exact List.cons_lt_cons_iff.2 (.inr ⟨rfl, List.nil_lt_cons _ _⟩)
        · exact hlater path hpath []
      · exact List.cons_lt_cons_iff.2 (.inr ⟨rfl, h⟩)
      · obtain ⟨own, -, rfl⟩ := List.mem_map.1 hpath
        exact fun path hpath => hlater path hpath own

end

/-- There are no places among no nodes. -/
theorem placesFrom_nil (before : List Node) : placesFrom before [] = [] := rfl

/-- The place of the first node comes first, then the places below it, then those of the others. -/
theorem placesFrom_cons (before rest : List Node) (node : Node) :
    placesFrom before (node :: rest)
      = ⟨before ++ node :: rest, before.length⟩
          :: (places (node.children?.getD []) ++ placesFrom (before ++ [node]) rest) := by
  have hget : (before ++ node :: rest)[before.length]? = some node := by simp
  have hfirst : placeAt? [before.length] (before ++ node :: rest)
      = some ⟨before ++ node :: rest, before.length⟩ := by simp [placeAt?]
  have hbelow : ((pathsBelow node).map (before.length :: ·)).filterMap
        (fun path => placeAt? path (before ++ node :: rest))
      = places (node.children?.getD []) := by
    rw [List.filterMap_map]
    cases node with
    | leaf content others => rfl
    | branch content others children =>
        -- A path below the node goes on from it, whatever stands around the node.
        refine List.filterMap_congr fun path hpath => ?_
        obtain ⟨next, path, rfl⟩ := List.exists_cons_of_ne_nil (ne_nil_of_mem_pathsBelow hpath)
        show placeAt? (before.length :: next :: path) _ = _
        rw [placeAt?, hget]
        rfl
  rw [placesFrom, pathsFrom, List.filterMap_cons, hfirst, List.filterMap_append, hbelow,
    placesFrom, List.length_append, List.append_assoc]
  rfl

/-! ### Watching a walk -/

/-- A visitor that changes no list and notes in its state the places it is called for. It is the
general form of a visitor that returns its node unchanged: whatever it makes of the places goes into
the state. -/
def observer (test : Node → Bool) (observe : σ → Place → σ) : Visitor σ where
  test := test
  visit state nodes index := (observe state ⟨nodes, index⟩, nodes)

/-- The state after a place is passed: only matching ones are noted. -/
def noted (test : Node → Bool) (observe : σ → Place → σ) (state : σ) (place : Place) : σ :=
  if place.satisfies test then observe state place else state

/-- An observer notes the place where it is and leaves all nodes as they are. -/
theorem visitAt_observer (test : Node → Bool) (observe : σ → Place → σ) (state : σ)
    (before rest : List Node) (node : Node) :
    (observer test observe).visitAt state (before ++ node :: rest) before.length
      = (noted test observe state ⟨before ++ node :: rest, before.length⟩,
          before ++ node :: rest) := by
  by_cases htest : test node = true
  · simp [Visitor.visitAt, observer, noted, Place.satisfies, Place.node?, htest]
  · simp [Visitor.visitAt, observer, noted, Place.satisfies, Place.node?, htest]

/-- From the place behind some nodes, the walk passes the places of the others in order. -/
theorem walks_observer (test : Node → Bool) (observe : σ → Place → σ) (state : σ)
    (before nodes : List Node) :
    (observer test observe).Walks state (before ++ nodes) before.length
      ((placesFrom before nodes).foldl (noted test observe) state, before ++ nodes) := by
  cases nodes with
  | nil =>
      rw [placesFrom_nil, List.append_nil]
      exact Visitor.Walks.done (Nat.le_refl _)
  | cons node rest =>
      -- Nothing changes at the visit, so the walk finds the same nodes below and behind.
      have hvisit := visitAt_observer test observe state before rest node
      have hrest : ∀ after, (observer test observe).Walks after ((before ++ [node]) ++ rest)
          (before ++ [node]).length
          ((placesFrom (before ++ [node]) rest).foldl (noted test observe) after,
            before ++ node :: rest) := by
        intro after
        rw [List.append_cons before node rest]
        exact walks_observer test observe after (before ++ [node]) rest
      rw [placesFrom_cons, List.foldl_cons, List.foldl_append]
      cases node with
      | leaf content others => exact Visitor.Walks.leaf hvisit (hrest _)
      | branch content others children =>
          have hchildren := fun below => walks_observer test observe below [] children
          exact Visitor.Walks.branch hvisit (hchildren _) (hrest _)
termination_by (heightAll nodes, nodes.length)
decreasing_by
  all_goals simp only [heightAll, height, List.length_cons, Prod.lex_def]
  all_goals omega

/-- A visitor that puts nodes in the place of others, none higher than the one it replaces, does
what the top-down recursion does: from left to right through each list, each matching node replaced
and then the nodes below its replacement, with the state threaded along. A visitor that changes
nothing is called once for each matching node, in the order of the paths that lead to them, with the
list that holds the node and its place there. -/
theorem walk_eq_rewriteAll :
    (∀ (r : Replacement σ) (state : σ) (root : Root),
      r.visitor.Walks state root.children 0 (r.rewriteAll state root.children))
    ∧ (∀ (test : Node → Bool) (observe : σ → Place → σ) (state : σ) (root : Root),
      (observer test observe).Walks state root.children 0
        (((places root.children).filter (·.satisfies test)).foldl observe state, root.children))
    ∧ ∀ nodes : List Node,
      places nodes = (paths nodes).filterMap (placeAt? · nodes)
        ∧ (paths nodes).Pairwise (· < ·)
        ∧ (∀ path, path ∈ paths nodes ↔ ∃ node, nodeAt path nodes = .ok node)
        ∧ ∀ path node, nodeAt path nodes = .ok node →
            (placeAt? path nodes).bind Place.node? = some node := by
  refine ⟨fun r state root => ?_, fun test observe state root => ?_, fun nodes => ?_⟩
  · exact r.walks_rewriteAll state [] root.children
  · rw [List.foldl_filter]
    exact walks_observer test observe state [] root.children
  · exact ⟨rfl, pairwise_pathsFrom 0 nodes, fun _ => mem_paths_iff, fun _ _ => node?_placeAt?⟩

/-- A replacement with a counter: an image gives way to a text that tells how many nodes were
replaced before it, and strong text to emphasised text around the same children. A text is no higher
than an image, and the height of a branch is that of its children, so no tree grows. -/
def numbering : Replacement Nat where
  test
    | .leaf (.image _) _ => true
    | .branch (.grouping .strong) _ _ => true
    | _ => false
  replace count
    | .leaf (.image _) others => (count + 1, .leaf (.text .text (toString count)) others)
    | .branch (.grouping .strong) others children =>
        (count + 1, .branch (.grouping .emphasis) others children)
    | node => (count, node)
  height_le count node := by
    split
    · exact Nat.le_refl _
    · exact Nat.le_refl _
    · exact Nat.le_refl _

/-- Strong text holds an image and, inside emphasised text, another one, and a third image follows
it. The strong text is replaced first, then the images below it and then the third one, as the
numbers in the texts tell. A visitor that only watches is called for the images at the places `0`,
`0` and `1` of their lists. -/
theorem walk_eq_rewriteAll_numbering :
    let group (kind : Grouping) (children : List Node) : Node :=
      .branch (.grouping kind) .empty children
    let image (url : String) : Node := .leaf (.image url) .empty
    let text (value : String) : Node := .leaf (.text .text value) .empty
    let nodes := [group .strong [image "a", group .emphasis [image "b"]], image "c"]
    let isImage (node : Node) : Bool := node.kind == "image"
    (∀ count node, height (numbering.replace count node).2 ≤ height node)
      ∧ numbering.visitor.Walks 0 nodes 0
        (4, [group .emphasis [text "1", group .emphasis [text "2"]], text "3"])
      ∧ (observer isImage fun seen place => seen ++ [place.index]).Walks [] nodes 0
          ([0, 0, 1], nodes) := by
  intro group image text nodes isImage
  refine ⟨numbering.height_le, ?_, ?_⟩
  · have hwalk := walk_eq_rewriteAll.1 numbering 0 ⟨nodes, .empty⟩
    have himage (count : Nat) (url : String) :
        numbering.rewrite count (image url) = (count + 1, text (toString count)) :=
      numbering.rewrite_leaf rfl
    have hstrong (count : Nat) (children : List Node) :
        numbering.rewrite count (group .strong children)
          = ((numbering.rewriteAll (count + 1) children).1,
              group .emphasis (numbering.rewriteAll (count + 1) children).2) :=
      numbering.rewrite_branch rfl
    have hemphasis (count : Nat) (children : List Node) :
        numbering.rewrite count (group .emphasis children)
          = ((numbering.rewriteAll count children).1,
              group .emphasis (numbering.rewriteAll count children).2) :=
      numbering.rewrite_branch rfl
    simp only [nodes, Replacement.rewriteAll_cons, Replacement.rewriteAll_nil, himage, hstrong,
      hemphasis] at hwalk
    exact hwalk
  · exact walk_eq_rewriteAll.2.1 isImage _ [] ⟨nodes, .empty⟩

end ImageImports.Tree
