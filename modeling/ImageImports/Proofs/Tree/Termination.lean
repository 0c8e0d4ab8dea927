import ImageImports.Proofs.Tree.Traversal

/-!
# `ImageImports.Proofs.Tree.Termination`: walks with a limited number of edits end

A visitor may put anything in the place of the list it is called with, so a walk can lengthen the
list it is in, deepen the tree below its place, and meet a node again that it has visited before.
Neither the nodes that are left nor the place goes down. What goes down is the number of edits that
are left, and between two edits the nodes that are left (`Settles.exists_walks`): the state that a
walk below a branch ends in has no more edits left than the one it started with, so the walk behind
the branch starts lower as well.

A visitor is limited by counting its calls (`Visitor.limited`) and watched by noting them
(`Visitor.logged`). `checkedWalk` is the walk with every access to a list checked: it tells a place
out of range from a bound on the steps that is too small.

Main result: `limited_walk_ends`.
-/

set_option autoImplicit false

namespace ImageImports.Tree

open Mdast

variable {σ : Type}

/-! ### The nodes that are left -/

/-- What lies ahead is the node at the index and what lies ahead of the next index. -/
theorem sizeAll_drop {nodes : List Node} {index : Nat} {node : Node}
    (h : nodes[index]? = some node) :
    sizeAll (nodes.drop index) = size node + sizeAll (nodes.drop (index + 1)) := by
  obtain ⟨hlt, rfl⟩ := List.getElem?_eq_some_iff.1 h
  rw [List.drop_eq_getElem_cons hlt, sizeAll]

/-- Fewer nodes are left behind the node at a place. -/
theorem sizeAll_drop_succ_lt {nodes : List Node} {index : Nat} (h : index < nodes.length) :
    sizeAll (nodes.drop (index + 1)) < sizeAll (nodes.drop index) := by
  rw [sizeAll_drop (List.getElem?_eq_getElem h)]
  have hpos : 0 < size nodes[index] := by
    cases nodes[index] with
    | leaf content others => exact Nat.one_pos
    | branch content others children => exact Nat.succ_pos _
  omega

/-- Fewer nodes are left below the node at a place. -/
theorem sizeAll_children_lt {nodes children : List Node} {index : Nat} {content : Branch}
    {others : OtherMembers} (h : nodes[index]? = some (.branch content others children)) :
    sizeAll children < sizeAll (nodes.drop index) := by
  rw [sizeAll_drop h, size]
  omega

/-! ### Visitors that settle -/

namespace Visitor

/-- Each visit either uses up one of the edits that are left or keeps the list. So edits come to an
end, whatever they are, and from then on the walk only has to go through what is there. -/
def Settles (visitor : Visitor σ) (left : σ → Nat) : Prop :=
  ∀ state nodes index,
    left (visitor.visit state nodes index).1 < left state
      ∨ left (visitor.visit state nodes index).1 ≤ left state
        ∧ (visitor.visit state nodes index).2 = nodes

variable {visitor : Visitor σ} {left : σ → Nat}

/-- A visit spends one of those that are left, or it leaves the nodes as they are. -/
theorem Settles.visitAt (h : visitor.Settles left) (state : σ) (nodes : List Node) (index : Nat) :
    left (visitor.visitAt state nodes index).1 < left state
      ∨ left (visitor.visitAt state nodes index).1 ≤ left state
        ∧ (visitor.visitAt state nodes index).2 = nodes := by
  rcases visitAt_cases visitor state nodes index with hsame | ⟨node, -, -, hcall⟩
  · rw [hsame]
    exact .inr ⟨Nat.le_refl _, rfl⟩
  · rw [hcall]
    exact h state nodes index

/-- A walk ends, with no more edits left than it started with. The measure is the number of edits
left and, where that stays the same, the number of nodes from the place on. -/
theorem Settles.exists_walks (h : visitor.Settles left) (state : σ) (nodes : List Node)
    (index : Nat) :
    ∃ result, visitor.Walks state nodes index result ∧ left result.1 ≤ left state := by
  by_cases hlt : index < nodes.length
  · -- Either an edit is used up, or the nodes below and behind the place are fewer than from it on.
    have hvisit := h.visitAt state nodes index
    rcases hvisited : visitor.visitAt state nodes index with ⟨after, edited⟩
    rw [hvisited] at hvisit
    by_cases hbranch : ∃ content others children,
        edited[index]? = some (.branch content others children)
    · obtain ⟨content, others, children, hbranch⟩ := hbranch
      -- Without an edit the branch stands in the list as it was, and its children are fewer.
      have hbelow : left after < left state
          ∨ left after ≤ left state ∧ sizeAll children < sizeAll (nodes.drop index) := by
        rcases hvisit with hedit | ⟨hle, rfl⟩
        · exact .inl hedit
        · exact .inr ⟨hle, sizeAll_children_lt hbranch⟩
      obtain ⟨below, hchildren, hleft⟩ := h.exists_walks after children 0
      have hbehind : left below.1 < left state ∨ left below.1 ≤ left state
          ∧ sizeAll ((edited.set index (.branch content others below.2)).drop (index + 1))
            < sizeAll (nodes.drop index) := by
        rw [List.drop_set_of_lt (Nat.lt_succ_self index)]
        rcases hvisit with hedit | ⟨hle, rfl⟩
        · exact .inl (Nat.lt_of_le_of_lt hleft hedit)
        · exact .inr ⟨Nat.le_trans hleft hle, sizeAll_drop_succ_lt hlt⟩
      obtain ⟨result, hrest, hleft'⟩ := h.exists_walks below.1
        (edited.set index (.branch content others below.2)) (index + 1)
      exact ⟨result, .descend hlt hvisited hbranch hchildren hrest, by omega⟩
    · have hbehind : left after < left state ∨ left after ≤ left state
          ∧ sizeAll (edited.drop (index + 1)) < sizeAll (nodes.drop index) := by
        rcases hvisit with hedit | ⟨hle, rfl⟩
        · exact .inl hedit
        · exact .inr ⟨hle, sizeAll_drop_succ_lt hlt⟩
      obtain ⟨result, hrest, hleft⟩ := h.exists_walks after edited (index + 1)
      have hleaf := fun c o ch hget => hbranch ⟨c, o, ch, hget⟩
      exact ⟨result, .pass hlt hvisited hleaf hrest, by omega⟩
  · exact ⟨(state, nodes), .done (Nat.not_lt.1 hlt), Nat.le_refl _⟩
termination_by (left state, sizeAll (nodes.drop index))
decreasing_by
  all_goals simp only [Prod.lex_def, List.drop_zero]
  all_goals omega

/-! ### Limits and logs -/

/-- The visitor that edits in its first calls only. Its state counts the calls. Up to the limit it
does what the given visitor does to the list; behind it the list stays and only the state goes
on. -/
def limited (visitor : Visitor σ) (limit : Nat) : Visitor (Nat × σ) where
  test := visitor.test
  visit state nodes index :=
    let visited := visitor.visit state.2 nodes index
    ((state.1 + 1, visited.1), if state.1 < limit then visited.2 else nodes)

/-- A visitor with a limit settles, whatever it does: only as many visits as the limit allows can
change anything. -/
theorem settles_limited (visitor : Visitor σ) (limit : Nat) :
    (visitor.limited limit).Settles fun state => limit - state.1 := by
  intro state nodes index
  by_cases hlt : state.1 < limit
  · exact .inl (by simp only [limited]; omega)
  · exact .inr ⟨by simp only [limited]; omega, if_neg hlt⟩

/-- The visitor that also notes the place of each of its calls. It leaves the lists and the state of
the given visitor as they are, so both go the same way. -/
def logged (visitor : Visitor σ) : Visitor (List Place × σ) where
  test := visitor.test
  visit state nodes index :=
    let visited := visitor.visit state.2 nodes index
    ((state.1 ++ [⟨nodes, index⟩], visited.1), visited.2)

/-- To note where a visitor comes by does not change whether it settles. -/
theorem Settles.logged (h : visitor.Settles left) :
    visitor.logged.Settles fun state => left state.2 :=
  fun state nodes index => h state.2 nodes index

/-- Noting the calls makes no difference to a walk. -/
theorem visitAt_logged (visitor : Visitor σ) (state : List Place × σ) (nodes : List Node)
    (index : Nat) :
    visitor.visitAt state.2 nodes index
      = Prod.map Prod.snd id (visitor.logged.visitAt state nodes index) := by
  unfold Visitor.visitAt
  cases nodes[index]? with
  | none => rfl
  | some node =>
      by_cases htest : visitor.test node = true
      · simp only [Visitor.logged, htest, if_true]
        rfl
      · simp only [Visitor.logged, htest]
        rfl

/-- A walk that notes its places is a walk of the visitor itself, once the notes are put aside. -/
theorem Walks.of_logged {log : List Place} {state : σ} {nodes : List Node} {index : Nat}
    {result : (List Place × σ) × List Node}
    (h : visitor.logged.Walks (log, state) nodes index result) :
    visitor.Walks state nodes index (result.1.2, result.2) := by
  obtain ⟨enough, h⟩ := h
  refine ⟨enough, fun steps hsteps => ?_⟩
  have hproject := traverse?_project Prod.snd visitor.visitAt_logged steps (log, state) nodes index
  rw [h steps hsteps] at hproject
  exact hproject

/-- A walk calls the visitor for nodes that are there and match, and a limit counts the calls. -/
theorem log_limited {limit : Nat} {root : List Node} {start : σ}
    {result : (List Place × Nat × σ) × List Node}
    (h : (visitor.limited limit).logged.Walks ([], 0, start) root 0 result) :
    result.1.2.1 = result.1.1.length
      ∧ ∀ place ∈ result.1.1, ∃ node, place.node? = some node ∧ visitor.test node = true := by
  obtain ⟨enough, h⟩ := h
  refine (traverse?_keeps (P := fun _ => True)
    (I := fun state => state.2.1 = state.1.length
      ∧ ∀ place ∈ state.1, ∃ node, place.node? = some node ∧ visitor.test node = true)
    ?_ (fun _ _ _ _ _ _ => trivial) (fun _ _ _ _ _ _ => trivial) enough ⟨rfl, by simp⟩
    (fun _ _ => trivial) (h enough (Nat.le_refl _))).1
  -- One call adds one to the count and one place to the log.
  intro state nodes index node hstate _ hget htest
  refine ⟨⟨?_, fun place hplace => ?_⟩, fun _ _ => trivial⟩
  · simp [limited, Visitor.logged, hstate.1]
  · rcases List.mem_append.1 hplace with hplace | hplace
    · exact hstate.2 place hplace
    · rw [List.mem_singleton.1 hplace]
      exact ⟨node, hget, htest⟩

end Visitor

/-! ### Walks with every access checked -/

/-- Why a walk has no result. The first fault is one of the model, which gives every walk a number
of steps, and the second one would be an access out of range in the program. -/
inductive WalkFault where
  /-- The bound on the steps is too small. -/
  | outOfSteps
  /-- A list has no node at a place that is read or written. -/
  | outOfRange

/-- The node at a place of a list, with a fault in the place of a panic where there is none. -/
def readPlace (nodes : List Node) (index : Nat) : Except WalkFault Node :=
  match nodes[index]? with
  | some node => .ok node
  | none => .error .outOfRange

/-- The list with another node at a place, with a fault in the place of a panic where there is
none. -/
def writePlace (nodes : List Node) (index : Nat) (node : Node) : Except WalkFault (List Node) :=
  if index < nodes.length then .ok (nodes.set index node) else .error .outOfRange

/-- The walk with every access checked. Only behind a visit, which may have shortened the list, it
asks first whether there still is a node at the place. -/
def checkedWalk (visitor : Visitor σ) :
    Nat → σ → List Node → Nat → Except WalkFault (σ × List Node)
  | 0, _, _, _ => .error .outOfSteps
  | steps + 1, state, nodes, index =>
      if index < nodes.length then do
        let node ← readPlace nodes index
        let visited := if visitor.test node then visitor.visit state nodes index else (state, nodes)
        match visited.2[index]? with
        | some (.branch content others children) =>
            let below ← checkedWalk visitor steps visited.1 children 0
            let walked ← writePlace visited.2 index (.branch content others below.2)
            checkedWalk visitor steps below.1 walked (index + 1)
        | _ => checkedWalk visitor steps visited.1 visited.2 (index + 1)
      else .ok (state, nodes)

/-- No access is out of range: a checked walk fails for lack of steps only. -/
theorem checkedWalk_eq (visitor : Visitor σ) :
    ∀ (steps : Nat) (state : σ) (nodes : List Node) (index : Nat),
      checkedWalk visitor steps state nodes index
        = (visitor.traverse? steps state nodes index).elim (.error .outOfSteps) .ok
  | 0, _, _, _ => rfl
  | steps + 1, state, nodes, index => by
      have ih := checkedWalk_eq visitor steps
      -- The place is in range when the step begins, and a branch that is found behind the visit is
      -- still in the list when its children are put back.
      by_cases hlt : index < nodes.length
      · have hget : nodes[index]? = some nodes[index] := List.getElem?_eq_getElem hlt
        have hread : readPlace nodes index = .ok nodes[index] := by rw [readPlace, hget]
        have hvisit : visitor.visitAt state nodes index = if visitor.test nodes[index] then
            visitor.visit state nodes index else (state, nodes) := by rw [Visitor.visitAt, hget]
        rw [checkedWalk, if_pos hlt, hread]
        simp only [bind, Except.bind, ← hvisit]
        rcases hvisited : visitor.visitAt state nodes index with ⟨after, edited⟩
        by_cases hbranch : ∃ content others children,
            edited[index]? = some (.branch content others children)
        · obtain ⟨content, others, children, hbranch⟩ := hbranch
          have hstill := (List.getElem?_eq_some_iff.1 hbranch).1
          rw [Visitor.traverse?_descend hlt hvisited hbranch]
          simp only [hbranch, ih]
          cases visitor.traverse? steps after children 0 with
          | none => rfl
          | some below =>
              simp only [Option.elim_some, Option.bind_some, writePlace, if_pos hstill]
        · have hleaf := fun c o ch hget => hbranch ⟨c, o, ch, hget⟩
          rw [Visitor.traverse?_pass hlt hvisited hleaf, ← ih]
          cases hfound : edited[index]? with
          | none => rfl
          | some found =>
              cases found with
              | leaf content others => rfl
              | branch content others children => exact absurd hfound (hleaf _ _ _)
      · rw [checkedWalk, if_neg hlt, Visitor.traverse?_end (Nat.not_lt.1 hlt)]
        rfl

/-- A walk with a visitor that may turn the list it is called with into any other, but keeps it from
some number of calls on, ends. It calls the visitor with a place in the list, never behind its end,
and for a matching node; and it accesses no list out of range, however many steps it is given. -/
theorem limited_walk_ends (visitor : Visitor σ) (limit : Nat) (state : σ) (root : Root) :
    (∃ log after children,
      (visitor.limited limit).Walks (0, state) root.children 0 (after, children)
        ∧ (visitor.limited limit).logged.Walks ([], 0, state) root.children 0
            ((log, after), children)
        ∧ after.1 = log.length
        ∧ (∀ place ∈ log, ∃ h : place.index < place.siblings.length,
            visitor.test (place.siblings[place.index]) = true)
        ∧ ∃ enough, ∀ steps, enough ≤ steps →
            checkedWalk (visitor.limited limit) steps (0, state) root.children 0
              = .ok (after, children))
    ∧ ∀ steps, checkedWalk (visitor.limited limit) steps (0, state) root.children 0
        ≠ .error .outOfRange := by
  constructor
  -- The walk that notes its places ends, since noting does not change whether a visitor settles;
  -- the walk of the visitor itself is the same one without the notes.
  · obtain ⟨⟨⟨log, after⟩, children⟩, hlogged, -⟩ :=
      (visitor.settles_limited limit).logged.exists_walks ([], 0, state) root.children 0
    have hwalk := hlogged.of_logged
    obtain ⟨hcount, hcalls⟩ := Visitor.log_limited hlogged
    refine ⟨log, after, children, hwalk, hlogged, hcount, fun place hplace => ?_, ?_⟩
    · obtain ⟨node, hnode, htest⟩ := hcalls place hplace
      obtain ⟨hlt, rfl⟩ := List.getElem?_eq_some_iff.1 hnode
      exact ⟨hlt, htest⟩
    · obtain ⟨enough, hwalk⟩ := hwalk
      refine ⟨enough, fun steps hsteps => ?_⟩
      rw [checkedWalk_eq, hwalk steps hsteps, Option.elim_some]
  -- A walk that checks its accesses fails for the want of steps only.
  · intro steps
    rw [checkedWalk_eq]
    cases (visitor.limited limit).traverse? steps (0, state) root.children 0 <;> simp

end ImageImports.Tree
