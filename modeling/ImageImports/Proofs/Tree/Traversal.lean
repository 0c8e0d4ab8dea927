import ImageImports.Tree.Traversal

/-!
# `ImageImports.Proofs.Tree.Traversal`: one step of a walk

A walk visits the node at its place, walks the children of what is then there, and goes on. With the
list cut at that place the step is one of three: the end of the list (`traverse?_nil`), a leaf
(`traverse?_leaf`) or a branch (`traverse?_branch`). After each step the node counts as one of those
already walked, so the next step has the same form.

A visitor may also leave a list of any other length. Then the step is known by what stands at the
place after the visit: no branch (`traverse?_pass`) or a branch (`traverse?_descend`).

`Walks` says what a walk comes to, whatever number of steps beyond some bound it is given; it is
built up along the steps, and no proof about a whole walk counts them. What every visit keeps, of
the state and of the nodes, the walk keeps (`traverse?_keeps`), and two visitors that edit alike
walk alike (`traverse?_project`).

A visit concerns a `Place`: a list of children and a place in it.
-/

set_option autoImplicit false

namespace ImageImports.Tree

open Mdast

/-- A place in a document: a list of children, and a place in it. These are the two arguments that a
visitor of `visit_mut` gets. -/
structure Place where
  /-- The list of children. -/
  siblings : List Node
  /-- The place in the list. -/
  index : Nat

namespace Place

/-- The node at a place. -/
def node? (place : Place) : Option Node := place.siblings[place.index]?

/-- Whether there is a node at a place, and it satisfies a test. -/
def satisfies (test : Node → Bool) (place : Place) : Bool := place.node?.any test

end Place

namespace Visitor

variable {σ : Type} {visitor : Visitor σ} {steps : Nat} {state after : σ}
variable {before rest : List Node} {node : Node} {others : OtherMembers}

/-- With one step left, a traversal that is at the end returns what it has. -/
theorem traverse?_nil (visitor : Visitor σ) (steps : Nat) (state : σ) (nodes : List Node) :
    visitor.traverse? (steps + 1) state nodes nodes.length = some (state, nodes) := by
  rw [traverse?, if_neg (Nat.lt_irrefl _)]

/-- The step past a leaf. -/
theorem traverse?_leaf {content : Leaf}
    (hvisit : visitor.visitAt state (before ++ node :: rest) before.length
      = (after, before ++ .leaf content others :: rest)) :
    visitor.traverse? (steps + 1) state (before ++ node :: rest) before.length
      = visitor.traverse? steps after ((before ++ [Node.leaf content others]) ++ rest)
          (before ++ [Node.leaf content others]).length := by
  have hlt : before.length < (before ++ node :: rest).length := by simp
  have hget : (before ++ Node.leaf content others :: rest)[before.length]?
      = some (.leaf content others) := by simp
  rw [traverse?, if_pos hlt, hvisit]
  simp only [hget, List.append_assoc, List.singleton_append, List.length_append,
    List.length_singleton]

/-- The step past a branch, given the walk below it. -/
theorem traverse?_branch {content : Branch} {children walked : List Node} {below : σ}
    (hvisit : visitor.visitAt state (before ++ node :: rest) before.length
      = (below, before ++ .branch content others children :: rest))
    (hchildren : visitor.traverse? steps below children 0 = some (after, walked)) :
    visitor.traverse? (steps + 1) state (before ++ node :: rest) before.length
      = visitor.traverse? steps after ((before ++ [Node.branch content others walked]) ++ rest)
          (before ++ [Node.branch content others walked]).length := by
  have hlt : before.length < (before ++ node :: rest).length := by simp
  have hget : (before ++ Node.branch content others children :: rest)[before.length]?
      = some (.branch content others children) := by simp
  -- The branch is put back with the children that the walk below it leaves.
  have hset : (before ++ Node.branch content others children :: rest).set before.length
      (.branch content others walked) = before ++ .branch content others walked :: rest := by simp
  rw [traverse?, if_pos hlt, hvisit]
  simp only [hget, hchildren, hset, List.append_assoc, List.singleton_append, List.length_append,
    List.length_singleton]

/-! ### Steps over any list -/

section
variable {nodes edited : List Node} {index : Nat}

/-- At or behind the end a traversal returns what it has, and one step is enough for that. -/
theorem traverse?_end (h : nodes.length ≤ index) :
    visitor.traverse? (steps + 1) state nodes index = some (state, nodes) := by
  rw [traverse?, if_neg (Nat.not_lt.2 h)]

/-- The step past a place where no branch stands after the visit, be it a leaf or nothing at all. -/
theorem traverse?_pass (h : index < nodes.length)
    (hvisit : visitor.visitAt state nodes index = (after, edited))
    (hleaf : ∀ content others children, edited[index]? ≠ some (.branch content others children)) :
    visitor.traverse? (steps + 1) state nodes index
      = visitor.traverse? steps after edited (index + 1) := by
  rw [traverse?, if_pos h, hvisit]
  cases hget : edited[index]? with
  | none => simp only [hget]
  | some found =>
      cases found with
      | leaf content others => simp only [hget]
      | branch content others children => exact absurd hget (hleaf content others children)

/-- The step past a place where a branch stands after the visit. -/
theorem traverse?_descend {content : Branch} {children : List Node} (h : index < nodes.length)
    (hvisit : visitor.visitAt state nodes index = (after, edited))
    (hbranch : edited[index]? = some (.branch content others children)) :
    visitor.traverse? (steps + 1) state nodes index
      = (visitor.traverse? steps after children 0).bind fun below =>
          visitor.traverse? steps below.1 (edited.set index (.branch content others below.2))
            (index + 1) := by
  rw [traverse?, if_pos h, hvisit]
  simp only [hbranch]
  cases visitor.traverse? steps after children 0 <;> rfl

/-- A visit at a place changes nothing unless the node there is to be visited. -/
theorem visitAt_cases (visitor : Visitor σ) (state : σ) (nodes : List Node) (index : Nat) :
    visitor.visitAt state nodes index = (state, nodes)
      ∨ ∃ node, nodes[index]? = some node ∧ visitor.test node = true
          ∧ visitor.visitAt state nodes index = visitor.visit state nodes index := by
  unfold visitAt
  cases nodes[index]? with
  | none => exact .inl rfl
  | some node =>
      by_cases htest : visitor.test node = true
      · exact .inr ⟨node, rfl, htest, if_pos htest⟩
      · exact .inl (if_neg htest)

end

/-! ### The result of a walk -/

/-- What a walk comes to as soon as it is given enough steps. More steps never change the result, so
a walk comes to one result at most, and one that comes to a result ends. -/
def Walks (visitor : Visitor σ) (state : σ) (nodes : List Node) (index : Nat)
    (result : σ × List Node) : Prop :=
  ∃ enough, ∀ steps, enough ≤ steps → visitor.traverse? steps state nodes index = some result

namespace Walks

variable {nodes edited : List Node} {index : Nat} {result : σ × List Node}

/-- A walk at or behind the end is over. -/
theorem done (h : nodes.length ≤ index) : visitor.Walks state nodes index (state, nodes) := by
  refine ⟨1, fun steps hsteps => ?_⟩
  obtain ⟨fewer, rfl⟩ := Nat.exists_eq_add_of_le' hsteps
  exact traverse?_end h

/-- A walk that comes by a leaf, or by a place that the visit has left empty, goes on with the next
index. -/
theorem pass (h : index < nodes.length)
    (hvisit : visitor.visitAt state nodes index = (after, edited))
    (hleaf : ∀ content others children, edited[index]? ≠ some (.branch content others children))
    (hrest : visitor.Walks after edited (index + 1) result) :
    visitor.Walks state nodes index result := by
  obtain ⟨enough, hrest⟩ := hrest
  refine ⟨enough + 1, fun steps hsteps => ?_⟩
  obtain ⟨fewer, rfl⟩ := Nat.exists_eq_add_of_le' (Nat.le_of_add_left_le hsteps)
  rw [traverse?_pass h hvisit hleaf]
  exact hrest fewer (Nat.le_of_succ_le_succ hsteps)

/-- A walk that comes by a branch goes through its children first. They are put back, and the walk
goes on with the next index. -/
theorem descend {content : Branch} {children : List Node} {below : σ × List Node}
    (h : index < nodes.length)
    (hvisit : visitor.visitAt state nodes index = (after, edited))
    (hbranch : edited[index]? = some (.branch content others children))
    (hchildren : visitor.Walks after children 0 below)
    (hrest : visitor.Walks below.1 (edited.set index (.branch content others below.2)) (index + 1)
      result) :
    visitor.Walks state nodes index result := by
  obtain ⟨enoughBelow, hchildren⟩ := hchildren
  obtain ⟨enoughRest, hrest⟩ := hrest
  -- Both walks of the step are given the same number of steps, so each has to be enough.
  refine ⟨max enoughBelow enoughRest + 1, fun steps hsteps => ?_⟩
  obtain ⟨fewer, rfl⟩ := Nat.exists_eq_add_of_le' (Nat.le_of_add_left_le hsteps)
  have hfewer := Nat.le_of_succ_le_succ hsteps
  rw [traverse?_descend h hvisit hbranch,
    hchildren fewer (Nat.le_trans (Nat.le_max_left _ _) hfewer), Option.bind_some]
  exact hrest fewer (Nat.le_trans (Nat.le_max_right _ _) hfewer)

/-- The walk past a leaf, with the list cut at its place. -/
theorem leaf {content : Leaf}
    (hvisit : visitor.visitAt state (before ++ node :: rest) before.length
      = (after, before ++ .leaf content others :: rest))
    (hrest : visitor.Walks after ((before ++ [Node.leaf content others]) ++ rest)
      (before ++ [Node.leaf content others]).length result) :
    visitor.Walks state (before ++ node :: rest) before.length result := by
  refine pass (by simp) hvisit (by simp) ?_
  rwa [List.append_assoc, List.length_append] at hrest

/-- The walk past a branch, given the walk below it. -/
theorem branch {content : Branch} {children : List Node} {below : σ} {walked : σ × List Node}
    (hvisit : visitor.visitAt state (before ++ node :: rest) before.length
      = (below, before ++ .branch content others children :: rest))
    (hchildren : visitor.Walks below children 0 walked)
    (hrest : visitor.Walks walked.1 ((before ++ [Node.branch content others walked.2]) ++ rest)
      (before ++ [Node.branch content others walked.2]).length result) :
    visitor.Walks state (before ++ node :: rest) before.length result := by
  have hget : (before ++ Node.branch content others children :: rest)[before.length]?
      = some (.branch content others children) := by simp
  refine descend (by simp) hvisit hget hchildren ?_
  rw [List.set_append_right _ _ (Nat.le_refl _), Nat.sub_self]
  rwa [List.append_assoc, List.length_append] at hrest

/-- A walk comes to one result only. -/
theorem unique {other : σ × List Node} (h : visitor.Walks state nodes index result)
    (hother : visitor.Walks state nodes index other) : result = other := by
  obtain ⟨enough, h⟩ := h
  obtain ⟨enough', hother⟩ := hother
  have hresult := h (max enough enough') (Nat.le_max_left _ _)
  rw [hother _ (Nat.le_max_right _ _)] at hresult
  exact (Option.some.inj hresult).symm

end Walks

/-! ### Two visitors side by side -/

/-- Two visitors that edit alike walk alike, where the state of one tells that of the other. It lets
a visitor be watched by one that notes more. -/
theorem traverse?_project {τ : Type} {fine : Visitor τ} (f : τ → σ)
    (hvisit : ∀ state nodes index, visitor.visitAt (f state) nodes index
      = Prod.map f id (fine.visitAt state nodes index)) :
    ∀ (steps : Nat) (state : τ) (nodes : List Node) (index : Nat),
      visitor.traverse? steps (f state) nodes index
        = (fine.traverse? steps state nodes index).map (Prod.map f id)
  | 0, _, _, _ => rfl
  | steps + 1, state, nodes, index => by
      have ih := traverse?_project f hvisit steps
      -- Both visitors leave the same list, so both steps go on in the same way.
      by_cases hlt : index < nodes.length
      · have hvisited := hvisit state nodes index
        rcases hfine : fine.visitAt state nodes index with ⟨after, edited⟩
        rw [hfine] at hvisited
        by_cases hbranch : ∃ content others children,
            edited[index]? = some (.branch content others children)
        · obtain ⟨content, others, children, hbranch⟩ := hbranch
          rw [traverse?_descend hlt hvisited hbranch, traverse?_descend hlt hfine hbranch, ih]
          cases fine.traverse? steps after children 0 with
          | none => rfl
          | some below => exact ih _ _ _
        · have hleaf := fun c o ch hget => hbranch ⟨c, o, ch, hget⟩
          rw [traverse?_pass hlt hvisited hleaf, traverse?_pass hlt hfine hleaf]
          exact ih _ _ _
      · rw [traverse?_end (Nat.not_lt.1 hlt), traverse?_end (Nat.not_lt.1 hlt)]
        rfl

/-! ### What a walk keeps -/

/-- What every visit keeps, of the state and of the nodes in a list, a walk keeps, if a branch has
it from its children and hands it on to them. -/
theorem traverse?_keeps {I : σ → Prop} {P : Node → Prop}
    (hvisit : ∀ state nodes index node, I state → (∀ n ∈ nodes, P n) → nodes[index]? = some node →
      visitor.test node = true →
      I (visitor.visit state nodes index).1 ∧ ∀ n ∈ (visitor.visit state nodes index).2, P n)
    (hdown : ∀ content others children, P (.branch content others children) →
      ∀ child ∈ children, P child)
    (hup : ∀ content others children walked, P (.branch content others children) →
      (∀ child ∈ walked, P child) → P (.branch content others walked)) :
    ∀ (steps : Nat) {state : σ} {nodes : List Node} {index : Nat} {result : σ × List Node},
      I state → (∀ n ∈ nodes, P n) → visitor.traverse? steps state nodes index = some result →
      I result.1 ∧ ∀ n ∈ result.2, P n
  | 0, _, _, _, _, _, _, h => by cases h
  | steps + 1, state, nodes, index, result, hstate, hnodes, h => by
      by_cases hlt : index < nodes.length
      · rcases hvisited : visitor.visitAt state nodes index with ⟨after, edited⟩
        obtain ⟨hafter, hedited⟩ : I after ∧ ∀ n ∈ edited, P n := by
          rcases visitAt_cases visitor state nodes index with hsame | ⟨node, hget, htest, hcall⟩
          · rw [hsame] at hvisited
            cases hvisited
            exact ⟨hstate, hnodes⟩
          · have hkept := hvisit state nodes index node hstate hnodes hget htest
            rw [← hcall, hvisited] at hkept
            exact hkept
        by_cases hbranch : ∃ content others children,
            edited[index]? = some (.branch content others children)
        · obtain ⟨content, others, children, hbranch⟩ := hbranch
          rw [traverse?_descend hlt hvisited hbranch] at h
          obtain ⟨⟨below, walked⟩, hchildren, hrest⟩ := Option.bind_eq_some_iff.1 h
          -- The branch hands what it has to its children, and has it again from the walked ones.
          have hself := hedited _ (List.mem_of_getElem? hbranch)
          obtain ⟨hbelow, hwalked⟩ :=
            traverse?_keeps hvisit hdown hup steps hafter (hdown _ _ _ hself) hchildren
          refine traverse?_keeps hvisit hdown hup steps hbelow (fun n hn => ?_) hrest
          rcases List.mem_or_eq_of_mem_set hn with hn | rfl
          · exact hedited n hn
          · exact hup _ _ _ _ hself hwalked
        · rw [traverse?_pass hlt hvisited fun c o ch hget => hbranch ⟨c, o, ch, hget⟩] at h
          exact traverse?_keeps hvisit hdown hup steps hafter hedited h
      · rw [traverse?_end (Nat.not_lt.1 hlt)] at h
        cases h
        exact ⟨hstate, hnodes⟩

end Visitor

end ImageImports.Tree
