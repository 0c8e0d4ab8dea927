import Mathlib.Tactic.Ring
import ImageImports.Proofs.Tree.Termination

/-!
# `ImageImports.Proofs.Tree.StepBound`: a walk has enough steps

A walk with a limited number of edits ends, but after how many steps depends on the edits. This
module bounds the steps by the nodes and the edits that are left, for a visitor whose edits at most
double the nodes from their place on, apart from a few that they bring in (`Visitor.Doubles`). Each
kind of edit does no more (`Edit.sizeAll_apply_le`), so a walk that is given `stepBound` steps has a
result (`exists_editWhileWalking`).

A step uses up a node, or an edit that may have doubled the nodes; either way the steps that are
enough for the nodes behind it and for those below it are fewer (`Doubles.enoughSteps_lt`). The two
are walked one after the other with the same bound, since a bound limits how long a walk goes on
below or behind a node and not how many nodes it visits in all.
-/

set_option autoImplicit false

namespace ImageImports.Tree

open Mdast

variable {σ : Type}

/-! ### What an edit makes of the nodes that are left -/

/-- The sizes of two lists of nodes add up. -/
theorem sizeAll_append (nodes more : List Node) :
    sizeAll (nodes ++ more) = sizeAll nodes + sizeAll more := by
  induction nodes with
  | nil => simp [sizeAll]
  | cons node rest ih => rw [List.cons_append, sizeAll, sizeAll, ih, Nat.add_assoc]

/-- No more nodes are left one place further. -/
theorem sizeAll_drop_succ_le (nodes : List Node) (index : Nat) :
    sizeAll (nodes.drop (index + 1)) ≤ sizeAll (nodes.drop index) := by
  by_cases hlt : index < nodes.length
  · exact (sizeAll_drop_succ_lt hlt).le
  · rw [List.drop_eq_nil_of_le (by omega), List.drop_eq_nil_of_le (by omega)]

/-- A node that is put in at a place counts among the nodes from there on. -/
theorem sizeAll_drop_insertIdx (node : Node) :
    ∀ (nodes : List Node) {index place : Nat}, index ≤ place → place ≤ nodes.length →
      sizeAll ((nodes.insertIdx place node).drop index) = size node + sizeAll (nodes.drop index)
  | nodes, 0, 0, _, _ => by simp [sizeAll]
  | [], _, _ + 1, _, h => absurd h (Nat.not_succ_le_zero _)
  | first :: rest, 0, place + 1, _, hle => by
      have ih := sizeAll_drop_insertIdx node rest (Nat.zero_le place) (Nat.le_of_succ_le_succ hle)
      simp only [List.drop_zero] at ih
      simp only [List.insertIdx_succ_cons, List.drop_zero, sizeAll, ih]
      omega
  | first :: rest, index + 1, place + 1, hindex, hle =>
      sizeAll_drop_insertIdx node rest (Nat.le_of_succ_le_succ hindex) (Nat.le_of_succ_le_succ hle)

/-- From its place on, an edit at most doubles the nodes, apart from those that it brings in. Only
the copy of a node adds nodes that were there before. -/
theorem Edit.sizeAll_apply_le (edit : Edit) {nodes : List Node} {index : Nat}
    (h : index < nodes.length) :
    sizeAll ((edit.apply nodes index).drop index)
      ≤ 2 * sizeAll (nodes.drop index) + edit.size := by
  have hget : nodes[index]? = some nodes[index] := List.getElem?_eq_getElem h
  have hdrop := sizeAll_drop hget
  -- What stands in front of the place does not count, so each edit is seen from the place on.
  cases edit with
  | keep =>
      rw [apply]
      omega
  | remove =>
      rw [apply, List.eraseIdx_eq_take_drop_succ, List.drop_left' (List.length_take_of_le h.le)]
      omega
  | truncate => simp [apply, sizeAll]
  | clear => simp [apply, sizeAll]
  | wrap =>
      simp only [apply, hget, Edit.size, List.drop_set, Nat.lt_irrefl, if_false, Nat.sub_self]
      simp only [List.drop_eq_getElem_cons h, List.set_cons_zero, sizeAll, Tree.size]
      omega
  | duplicate =>
      simp only [apply, hget, Option.toList_some, List.drop_append_of_le_length (Nat.le_of_lt h),
        sizeAll_append, sizeAll]
      omega
  | replace node =>
      simp only [apply, Edit.size, List.drop_set, Nat.lt_irrefl, if_false, Nat.sub_self]
      simp only [List.drop_eq_getElem_cons h, List.set_cons_zero, sizeAll]
      omega
  | before node =>
      rw [apply, sizeAll_drop_insertIdx node nodes (Nat.le_refl _) (Nat.le_of_lt h), Edit.size]
      omega
  | after node =>
      rw [apply, sizeAll_drop_insertIdx node nodes (Nat.le_succ _) h, Edit.size]
      omega

/-! ### How many steps are enough -/

namespace Visitor

/-- Each visit either uses up one of the edits that are left and at most doubles the nodes from the
place on, apart from a few, or keeps the list. -/
def Doubles (visitor : Visitor σ) (left : σ → Nat) (extra : Nat) : Prop :=
  ∀ state nodes index, index < nodes.length →
    left (visitor.visit state nodes index).1 < left state
        ∧ sizeAll ((visitor.visit state nodes index).2.drop index)
          ≤ 2 * sizeAll (nodes.drop index) + extra
      ∨ left (visitor.visit state nodes index).1 ≤ left state
        ∧ (visitor.visit state nodes index).2 = nodes

/-- Steps that are enough for a walk with some numbers of nodes and edits left. Every edit can
double the nodes that lie ahead, so the number grows with a power of the edits. -/
def enoughSteps (extra nodes left : Nat) : Nat :=
  (nodes + extra + 2) * 2 ^ (left + 1)

/-- With more nodes or more visits left, the number of steps that is enough does not become
smaller. -/
theorem enoughSteps_mono {extra nodes nodes' left left' : Nat} (hnodes : nodes ≤ nodes')
    (hleft : left ≤ left') : enoughSteps extra nodes left ≤ enoughSteps extra nodes' left' :=
  Nat.mul_le_mul (by omega) (Nat.pow_le_pow_right (by omega) (by omega))

/-- At least one step is needed, if only to find out that the end has been reached. -/
theorem enoughSteps_pos (extra nodes left : Nat) : 0 < enoughSteps extra nodes left :=
  Nat.mul_pos (by omega) (Nat.two_pow_pos _)

/-- One node fewer leaves a step to take. -/
theorem enoughSteps_succ_lt (extra nodes left : Nat) :
    enoughSteps extra nodes left < enoughSteps extra (nodes + 1) left :=
  Nat.mul_lt_mul_of_pos_right (by omega) (Nat.two_pow_pos _)

/-- One edit fewer leaves a step to take, though there are twice as many nodes. -/
theorem enoughSteps_edit_lt (extra nodes left : Nat) :
    enoughSteps extra (2 * nodes + extra) left < enoughSteps extra nodes (left + 1) := by
  have hpos : 0 < 2 ^ (left + 1) := Nat.two_pow_pos _
  -- Twice the nodes with one power fewer come to the same, but for the two that are added once.
  calc enoughSteps extra (2 * nodes + extra) left
      < (2 * nodes + extra + extra + 2) * 2 ^ (left + 1) + 2 * 2 ^ (left + 1) := by
        rw [enoughSteps]; omega
    _ = enoughSteps extra nodes (left + 1) := by rw [enoughSteps]; ring

variable {visitor : Visitor σ} {left : σ → Nat} {extra : Nat}

/-- A visit spends one of those that are left, and what lies ahead grows to at most the double and a
constant. Or nothing changes. -/
theorem Doubles.visitAt (h : visitor.Doubles left extra) (state : σ) {nodes : List Node}
    {index : Nat} (hlt : index < nodes.length) :
    left (visitor.visitAt state nodes index).1 < left state
        ∧ sizeAll ((visitor.visitAt state nodes index).2.drop index)
          ≤ 2 * sizeAll (nodes.drop index) + extra
      ∨ left (visitor.visitAt state nodes index).1 ≤ left state
        ∧ (visitor.visitAt state nodes index).2 = nodes := by
  rcases visitAt_cases visitor state nodes index with hsame | ⟨node, -, -, hcall⟩
  · rw [hsame]
    exact .inr ⟨Nat.le_refl _, rfl⟩
  · rw [hcall]
    exact h state nodes index hlt

/-- Whatever a visit does, fewer steps are enough for what it leaves, but for one node if it keeps
the list. -/
theorem Doubles.enoughSteps_lt (h : visitor.Doubles left extra) {state after : σ}
    {nodes edited : List Node} {index fewer : Nat} (hlt : index < nodes.length)
    (hvisit : visitor.visitAt state nodes index = (after, edited))
    (hle : fewer ≤ sizeAll (edited.drop index))
    (hkept : edited = nodes → fewer < sizeAll (nodes.drop index)) :
    enoughSteps extra fewer (left after)
      < enoughSteps extra (sizeAll (nodes.drop index)) (left state) := by
  have hcases := h.visitAt state hlt
  rw [hvisit] at hcases
  rcases hcases with ⟨hleft, hsize⟩ | ⟨hleft, hsame⟩
  · -- An edit was used up, which makes up for doubling the nodes.
    calc enoughSteps extra fewer (left after)
        ≤ enoughSteps extra (2 * sizeAll (nodes.drop index) + extra) (left after) :=
          enoughSteps_mono (Nat.le_trans hle hsize) (Nat.le_refl _)
      _ < enoughSteps extra (sizeAll (nodes.drop index)) (left after + 1) :=
          enoughSteps_edit_lt _ _ _
      _ ≤ _ := enoughSteps_mono (Nat.le_refl _) hleft
  · -- Nothing was edited, so a node fewer is left.
    calc enoughSteps extra fewer (left after)
        < enoughSteps extra (fewer + 1) (left after) := enoughSteps_succ_lt _ _ _
      _ ≤ _ := enoughSteps_mono (hkept hsame) hleft

/-- A walk that is given enough steps ends, with no more edits left than it started with. -/
theorem Doubles.exists_traverse? (h : visitor.Doubles left extra) :
    ∀ (steps : Nat) (state : σ) (nodes : List Node) (index : Nat),
      enoughSteps extra (sizeAll (nodes.drop index)) (left state) ≤ steps →
      ∃ result, visitor.traverse? steps state nodes index = some result
        ∧ left result.1 ≤ left state
  | 0, _, _, _, hsteps => absurd (enoughSteps_pos _ _ _) (Nat.not_lt.2 hsteps)
  | steps + 1, state, nodes, index, hsteps => by
      by_cases hlt : index < nodes.length
      · rcases hvisited : visitor.visitAt state nodes index with ⟨after, edited⟩
        have hafter : left after ≤ left state := by
          have hcases := h.visitAt state hlt
          rw [hvisited] at hcases
          exact hcases.elim (fun hedit => hedit.1.le) And.left
        -- The nodes behind the place need fewer steps, and so do those below it.
        have hbehind := h.enoughSteps_lt hlt hvisited (sizeAll_drop_succ_le edited index)
          (by rintro rfl; exact sizeAll_drop_succ_lt hlt)
        by_cases hbranch : ∃ content others children,
            edited[index]? = some (.branch content others children)
        · obtain ⟨content, others, children, hbranch⟩ := hbranch
          have hfewer := sizeAll_children_lt hbranch
          have hchildren := h.enoughSteps_lt hlt hvisited hfewer.le
            (by rintro rfl; exact hfewer)
          obtain ⟨below, hbelow, hleft⟩ :=
            h.exists_traverse? steps after children 0 (by rw [List.drop_zero]; omega)
          -- The walk below may have used up edits, which leaves the bound for those behind intact.
          have hstill :
              enoughSteps extra (sizeAll (edited.drop (index + 1))) (left below.1) ≤ steps :=
            Nat.le_trans (enoughSteps_mono (Nat.le_refl _) hleft) (by omega)
          obtain ⟨result, hresult, hleft'⟩ := h.exists_traverse? steps below.1
            (edited.set index (.branch content others below.2)) (index + 1)
            (by rwa [List.drop_set_of_lt (Nat.lt_add_one index)])
          refine ⟨result, ?_, by omega⟩
          rw [traverse?_descend hlt hvisited hbranch, hbelow]
          exact hresult
        · obtain ⟨result, hresult, hleft⟩ :=
            h.exists_traverse? steps after edited (index + 1) (by omega)
          refine ⟨result, ?_, by omega⟩
          rw [traverse?_pass hlt hvisited fun c o ch hget => hbranch ⟨c, o, ch, hget⟩]
          exact hresult
      · exact ⟨(state, nodes), traverse?_end (Nat.not_lt.1 hlt), Nat.le_refl _⟩

end Visitor

/-! ### The visitor that records and edits -/

/-- An editor with a limit does so. What it puts in is what the edit brings along, or a copy of the
node it visits. -/
theorem doubles_editor (test : Node → Bool) (edit : Edit) (limit : Nat) :
    (editor test edit limit).Doubles (fun visits => limit - visits.length) edit.size := by
  intro visits nodes index hlt
  by_cases hleft : visits.length < limit
  · refine .inl ⟨by simp only [editor, List.length_cons]; omega, ?_⟩
    simp only [editor, if_pos hleft]
    exact edit.sizeAll_apply_le hlt
  · exact .inr ⟨by simp only [editor, List.length_cons]; omega, if_neg hleft⟩

/-- A walk with a limited number of edits has enough steps, so a session that edits while it walks
always has a result. -/
theorem exists_editWhileWalking (root : Root) (test : Node → Bool) (edit : Edit) (limit : Nat) :
    ∃ result, editWhileWalking root test edit limit = some result := by
  have hsteps : Visitor.enoughSteps edit.size (sizeAll (root.children.drop 0)) limit
      ≤ stepBound root.children edit limit :=
    Nat.mul_le_mul_left _ (Nat.pow_le_pow_right (by omega) (by omega))
  obtain ⟨⟨visits, children⟩, hwalk, -⟩ :=
    (doubles_editor test edit limit).exists_traverse? _ [] root.children 0 hsteps
  exact ⟨(visits.reverse, { root with children }), by rw [editWhileWalking, hwalk]⟩

end ImageImports.Tree
