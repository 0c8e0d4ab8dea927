import ImageImports.Proofs.Cli.Job
import ImageImports.Proofs.Files.WellFormed

/-!
# `ImageImports.Proofs.Cli.Upkeep`: what requests keep up

A property of the tree that every job keeps up is kept up by a run over jobs (`Keeps.runJobs`). Two
properties are: that the tree is well-formed (`keeps_wellFormed_run`), and that it has grown from an
earlier tree with new bytes at no other places than those where results land
(`keeps_grown_run`).
-/

set_option autoImplicit false

namespace ImageImports.Cli

open FileTree ImageImports.Path

/-! ### Requests that keep a property up -/

/-- A request keeps up a property of the tree, however it ends. A property of this kind that holds
before a run holds after it, whatever the run is about. -/
def Keeps {α : Type} (property : FileTree → Prop) (request : InMemory α) : Prop :=
  ∀ state, property state.tree → property (request state).2.tree

/-- The jobs after the first one go on with the tree that it left. -/
theorem exists_runJobs_cons (run : RunSettings) (job : Job) (rest : List Job) (state : HostState) :
    ∃ next : HostState,
      next.tree = ((job.run run : ExceptT Failure InMemory Unit).run state).2.tree
      ∧ ((runJobs run (job :: rest) : InMemory _) state).2
        = ((runJobs run rest : InMemory _) next).2 := by
  rw [runJobs_cons]
  rcases (job.run run : ExceptT Failure InMemory Unit).run state with ⟨outcome, after⟩
  cases outcome with
  | error failure => exact ⟨after, rfl, rfl⟩
  | ok =>
      exact ⟨{ after with output := after.output ++ if run.quiet then [] else [job.output.text] },
        rfl, rfl⟩

namespace Keeps

variable {α β : Type} {property : FileTree → Prop}

/-- A step that only gives a value keeps up every property. -/
theorem pure (a : α) : Keeps property (Pure.pure a) := fun _ h => h

/-- Two steps keep up what each of them does, so a property of a whole run is shown for its
steps. -/
theorem bind {first : InMemory α} {next : α → InMemory β} (h : Keeps property first)
    (hnext : ∀ a, Keeps property (next a)) : Keeps property (first >>= next) := by
  intro state hstate
  rw [InMemory.bind_apply]
  exact hnext _ _ (h state hstate)

/-- The steps of a run follow each other up to one that fails. So a run keeps up what each of its
steps does, also if it fails. -/
theorem bind_run {first : ExceptT Failure InMemory α} {next : α → ExceptT Failure InMemory β}
    (h : Keeps property first.run) (hnext : ∀ a, Keeps property (next a).run) :
    Keeps property (first >>= next).run := by
  intro state hstate
  have hfirst := h state hstate
  rw [Cli.bind_run]
  rcases hrun : first.run state with ⟨outcome, after⟩
  rw [hrun] at hfirst
  cases outcome with
  | error failure => exact hfirst
  | ok a => exact hnext a after hfirst

/-- A request to the host keeps up the same whether its failure is named or not. -/
theorem attempt_run {failure : FileError → Failure} {request : InMemory (Except FileError α)}
    (h : Keeps property request) : Keeps property (attempt failure request).run := by
  intro state hstate
  have hrequest := h state hstate
  rw [Cli.attempt_run]
  rcases hrun : request state with ⟨outcome, after⟩
  rw [hrun] at hrequest
  cases outcome <;> exact hrequest

/-- A request that leaves the tree alone keeps up every property of it. -/
theorem of_tree_eq {request : InMemory α} (h : ∀ state, (request state).2.tree = state.tree) :
    Keeps property request := by
  intro state hstate
  rwa [h state]

/-- A request that changes the tree keeps up what every tree that it makes has. -/
theorem change {f : FileTree → Except FileError FileTree}
    (h : ∀ tree after, property tree → f tree = .ok after → property after) :
    Keeps property (InMemory.change f) := by
  intro state hstate
  rw [InMemory.change_apply]
  cases hchange : f state.tree with
  | error cause => exact hstate
  | ok after => exact h state.tree after hstate hchange

/-- What every job keeps up, some jobs keep up that are done one after the other. Between two jobs
only the reports change, and these are no part of the tree. -/
theorem runJobs {run : RunSettings} {jobs : List Job}
    (h : ∀ job ∈ jobs, Keeps property (job.run run : ExceptT Failure InMemory Unit).run) :
    Keeps property (runJobs run jobs : InMemory _) := by
  induction jobs with
  | nil => exact pure []
  | cons job rest ih =>
      intro state hstate
      obtain ⟨next, htree, hrest⟩ := exists_runJobs_cons run job rest state
      rw [hrest]
      refine ih (fun other hother => h other (List.mem_cons_of_mem _ hother)) next ?_
      rw [htree]
      exact h job List.mem_cons_self state hstate

end Keeps

/-! ### Well-formed trees -/

section
variable {path : Path} {paths : List Path}

/-- Making a directory whose path has no piece with a slash leaves a well-formed tree. -/
theorem keeps_wellFormed_makeDirectory (h : path.Unslashed) :
    Keeps WellFormed (Host.makeDirectory path : InMemory _) :=
  .change fun _ _ hwell hmake => hwell.makeDirectory h hmake

/-- Writing a file whose path has no piece with a slash leaves a well-formed tree. -/
theorem keeps_wellFormed_write (h : path.Unslashed) (text : String) :
    Keeps WellFormed (Host.write path text : InMemory _) :=
  .change fun _ _ hwell hwrite => hwell.write h hwrite

/-- Asking whether a directory is there already changes nothing. -/
theorem keeps_accepting (property : FileTree → Prop) (path : Path)
    (outcome : Except FileError Unit) :
    Keeps property (accepting path outcome : InMemory _) := by
  unfold accepting
  split
  · refine .bind (.of_tree_eq fun _ => rfl) fun there => ?_
    split <;> exact .pure _
  · exact .pure _

/-- Making some directories, each as far as it is missing, leaves a well-formed tree. The induction
follows the search upwards. -/
theorem keeps_wellFormed_createAll (h : ∀ path ∈ paths, path.Unslashed) :
    Keeps WellFormed (createAll paths : InMemory _) := by
  induction paths with
  | nil => exact .pure _
  | cons path around ih =>
      have hmake := keeps_wellFormed_makeDirectory (h path List.mem_cons_self)
      have haround := ih fun other hother => h other (List.mem_cons_of_mem _ hother)
      rw [createAll]
      refine .bind hmake fun outcome => ?_
      split
      · refine .bind haround fun made => ?_
        split
        · exact .bind hmake fun outcome => keeps_accepting _ _ outcome
        · exact .pure _
      · exact keeps_accepting _ _ _

/-- Delivering a text leaves a well-formed tree. -/
theorem keeps_wellFormed_deliver (h : path.Unslashed) (text : String) :
    Keeps WellFormed (deliver path text).run := by
  have hwrite : Keeps WellFormed (attempt (.notWritten path) (Host.write path text)).run :=
    .attempt_run (keeps_wellFormed_write h text)
  unfold deliver
  dsimp only
  split
  · rename_i directory hparent
    refine .bind_run (.attempt_run ?_) fun _ => hwrite
    exact keeps_wellFormed_createAll fun other => (h.parent hparent).ancestors
  · exact hwrite

/-- A job leaves a well-formed tree, as its only changes are those of delivering its result:
directories on the way to it and one file under a plain name. -/
theorem keeps_wellFormed_run {job : Job} (run : RunSettings) (h : job.output.Unslashed) :
    Keeps WellFormed (job.run run : ExceptT Failure InMemory Unit).run := by
  intro state hwell
  obtain ⟨lines, hrun⟩ := job.run_run run state
  rw [hrun]
  split
  · exact hwell
  · exact keeps_wellFormed_deliver h _ _ hwell

end

/-! ### Trees that have grown -/

/-- A tree has grown from another one, and everything lies in a directory. The second part is what
lets ways be followed in the later tree as in the earlier one. -/
structure Grown (tree : FileTree) (written : Location → Prop) (after : FileTree) : Prop
    extends tree.Grows written after where
  /-- Everything lies in a directory. -/
  grounded : after.Grounded

/-- Every tree has grown from itself. -/
theorem Grown.refl {tree : FileTree} {written : Location → Prop} (hground : tree.Grounded) :
    Grown tree written tree :=
  ⟨.refl tree written, hground⟩

/-- A job puts new bytes nowhere but where its result would have landed at first. Directories that
were made since then do not lead it anywhere else. -/
theorem keeps_grown_run {job : Job} {tree : FileTree} {written : Location → Prop}
    (run : RunSettings) (hnamed : Named job.output)
    (hwritten : ∀ place, tree.landing? job.output = some place → written place) :
    Keeps (Grown tree written) (job.run run : ExceptT Failure InMemory Unit).run := by
  intro state hgrown
  obtain ⟨above, front, name, hsplits, -⟩ := id hnamed
  obtain ⟨outcome, after, hrun, hleaves⟩ := job.run_leaves run state hgrown.grounded hnamed
  rw [hrun]
  refine ⟨hgrown.toGrows.trans (hleaves.filled.grows fun file hfile => ?_), hleaves.grounded⟩
  -- Where the result lands now, it would have landed in the tree before any job.
  obtain ⟨-, -, hplace, -⟩ := mem_files.1 hfile
  exact hwritten _ (hgrown.landing?_eq_some hsplits hplace)

end ImageImports.Cli
