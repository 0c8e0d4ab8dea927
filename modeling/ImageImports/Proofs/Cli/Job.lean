import ImageImports.Cli.Documents
import ImageImports.Proofs.Cli.Host
import ImageImports.Proofs.Files.Landing

/-!
# `ImageImports.Proofs.Cli.Job`: what jobs leave

A job makes the directories on the way to its result and writes the result where it lands, if its
document can be read and there is a place for it (`Job.run_leaves`). Jobs that keep out of each
other's way (`Apart`) do so whatever was done before: each does what it would do alone, and together
they leave all of their files and directories and nothing else (`Apart.leave`). In which order they
are done makes no difference then.
-/

set_option autoImplicit false

namespace ImageImports.Cli

open FileTree ImageImports.Path

/-! ### Steps that may fail -/

variable {α β : Type}

/-- Two steps that may fail: the second is done if the first one succeeds, and otherwise the failure
of the first one is that of both. -/
theorem bind_run (first : ExceptT Failure InMemory α) (next : α → ExceptT Failure InMemory β)
    (state : HostState) :
    (first >>= next).run state
      = match first.run state with
        | (.ok a, after) => (next a).run after
        | (.error failure, after) => (.error failure, after) := by
  show (first.run >>= ExceptT.bindCont next : InMemory _) state = _
  rw [InMemory.bind_apply]
  rcases first.run state with ⟨outcome, after⟩
  cases outcome <;> rfl

/-- A request that cannot fail, as a step that may: it succeeds and changes the state as before. -/
theorem lift_run (request : InMemory α) (state : HostState) :
    (liftM request : ExceptT Failure InMemory α).run state
      = (.ok (request state).1, (request state).2) := rfl

/-- A request to the host that fails becomes the failure that it means for the run. The state is the
one that the host leaves in either case. -/
theorem attempt_run (failure : FileError → Failure) (request : InMemory (Except FileError α))
    (state : HostState) :
    (attempt failure request).run state
      = match request state with
        | (.ok a, after) => (.ok a, after)
        | (.error cause, after) => (.error (failure cause), after) := by
  rw [attempt, bind_run, lift_run]
  rcases request state with ⟨outcome, after⟩
  cases outcome <;> rfl

/-- A run goes on in one of two ways, by whether a path leads to a file. -/
theorem ite_isFile_run (path : Path) (yes no : ExceptT Failure InMemory α) (state : HostState) :
    (do if ← Host.isFile (m := InMemory) path then yes else no :
      ExceptT Failure InMemory α).run state
      = if state.tree.isFile path then yes.run state else no.run state := by
  rw [bind_run, lift_run]
  show (if state.tree.isFile path then yes else no : ExceptT Failure InMemory α).run state = _
  split <;> rfl

/-- A run goes on in one of two ways, by whether a path leads to a directory. -/
theorem ite_isDirectory_run (path : Path) (yes no : ExceptT Failure InMemory α)
    (state : HostState) :
    (do if ← Host.isDirectory (m := InMemory) path then yes else no :
      ExceptT Failure InMemory α).run state
      = if state.tree.isDirectory path then yes.run state else no.run state := by
  rw [bind_run, lift_run]
  show (if state.tree.isDirectory path then yes else no : ExceptT Failure InMemory α).run state
    = _
  split <;> rfl

/-- The lines of the events that a filter lets pass. -/
def logged (filter : Log.Filter) (events : List Log.Event) : List String :=
  (events.filter filter.passes).map Log.Event.line

/-- Logging some events reports the lines of those that the filter lets pass, in their order. -/
theorem logAll_apply (filter : Log.Filter) (events : List Log.Event) (state : HostState) :
    (logAll filter events : InMemory _) state
      = ((), { state with reports := state.reports ++ logged filter events }) := by
  -- One event after the other is logged, each behind the lines of those before it.
  induction events generalizing state with
  | nil => simp [logAll, logged, InMemory.pure_apply]
  | cons event rest ih =>
      rw [logAll, InMemory.bind_apply]
      by_cases hpass : filter.passes event = true
      · have hlog : (log filter event : InMemory _) state
            = ((), { state with reports := state.reports ++ [event.line] }) := by
          rw [log, if_pos hpass]
          rfl
        rw [hlog, ih]
        simp [logged, hpass]
      · have hlog : (log filter event : InMemory _) state = ((), state) := by
          rw [log, if_neg hpass]
          rfl
        rw [hlog, ih]
        simp [logged, hpass]

/-- A line of output is printed unless only errors are told. -/
theorem tell_apply (run : RunSettings) (line : String) (state : HostState) :
    (tell run line : InMemory _) state
      = ((), { state with output := state.output ++ if run.quiet then [] else [line] }) := by
  by_cases hquiet : run.quiet = true
  · simp only [tell, hquiet, if_true, InMemory.pure_apply, List.append_nil]
  · simp only [tell, hquiet]
    rfl

/-! ### The parts of a job -/

/-- The text of the result of a job, or why there is none. Only the file of the document is looked
at, so the result is known before anything is written. -/
def Job.result (job : Job) (run : RunSettings) (tree : FileTree) : Except Failure String :=
  match tree.read job.input with
  | .error cause => .error (.unreadableDocument job.input cause)
  | .ok text =>
      match Document.parse text with
      | .error cause => .error (.invalidDocument job.input cause)
      | .ok root =>
          .ok ((importImages { metadata := job.metadata, options := run.options } root).print
            run.pretty)

/-- Makes the directories on the way to a file and writes it. This is the second half of a job, and
the only one that changes the tree. -/
def deliver (output : Path) (text : String) : ExceptT Failure InMemory Unit := do
  match output.parent? with
  | some directory => attempt (.noDirectory directory) (createDirectories directory)
  | none => pure ()
  attempt (.notWritten output) (Host.write output text)

/-- A job finds its result and then delivers it. If there is no result, the job fails without a
change of the tree. -/
theorem Job.run_run (job : Job) (run : RunSettings) (state : HostState) :
    ∃ lines, (job.run run : ExceptT Failure InMemory Unit).run state
      = match job.result run state.tree with
        | .error failure => (.error failure, state)
        | .ok text => (deliver job.output text).run
            { state with reports := state.reports ++ lines } := by
  unfold Job.run Job.result
  rw [bind_run, attempt_run, InMemory.read_apply]
  cases state.tree.read job.input with
  | error cause => exact ⟨[], rfl⟩
  | ok text =>
      simp only
      cases hparse : Document.parse text with
      | error cause => exact ⟨[], rfl⟩
      | ok root =>
          simp only []
          -- The lines told on the way are those of the events of the pass over this document.
          let settings : PassSettings := { metadata := job.metadata, options := run.options }
          refine ⟨logged run.filter (passEvents settings root), ?_⟩
          rw [bind_run, lift_run, logAll_apply]
          rfl

/-- A path whose last piece can name something. The path of every result is such a path, as an
extension was put behind its last piece. -/
def Named (path : Path) : Prop :=
  ∃ above front name, path.Splits above front name ∧ isVoid name = false

/-- Delivering a text fills the place of the file and the missing directories around it, and
succeeds exactly if the path has a place where a file can go. A delivery that fails may have made
directories, but no file. -/
theorem deliver_run {output : Path} (state : HostState) (hground : state.tree.Grounded)
    (hnamed : Named output) (text : String) :
    ∃ outcome after, (deliver output text).run state = (outcome, { state with tree := after })
      ∧ state.tree.Delivered output text outcome.isOk after := by
  obtain ⟨above, front, name, hsplits, hvoid⟩ := hnamed
  obtain ⟨made, mid, hmade, hentered⟩ := creates_createDirectories hground hsplits.trimmed
  unfold deliver
  rw [hsplits.parent, bind_run, attempt_run, hmade]
  cases made with
  | error cause =>
      -- Making directories broke off at the path to this file, so nothing can land there.
      exact ⟨.error (.noDirectory above cause), mid, rfl,
        delivered_of_landing?_eq_none hsplits hentered (hentered.landing?_eq_none hsplits)⟩
  | ok =>
      simp only [attempt_run]
      rcases write_of_entered hsplits hvoid hentered text with
        ⟨after, hwrite, hdelivered⟩ | ⟨cause, hwrite, hdelivered⟩
      · refine ⟨.ok (), after, ?_, hdelivered⟩
        rw [InMemory.write_apply, hwrite]
        rfl
      · refine ⟨.error (.notWritten output cause), mid, ?_, hdelivered⟩
        rw [InMemory.write_apply, hwrite]
        rfl

/-! ### One job -/

/-- The file that a job writes, with its bytes; none if the job fails. The place is where the path
of the result lands in the tree, which need not have all directories on the way yet. -/
def Job.files (job : Job) (run : RunSettings) (tree : FileTree) : List (Location × ByteArray) :=
  match job.result run tree with
  | .ok text => (tree.landing? job.output).toList.map fun place => (place, text.toUTF8)
  | .error _ => []

/-- The directories that a job makes where they are missing. They are made for every job with a
result, also if something is in the way of the file itself. -/
def Job.places (job : Job) (run : RunSettings) (tree : FileTree) : List Location :=
  match job.result run tree with
  | .ok _ => tree.around job.output
  | .error _ => []

/-- Whether a job succeeds: there is a result, and it has a place to go to. Both are known before
the job starts. -/
def Job.succeeds (job : Job) (run : RunSettings) (tree : FileTree) : Bool :=
  (job.result run tree).isOk && (tree.landing? job.output).isSome

/-- What a job leaves, in terms of the tree before it. The reports are left out, as they depend on
the filter on log events. -/
structure Job.Leaves (job : Job) (run : RunSettings) (state : HostState)
    (outcome : Except Failure Unit) (after : HostState) : Prop where
  /-- What changes in the tree. -/
  filled : state.tree.Filled (job.files run state.tree) (job.places run state.tree) after.tree
  /-- Everything lies in a directory again. -/
  grounded : after.tree.Grounded
  /-- No line of output. -/
  output : after.output = state.output
  /-- The job succeeds if there is a result and a place for it. -/
  outcome_isOk : outcome.isOk = job.succeeds run state.tree
  /-- If there is no result, the outcome says why. -/
  outcome_of_error : ∀ failure, job.result run state.tree = .error failure →
    outcome = .error failure
  /-- Lines about the run are kept. -/
  reports : state.reports <+: after.reports

/-- Every job leaves what its result and the place for it tell. No assumption is made on the
document or on what lies around it. -/
theorem Job.run_leaves (job : Job) (run : RunSettings) (state : HostState)
    (hground : state.tree.Grounded) (hnamed : Named job.output) :
    ∃ outcome after, (job.run run : ExceptT Failure InMemory Unit).run state = (outcome, after)
      ∧ job.Leaves run state outcome after := by
  obtain ⟨lines, hrun⟩ := job.run_run run state
  rw [hrun]
  cases hresult : job.result run state.tree with
  | error failure =>
      -- A document without a result stops before anything is made or written.
      refine ⟨.error failure, state, rfl, ?_, hground, rfl, ?_, ?_, List.prefix_rfl⟩
      · simp only [Job.files, Job.places, hresult]
        exact Filled.refl (by simp)
      · simp [Job.succeeds, hresult, Except.isOk, Except.toBool]
      · intro other hother
        rw [hresult] at hother
        cases hother
        rfl
  | ok text =>
      -- Whether the result can be delivered is up to the place for it, not to the document.
      obtain ⟨outcome, after, hdeliver, hdelivered⟩ := deliver_run
        { state with reports := state.reports ++ lines } hground hnamed text
      refine ⟨outcome, _, hdeliver, ?_, hdelivered.grounded, rfl, ?_, ?_, List.prefix_append _ _⟩
      · simp only [Job.files, Job.places, hresult]
        exact hdelivered.filled
      · simp only [Job.succeeds, hresult]
        exact hdelivered.success_eq
      · intro other hother
        rw [show job.result run state.tree = .ok text from hresult] at hother
        cases hother

/-! ### Jobs that keep apart -/

/-- The files that some jobs write. -/
def filesOf (run : RunSettings) (tree : FileTree) (jobs : List Job) :
    List (Location × ByteArray) :=
  jobs.flatMap fun job => job.files run tree

/-- The directories that some jobs make. -/
def placesOf (run : RunSettings) (tree : FileTree) (jobs : List Job) : List Location :=
  jobs.flatMap fun job => job.places run tree

/-- No job writes where another one reads, writes or makes a directory. Jobs of this kind can be
done in any order. -/
structure Apart (run : RunSettings) (tree : FileTree) (jobs : List Job) : Prop where
  /-- Every job reads a file, and no result lands in its place. -/
  input : ∀ job ∈ jobs, ∃ place bytes, tree.locate job.input = .ok place
    ∧ tree.get? place = some (.file bytes)
    ∧ ∀ other ∈ jobs, tree.landing? other.output ≠ some place
  /-- Every result has a name. -/
  named : ∀ job ∈ jobs, Named job.output
  /-- No two results land at one place, and none where a directory is made for another. -/
  output : ∀ job ∈ jobs, ∀ other ∈ jobs, other ≠ job → ∀ file ∈ job.files run tree,
    (∀ written ∈ other.files run tree, written.1 ≠ file.1) ∧ file.1 ∉ other.places run tree

/-- How the jobs are listed makes no difference to whether they keep apart. -/
theorem Apart.perm {run : RunSettings} {tree : FileTree} {jobs order : List Job}
    (h : Apart run tree jobs) (horder : order.Perm jobs) : Apart run tree order where
  input job hjob := by
    obtain ⟨place, bytes, hlocate, hbytes, hfree⟩ := h.input job (horder.mem_iff.1 hjob)
    exact ⟨place, bytes, hlocate, hbytes, fun other hother => hfree other (horder.mem_iff.1 hother)⟩
  named job hjob := h.named job (horder.mem_iff.1 hjob)
  output job hjob other hother :=
    h.output job (horder.mem_iff.1 hjob) other (horder.mem_iff.1 hother)

section
variable {run : RunSettings} {tree mid after : FileTree} {jobs done : List Job} {job : Job}

/-- A file is written by a job if its bytes are the result and its place is that of the output. -/
theorem mem_files {file : Location × ByteArray} :
    file ∈ job.files run tree
      ↔ ∃ text, job.result run tree = .ok text ∧ tree.landing? job.output = some file.1
        ∧ file.2 = text.toUTF8 := by
  unfold Job.files
  cases job.result run tree with
  | error failure => simp
  | ok text =>
      simp only [List.mem_map, Option.mem_toList, Except.ok.injEq, exists_eq_left']
      constructor
      · rintro ⟨place, hplace, rfl⟩
        exact ⟨hplace, rfl⟩
      · rintro ⟨hplace, hbytes⟩
        exact ⟨file.1, hplace, by rw [← hbytes]⟩

/-- A directory is made by a job with a result if it lies around the output. -/
theorem mem_places {place : Location} :
    place ∈ job.places run tree
      ↔ ∃ text, job.result run tree = .ok text ∧ place ∈ tree.around job.output := by
  unfold Job.places
  cases job.result run tree with
  | error failure => simp
  | ok text => simp

/-! What keeping apart says about all jobs that were done before another one. -/

/-- No job that was done before wrote to the place of the file that a job writes. -/
theorem Apart.ne_files (h : Apart run tree jobs) (hjob : job ∈ jobs)
    (hdone : ∀ other ∈ done, other ∈ jobs ∧ other ≠ job) {file written : Location × ByteArray}
    (hfile : file ∈ job.files run tree) (hwritten : written ∈ filesOf run tree done) :
    written.1 ≠ file.1 := by
  obtain ⟨other, hother, hwritten⟩ := List.mem_flatMap.1 hwritten
  obtain ⟨hmem, hne⟩ := hdone other hother
  exact (h.output job hjob other hmem hne file hfile).1 written hwritten

/-- No job that was done before made a directory at the place of the file that a job writes. -/
theorem Apart.notMem_places (h : Apart run tree jobs) (hjob : job ∈ jobs)
    (hdone : ∀ other ∈ done, other ∈ jobs ∧ other ≠ job) {file : Location × ByteArray}
    (hfile : file ∈ job.files run tree) : file.1 ∉ placesOf run tree done := by
  intro hplace
  obtain ⟨other, hother, hplace⟩ := List.mem_flatMap.1 hplace
  obtain ⟨hmem, hne⟩ := hdone other hother
  exact (h.output job hjob other hmem hne file hfile).2 hplace

/-- No job that was done before wrote a file where a job makes a directory. -/
theorem Apart.ne_places (h : Apart run tree jobs) (hjob : job ∈ jobs)
    (hdone : ∀ other ∈ done, other ∈ jobs ∧ other ≠ job) {place : Location}
    (hplace : place ∈ job.places run tree) {file : Location × ByteArray}
    (hfile : file ∈ filesOf run tree done) : file.1 ≠ place := by
  rintro rfl
  obtain ⟨other, hother, hfile⟩ := List.mem_flatMap.1 hfile
  obtain ⟨hmem, hne⟩ := hdone other hother
  exact (h.output other hmem job hjob hne.symm file hfile).2 hplace

/-- What a job does stays the same when others that keep apart from it were done before. Its
document is still there, and the way to its output is as open as it was. -/
theorem Apart.unchanged (h : Apart run tree jobs) (hjob : job ∈ jobs) (hdone : ∀ other ∈ done,
    other ∈ jobs ∧ other ≠ job)
    (hfilled : tree.Filled (filesOf run tree done) (placesOf run tree done) after) :
    job.result run after = job.result run tree
      ∧ job.files run after = job.files run tree ∧ job.places run after = job.places run tree
      ∧ job.succeeds run after = job.succeeds run tree := by
  obtain ⟨place, bytes, hlocate, hbytes, hfree⟩ := h.input job hjob
  -- No result has landed on the document, so it still has the text that it had at first.
  have hread : after.read job.input = tree.read job.input := by
    refine hfilled.read_eq hlocate hbytes fun file hfile heq => ?_
    obtain ⟨other, hother, hfile⟩ := List.mem_flatMap.1 hfile
    obtain ⟨-, -, hlanding, -⟩ := mem_files.1 hfile
    exact hfree other (hdone other hother).1 (heq ▸ hlanding)
  have hresult : job.result run after = job.result run tree := by
    rw [Job.result, Job.result, hread]
  refine ⟨hresult, ?_⟩
  cases hok : job.result run tree with
  | error failure =>
      rw [hok] at hresult
      simp only [Job.files, Job.places, Job.succeeds, hok, hresult, Except.isOk, Except.toBool,
        Bool.false_and, and_self]
  | ok text =>
      rw [hok] at hresult
      obtain ⟨above, front, name, hsplits, -⟩ := h.named job hjob
      -- The places to look at for where the result lands are as they were: no file was put there,
      -- and no directory where the result goes.
      have hother : ∀ place ∈ tree.around job.output, ∀ file ∈ filesOf run tree done,
          file.1 ≠ place := fun place hplace file hfile =>
        h.ne_places hjob hdone (mem_places.2 ⟨text, hok, hplace⟩) hfile
      have hmade : ∀ place, tree.landing? job.output = some place →
          place ∉ placesOf run tree done := fun place hplace => by
        have hfile : (place, text.toUTF8) ∈ job.files run tree :=
          mem_files.2 ⟨text, hok, hplace, rfl⟩
        exact h.notMem_places hjob hdone hfile
      have hlanding := hfilled.landing?_eq hsplits hother hmade
      have haround := hfilled.around_eq hsplits hother
      simp only [Job.files, Job.places, Job.succeeds, hok, hresult, hlanding, haround, and_self]

/-- The result of a job can be read where the job was done, and no file was put on the way to it. -/
theorem read_result (hnamed : Named job.output) {files : List (Location × ByteArray)}
    {places : List Location} (hfilled : tree.Filled files places after) (hground : after.Grounded)
    (hother : ∀ place ∈ job.places run tree, ∀ file ∈ files, file.1 ≠ place)
    (hfiles : ∀ file ∈ job.files run tree, file ∈ files)
    (hplaces : ∀ place ∈ job.places run tree, place ∈ places) {text : String} {place : Location}
    (hresult : job.result run tree = .ok text) (hplace : tree.landing? job.output = some place) :
    after.read job.output = .ok text := by
  obtain ⟨above, front, name, hsplits, -⟩ := hnamed
  have haround : job.places run tree = tree.around job.output := by rw [Job.places, hresult]
  rw [haround] at hother hplaces
  exact hfilled.read_landing hground hsplits hplace hother hplaces
    (hfiles _ (mem_files.2 ⟨text, hresult, hplace, rfl⟩))

/-- No job puts its file in the place of a directory on the way to it. -/
theorem ne_of_mem_places (hnamed : Named job.output) {file : Location × ByteArray}
    (hfile : file ∈ job.files run tree) {place : Location} (hplace : place ∈ job.places run tree) :
    file.1 ≠ place := by
  obtain ⟨above, front, name, hsplits, -⟩ := hnamed
  obtain ⟨text, hresult, hlanding, -⟩ := mem_files.1 hfile
  obtain ⟨otherText, -, haround⟩ := mem_places.1 hplace
  obtain ⟨-, -, -, -, -, hnot, -⟩ := (landing?_eq_some_iff _ _ hsplits).1 hlanding
  rintro rfl
  exact hnot haround

/-- A job that keeps apart from those done before adds its own changes to theirs. So the changes of
some jobs are the union of the changes of each. -/
theorem Apart.step (h : Apart run tree jobs) (hjob : job ∈ jobs) (hdone : ∀ other ∈ done,
    other ∈ jobs ∧ other ≠ job)
    (hfilled : tree.Filled (filesOf run tree done) (placesOf run tree done) mid)
    (hjobFilled : mid.Filled (job.files run tree) (job.places run tree) after) :
    tree.Filled (filesOf run tree (done ++ [job])) (placesOf run tree (done ++ [job])) after := by
  have happend : tree.Filled (filesOf run tree done ++ job.files run tree)
      (placesOf run tree done ++ job.places run tree) after := by
    refine hfilled.trans hjobFilled (fun file hfile => ⟨fun written hwritten => ?_, ?_⟩)
      fun place hplace file hfile => ?_
    · exact h.ne_files hjob hdone hfile hwritten
    · exact h.notMem_places hjob hdone hfile
    · exact h.ne_places hjob hdone hplace hfile
  simpa [filesOf, placesOf] using happend

end

/-! ### All jobs -/

/-- The results of jobs that keep apart can be read where all of them were done. -/
theorem Apart.read_result {run : RunSettings} {tree after : FileTree} {jobs : List Job} {job : Job}
    (h : Apart run tree jobs) (hfilled : tree.Filled (filesOf run tree jobs)
      (placesOf run tree jobs) after) (hground : after.Grounded) (hjob : job ∈ jobs)
    {text : String} {place : Location} (hresult : job.result run tree = .ok text)
    (hplace : tree.landing? job.output = some place) : after.read job.output = .ok text := by
  refine Cli.read_result (h.named job hjob) hfilled hground (fun other hother file hfile => ?_)
    (fun file hfile => List.mem_flatMap.2 ⟨job, hjob, hfile⟩)
    (fun other hother => List.mem_flatMap.2 ⟨job, hjob, hother⟩) hresult hplace
  obtain ⟨otherJob, hotherJob, hfile⟩ := List.mem_flatMap.1 hfile
  -- A job keeps apart from the others by what `Apart` says, and from itself by where it lands.
  by_cases hsame : otherJob = job
  · subst hsame
    exact ne_of_mem_places (h.named _ hjob) hfile hother
  · rintro rfl
    exact (h.output otherJob hotherJob job hjob (Ne.symm hsame) file hfile).2 hother

/-- What some jobs leave that were done one after the other, in terms of the tree before any of them
and of the jobs that were done before. This is the invariant of the loop over the jobs. -/
structure Leave (run : RunSettings) (tree : FileTree) (done jobs : List Job) (state : HostState)
    (failures : List (Path × Failure)) (after : HostState) : Prop where
  /-- What has changed in the tree. -/
  filled : tree.Filled (filesOf run tree (done ++ jobs)) (placesOf run tree (done ++ jobs))
    after.tree
  /-- Everything lies in a directory again. -/
  grounded : after.tree.Grounded
  /-- The results are told, unless only errors are. -/
  output : after.output = state.output ++ if run.quiet then [] else
    (jobs.filter fun job => job.succeeds run tree).map fun job => job.output.text
  /-- Which documents failed. -/
  failed : failures.map Prod.fst
    = (jobs.filter fun job => !job.succeeds run tree).map Job.input
  /-- Why documents without a result failed. -/
  causes : ∀ job ∈ jobs, ∀ failure, job.result run tree = .error failure →
    (job.input, failure) ∈ failures
  /-- Lines about the run are kept. -/
  reports : state.reports <+: after.reports

/-- The first of some jobs is done before the others; if it fails, its failure is put before
theirs. -/
theorem runJobs_cons (run : RunSettings) (job : Job) (rest : List Job) (state : HostState) :
    (runJobs run (job :: rest) : InMemory _) state
      = match (job.run run : ExceptT Failure InMemory Unit).run state with
        | (.ok (), after) =>
            (runJobs run rest : InMemory _) { after with
              output := after.output ++ if run.quiet then [] else [job.output.text] }
        | (.error failure, after) =>
            (((job.input, failure) :: ((runJobs run rest : InMemory _) after).1),
              ((runJobs run rest : InMemory _) after).2) := by
  rw [runJobs, InMemory.bind_apply]
  rcases (job.run run : ExceptT Failure InMemory Unit).run state with ⟨outcome, after⟩
  cases outcome with
  | error failure => rfl
  | ok => simp only [InMemory.bind_apply, tell_apply]

section
variable {run : RunSettings} {tree : FileTree} {done rest : List Job} {job : Job}
  {state mid after : HostState} {failures : List (Path × Failure)}

/-- A job that succeeds tells its result before those of the rest. -/
theorem Leave.cons_ok (hresult : job.result run state.tree = job.result run tree)
    (hsuccess : job.succeeds run tree = true) (hleaves : job.Leaves run state (.ok ()) mid)
    (hleave : Leave run tree (done ++ [job]) rest { mid with
      output := mid.output ++ if run.quiet then [] else [job.output.text] } failures after) :
    Leave run tree done (job :: rest) state failures after where
  filled := by simpa using hleave.filled
  grounded := hleave.grounded
  output := by
    rw [hleave.output, hleaves.output]
    cases run.quiet <;> simp [hsuccess]
  failed := by simp [hleave.failed, hsuccess]
  causes other hother failure hfailure := by
    rcases List.mem_cons.1 hother with rfl | hother
    · rw [← hresult] at hfailure
      cases hleaves.outcome_of_error failure hfailure
    · exact hleave.causes other hother failure hfailure
  reports := hleaves.reports.trans hleave.reports

/-- A job that fails is put before the failures of the rest. -/
theorem Leave.cons_error {cause : Failure}
    (hresult : job.result run state.tree = job.result run tree)
    (hsuccess : job.succeeds run tree = false) (hleaves : job.Leaves run state (.error cause) mid)
    (hleave : Leave run tree (done ++ [job]) rest mid failures after) :
    Leave run tree done (job :: rest) state ((job.input, cause) :: failures) after where
  filled := by simpa using hleave.filled
  grounded := hleave.grounded
  output := by
    rw [hleave.output, hleaves.output]
    simp [hsuccess]
  failed := by simp [hleave.failed, hsuccess]
  causes other hother failure hfailure := by
    rcases List.mem_cons.1 hother with rfl | hother
    · rw [← hresult] at hfailure
      cases hleaves.outcome_of_error failure hfailure
      exact List.mem_cons_self
    · exact List.mem_cons_of_mem _ (hleave.causes other hother failure hfailure)
  reports := hleaves.reports.trans hleave.reports

end

/-- Jobs that keep apart do what each of them does alone. The induction is on the jobs that are
left, with the tree before all of them fixed. -/
theorem Apart.leave {run : RunSettings} {tree : FileTree} {jobs : List Job}
    (h : Apart run tree jobs) :
    ∀ (rest done : List Job) (state : HostState), (done ++ rest).Nodup →
      (∀ job ∈ done ++ rest, job ∈ jobs) →
      tree.Filled (filesOf run tree done) (placesOf run tree done) state.tree →
      state.tree.Grounded →
      ∃ failures after, (runJobs run rest : InMemory _) state = (failures, after)
        ∧ Leave run tree done rest state failures after := by
  -- The induction is on the jobs still to be done; that the tree is the first one, filled with
  -- what the jobs done so far leave, holds again after each job.
  intro rest
  induction rest with
  | nil =>
      intro done state _ _ hfilled hground
      refine ⟨[], state, rfl, by rwa [List.append_nil], hground, ?_, rfl, ?_, List.prefix_rfl⟩
      · simp
      · simp
  | cons job rest ih =>
      intro done state hnodup hsub hfilled hground
      have hjob : job ∈ jobs := hsub job (by simp)
      have hdone : ∀ other ∈ done, other ∈ jobs ∧ other ≠ job := by
        refine fun other hother => ⟨hsub other (List.mem_append_left _ hother), ?_⟩
        rintro rfl
        exact (List.nodup_append.1 hnodup).2.2 other hother other List.mem_cons_self rfl
      -- The job does here what it would do in the first tree.
      obtain ⟨hresult, hfiles, hplaces, hsucceeds⟩ := h.unchanged hjob hdone hfilled
      obtain ⟨outcome, mid, hrun, hleaves⟩ := job.run_leaves run state hground (h.named job hjob)
      have hmid : tree.Filled (filesOf run tree (done ++ [job]))
          (placesOf run tree (done ++ [job])) mid.tree := by
        have hjobFilled := hleaves.filled
        rw [hfiles, hplaces] at hjobFilled
        exact h.step hjob hdone hfilled hjobFilled
      have hsucceeded := hleaves.outcome_isOk
      rw [hsucceeds] at hsucceeded
      rw [runJobs_cons, hrun]
      have hsplit : done ++ job :: rest = done ++ [job] ++ rest := by simp
      rw [hsplit] at hnodup hsub
      cases outcome with
      | ok =>
          obtain ⟨failures, after, hrest, hleave⟩ := ih (done ++ [job])
            { mid with output := mid.output ++ if run.quiet then [] else [job.output.text] }
            hnodup hsub hmid hleaves.grounded
          exact ⟨failures, after, hrest, .cons_ok hresult hsucceeded.symm hleaves hleave⟩
      | error cause =>
          obtain ⟨failures, after, hrest, hleave⟩ := ih (done ++ [job]) mid hnodup hsub hmid
            hleaves.grounded
          refine ⟨(job.input, cause) :: failures, after, ?_,
            .cons_error hresult hsucceeded.symm hleaves hleave⟩
          simp only [hrest]

end ImageImports.Cli
