import ImageImports.Cli.Documents
import ImageImports.Proofs.Cli.Results

/-!
# `ImageImports.Proofs.Cli.Documents`: runs over directories

A run over a directory collects the documents in it and does their jobs one after the other
(`processDirectory_finishes`). If their results keep apart, then what the jobs leave does not depend
on their order (`processDirectory_order`). Two documents whose names differ in the case of their
extension only have one result, and there it does (`inOrder_reverse_ne`).
-/

set_option autoImplicit false

namespace ImageImports.Cli

open FileTree ImageImports.Path

/-! ### Doing jobs in an order -/

/-- Does some jobs in the order in which they are given and tells how they ended, as a run over a
directory does. The order in which `rewrite_directory` does its jobs is left open, so what is said
of all orders is said of every such run. -/
def inOrder (run : RunSettings) (jobs : List Job) : ExceptT Failure InMemory Unit := do
  let failures ← runJobs (m := InMemory) run jobs
  reportFailures (m := InMemory) failures
  tellAside (m := InMemory) run ("Rewrote " ++ toString (jobs.length - failures.length)
    ++ " files, " ++ toString failures.length ++ " failed")
  if failures.isEmpty then pure () else throw (.failedDocuments failures.length)

/-- The line about a document that failed. -/
def failureLine (path : Path) (failure : Failure) : String :=
  "Error rewriting " ++ path.text ++ ": " ++ failure.line

/-- The documents that failed are reported one by one, and nothing else happens. -/
theorem reportFailures_apply (failures : List (Path × Failure)) (state : HostState) :
    (reportFailures failures : InMemory _) state
      = ((), { state with
          reports := state.reports ++ failures.map fun entry => failureLine entry.1 entry.2 }) := by
  induction failures generalizing state with
  | nil => simp [reportFailures, InMemory.pure_apply]
  | cons entry rest ih =>
      have hstep : (reportFailures (entry :: rest) : InMemory _) state
          = (reportFailures rest : InMemory _)
            { state with reports := state.reports ++ [failureLine entry.1 entry.2] } := rfl
      rw [hstep, ih, List.map_cons, List.append_assoc, List.singleton_append]

/-- Telling about a run adds at most some lines to the reports. -/
theorem tellAside_apply (run : RunSettings) (line : String) (state : HostState) :
    ∃ lines, (tellAside run line : InMemory _) state
      = ((), { state with reports := state.reports ++ lines }) := by
  unfold tellAside
  split
  · exact ⟨[], by simp [InMemory.pure_apply]⟩
  · exact ⟨[line], rfl⟩

/-- Logging an event adds at most some lines to the reports. -/
theorem log_apply (filter : Log.Filter) (event : Log.Event) (state : HostState) :
    ∃ lines, (log filter event : InMemory _) state
      = ((), { state with reports := state.reports ++ lines }) := by
  unfold log
  split
  · exact ⟨[event.line], rfl⟩
  · exact ⟨[], by simp [InMemory.pure_apply]⟩

/-- What jobs leave that keep apart and are done in some order. Nothing in it depends on the order
but the order of the lines that are told. -/
structure Finishes (run : RunSettings) (jobs : List Job) (state : HostState)
    (outcome : Except Failure Unit) (after : HostState) : Prop where
  /-- What changes in the tree. -/
  filled : state.tree.Filled (filesOf run state.tree jobs) (placesOf run state.tree jobs) after.tree
  /-- Everything lies in a directory again. -/
  grounded : after.tree.Grounded
  /-- The results are told, unless only errors are. -/
  output : after.output = state.output ++ if run.quiet then [] else
    (jobs.filter fun job => job.succeeds run state.tree).map fun job => job.output.text
  /-- The run fails if some of the jobs do. -/
  outcome_eq : outcome =
    let failed := jobs.filter fun job => !job.succeeds run state.tree
    if failed.isEmpty then .ok () else .error (.failedDocuments failed.length)
  /-- Jobs without a result are reported with the reason. -/
  reported : ∀ job ∈ jobs, ∀ failure, job.result run state.tree = .error failure →
    failureLine job.input failure ∈ after.reports

/-- From any state in which the tree is grounded, the jobs one after another finish as `Finishes`
says, when their results are apart and no job comes twice. Both conditions are kept when the jobs
are permuted, so this serves for every order. -/
theorem inOrder_finishes {run : RunSettings} {jobs : List Job} (state : HostState)
    (hground : state.tree.Grounded) (hapart : Apart run state.tree jobs) (hnodup : jobs.Nodup) :
    ∃ outcome after, (inOrder run jobs).run state = (outcome, after)
      ∧ Finishes run jobs state outcome after := by
  obtain ⟨failures, mid, hrun, hleave⟩ := hapart.leave jobs [] state hnodup (by simp)
    (Filled.refl (by simp [placesOf])) hground
  obtain ⟨lines, htell⟩ := tellAside_apply run
    ("Rewrote " ++ toString (jobs.length - failures.length) ++ " files, "
      ++ toString failures.length ++ " failed") { mid with
      reports := mid.reports ++ failures.map fun entry => failureLine entry.1 entry.2 }
  -- The jobs are done before anything is reported, so the count of failures is that of the jobs
  -- that fail in the tree as it was before.
  have hlength : failures.length
      = (jobs.filter fun job => !job.succeeds run state.tree).length := by
    have hmap := congrArg List.length hleave.failed
    simpa using hmap
  refine ⟨if failures.isEmpty then .ok () else .error (.failedDocuments failures.length),
    { mid with reports := mid.reports
        ++ (failures.map fun entry => failureLine entry.1 entry.2) ++ lines }, ?_, hleave.filled,
    hleave.grounded, hleave.output, ?_, fun job hjob failure hfailure => ?_⟩
  · unfold inOrder
    rw [bind_run, lift_run, hrun]
    simp only
    rw [bind_run, lift_run, reportFailures_apply]
    simp only
    rw [bind_run, lift_run, htell]
    simp only
    split <;> rfl
  · simp only [← List.length_eq_zero_iff, List.isEmpty_iff]
    rw [hlength]
  · refine List.mem_append_left _ (List.mem_append_right _ ?_)
    exact List.mem_map.2 ⟨_, hleave.causes job hjob failure hfailure, rfl⟩

/-- What jobs leave that keep apart does not depend on their order. -/
theorem Finishes.perm {run : RunSettings} {jobs order : List Job} {state after after' : HostState}
    {outcome outcome' : Except Failure Unit} (h : Finishes run jobs state outcome after)
    (h' : Finishes run order state outcome' after') (horder : order.Perm jobs) :
    outcome' = outcome ∧ (∀ place, after'.tree.get? place = after.tree.get? place)
      ∧ after'.output.Perm after.output := by
  -- Each part of what is left is told by all jobs together, by those that fail or those that
  -- succeed.
  have hfailed := horder.filter fun job => !job.succeeds run state.tree
  have hdone := (horder.filter fun job => job.succeeds run state.tree).map fun job =>
    job.output.text
  refine ⟨?_, fun place => ?_, ?_⟩
  · rw [h.outcome_eq, h'.outcome_eq]
    simp only [← List.length_eq_zero_iff, List.isEmpty_iff, hfailed.length_eq]
  · refine (h'.filled.congr ?_ ?_).get?_eq h.filled place
    · exact fun file => (horder.flatMap_right _).mem_iff.symm
    · exact fun place => (horder.flatMap_right _).mem_iff.symm
  · rw [h.output, h'.output]
    refine List.Perm.append_left _ ?_
    split
    · exact List.Perm.refl _
    · exact hdone

section
variable {run : RunSettings} {directory : Path} {output : Option Path} {recursive : Bool}
variable {state : HostState} {documents : List (List String)} {jobs : List Job}

/-- Work on the documents in a directory begins with their jobs, if all of them have one. -/
theorem processDirectory_run (output : Option Path)
    (hcollect : (collect run.extension recursive directory : ExceptT Failure InMemory _).run state
      = (.ok documents, state)) :
    ∃ lines, (processDirectory run directory output recursive :
        ExceptT Failure InMemory Unit).run state
      = if documents = [] then (.ok (), { state with reports := state.reports ++ lines })
        else
          match documents.mapM (jobFor run directory (output.getD directory)) with
          | .error failure => (.error failure, { state with reports := state.reports ++ lines })
          | .ok jobs =>
              (inOrder run jobs).run { state with reports := state.reports ++ lines } := by
  unfold processDirectory
  rw [bind_run, hcollect]
  simp only
  cases documents with
  | nil =>
      -- Without documents nothing is done, and that is told aside.
      obtain ⟨lines, htell⟩ :=
        tellAside_apply run ("No .json files found in " ++ directory.text) state
      refine ⟨lines, ?_⟩
      rw [if_pos rfl]
      show (liftM (tellAside run _ : InMemory Unit) : ExceptT Failure InMemory Unit).run state = _
      rw [lift_run, htell]
  | cons way rest =>
      obtain ⟨lines, hlog⟩ := log_apply run.filter (runEvent "found documents"
        [("count", toString (way :: rest).length)]) state
      refine ⟨lines, ?_⟩
      rw [if_neg (by simp), if_neg (by simp), bind_run, lift_run, hlog]
      simp only
      cases (way :: rest).mapM (jobFor run directory (output.getD directory)) with
      | error failure => rfl
      | ok jobs => rfl

/-- A run over a directory leaves what the jobs for its documents do. The collection and the
preparation of the jobs change nothing but the reports, so everything else that changes is the work
of the jobs. -/
theorem processDirectory_finishes (hground : state.tree.Grounded)
    (hcollect : (collect run.extension recursive directory : ExceptT Failure InMemory _).run state
      = (.ok documents, state))
    (hjobs : documents.mapM (jobFor run directory (output.getD directory)) = .ok jobs)
    (hapart : Apart run state.tree jobs) (hnodup : jobs.Nodup) :
    ∃ outcome after,
      (processDirectory run directory output recursive : ExceptT Failure InMemory Unit).run state
        = (outcome, after)
      ∧ Finishes run jobs state outcome after := by
  obtain ⟨lines, hrun⟩ := processDirectory_run output hcollect
  rw [hrun]
  split
  -- With no documents the run says so and is done: it makes no jobs.
  · rename_i hnone
    subst hnone
    cases hjobs
    exact ⟨.ok (), { state with reports := state.reports ++ lines }, rfl,
      Filled.refl (by simp [placesOf]), hground, by simp, rfl, by simp⟩
  · rw [hjobs]
    obtain ⟨outcome, after, hrun, hfinishes⟩ := inOrder_finishes
      { state with reports := state.reports ++ lines } hground hapart hnodup
    exact ⟨outcome, after, hrun, hfinishes.filled, hfinishes.grounded, hfinishes.output,
      hfinishes.outcome_eq, hfinishes.reported⟩

/-- If no way to the result of a readable document begins with that of another, then the documents
in a directory can be worked on in any order: what is on disk afterwards, which results are told,
which documents fail and how the run ends are the same, and no result is lost. -/
theorem processDirectory_order (run : RunSettings) (directory : Path) (output : Option Path)
    (recursive : Bool) (hwell : state.tree.WellFormed)
    (hdirectory : state.tree.isDirectory directory = true)
    (hseparate : ∀ way other, IsDocument state.tree run.extension recursive directory way →
      IsDocument state.tree run.extension recursive directory other → way ≠ other →
      isReadable state.tree (directory.join way) = true →
      isReadable state.tree (directory.join other) = true →
      ¬ resultWay run.extension way <+: resultWay run.extension other) :
    ∃ documents,
      (collect run.extension recursive directory : ExceptT Failure InMemory _).run state
        = (.ok documents, state)
      ∧ ∀ jobs order, documents.mapM (jobFor run directory (output.getD directory)) = .ok jobs →
        order.Perm jobs →
        let whole := (processDirectory run directory output recursive :
          ExceptT Failure InMemory Unit).run state
        let other := (inOrder run order).run state
        other.1 = whole.1
          ∧ (∀ place, other.2.tree.get? place = whole.2.tree.get? place)
          ∧ other.2.output.Perm whole.2.output
          ∧ (((runJobs run order : InMemory _) state).1.map Prod.fst).Perm
            (((runJobs run jobs : InMemory _) state).1.map Prod.fst)
          ∧ ∀ job ∈ jobs, ∀ file ∈ job.files run state.tree,
            other.2.tree.get? file.1 = some (.file file.2) := by
  obtain ⟨documents, hcollect, hnodup, hmem⟩ := collect_run run.extension recursive hwell
    hdirectory
  refine ⟨documents, hcollect, fun jobs order hjobs horder => ?_⟩
  have hdocuments : ∀ way ∈ documents,
      IsDocument state.tree run.extension recursive directory way := fun way => (hmem way).1
  have hlist := eq_map_jobOf hdocuments hjobs
  -- Different documents make different jobs, and those that can be read have their results apart.
  have hapart : Apart run state.tree jobs := by
    rw [hlist]
    exact apart_jobs _ hdirectory hdocuments fun way hway other hother =>
      hseparate way other (hdocuments way hway) (hdocuments other hother)
  have hjobsNodup : jobs.Nodup := by
    rw [hlist]
    exact hnodup.map (jobOf_injective _ _ _)
  have horderNodup := horder.nodup_iff.2 hjobsNodup
  -- Both orders finish, and what they leave is fixed by the jobs alone. The failures are compared
  -- where they are counted, before they are reported.
  obtain ⟨outcome, after, hrun, hfinishes⟩ :=
    processDirectory_finishes hwell.grounded hcollect hjobs hapart hjobsNodup
  obtain ⟨outcome', after', hrun', hfinishes'⟩ :=
    inOrder_finishes state hwell.grounded (hapart.perm horder) horderNodup
  obtain ⟨failures, mid, hleft, hleave⟩ := hapart.leave jobs [] state hjobsNodup (by simp)
    (Filled.refl (by simp [placesOf])) hwell.grounded
  obtain ⟨failures', mid', hleft', hleave'⟩ := (hapart.perm horder).leave order [] state horderNodup
    (by simp) (Filled.refl (by simp [placesOf])) hwell.grounded
  obtain ⟨houtcome, hplaces, houtput⟩ := hfinishes.perm hfinishes' horder
  rw [hrun, hrun', hleft, hleft']
  refine ⟨houtcome, hplaces, houtput, ?_, fun job hjob file hfile => ?_⟩
  · rw [hleave.failed, hleave'.failed]
    exact (horder.filter _).map _
  · exact hfinishes'.filled.written file
      (List.mem_flatMap.2 ⟨job, horder.mem_iff.2 hjob, hfile⟩)

end

/-- The text of a document with nothing in it. -/
def blankDocument : String := "\x7b\"type\":\"root\",\"children\":[]\x7d"

/-- A directory with a document, and a directory in it with a file that holds none. -/
def sampleState : HostState where
  tree :=
    { entries :=
        [(["docs"], .directory), (["docs", "a.json"], .file blankDocument.toUTF8),
          (["docs", "sub"], .directory), (["docs", "sub", "b.json"], .file "[]".toUTF8)]
      workingDirectory := [] }

/-- Settings without metadata. -/
def sampleSettings : RunSettings where
  options := {}
  metadata := none
  pretty := false
  extension := "mdx.json"
  quiet := false
  filter := ⟨[]⟩

/-- The tree of the sample is well-formed. -/
theorem wellFormed_sampleState : sampleState.tree.WellFormed where
  distinct := by decide +kernel
  plain := by decide +kernel
  around entry hentry := by
    simp only [sampleState, List.mem_cons, List.not_mem_nil, or_false] at hentry
    rcases hentry with rfl | rfl | rfl | rfl <;> rfl
  working := rfl

/-- The documents of the sample are `a.json` and, in the directory below, `b.json`. -/
theorem isDocument_sampleState_iff {way : List String} :
    IsDocument sampleState.tree "mdx.json" true ⟨["docs"]⟩ way
      ↔ way = ["a.json"] ∨ way = ["sub", "b.json"] := by
  constructor
  · intro h
    have hlocate : sampleState.tree.locate ⟨["docs"]⟩ = .ok ["docs"] := rfl
    obtain ⟨-, -, hfile⟩ := (isFile_join_iff hlocate h.ne_nil h.plain).1 h.file
    obtain ⟨bytes, hbytes⟩ := isFileAt_iff.1 hfile
    obtain ⟨entry, hentry, hplace⟩ := exists_entry_of_get?_ne_none (by simp)
      (by rw [hbytes]; simp : sampleState.tree.get? (["docs"] ++ way) ≠ none)
    simp only [sampleState, List.mem_cons, List.not_mem_nil, or_false] at hentry
    rcases hentry with rfl | rfl | rfl | rfl
    · exact absurd (List.cons.inj hplace).2.symm h.ne_nil
    · exact .inl (List.cons.inj hplace).2.symm
    · rw [← hplace] at hbytes
      cases hbytes
    · exact .inr (List.cons.inj hplace).2.symm
  · rintro (rfl | rfl)
    · exact ⟨by decide, by decide +kernel, ⟨_, rfl, isDocumentName_iff.1 (by decide +kernel)⟩,
        .inl rfl⟩
    · exact ⟨by decide, by decide +kernel, ⟨_, rfl, isDocumentName_iff.1 (by decide +kernel)⟩,
        .inl rfl⟩

/-- The results of its documents keep apart. -/
theorem separate_sampleState {way other : List String}
    (hway : IsDocument sampleState.tree "mdx.json" true ⟨["docs"]⟩ way)
    (hother : IsDocument sampleState.tree "mdx.json" true ⟨["docs"]⟩ other) (hne : way ≠ other) :
    ¬ resultWay "mdx.json" way <+: resultWay "mdx.json" other := by
  rcases isDocument_sampleState_iff.1 hway with rfl | rfl <;>
    rcases isDocument_sampleState_iff.1 hother with rfl | rfl
  · exact absurd rfl hne
  · decide +kernel
  · decide +kernel
  · exact absurd rfl hne

/-- The two documents can be worked on in the other order. -/
theorem processDirectory_order_sampleState :
    let whole := (processDirectory sampleSettings ⟨["docs"]⟩ none true :
      ExceptT Failure InMemory Unit).run sampleState
    let other := (inOrder sampleSettings ([["sub", "b.json"], ["a.json"]].map
      (jobOf sampleSettings ⟨["docs"]⟩ ⟨["docs"]⟩))).run sampleState
    other.1 = whole.1 ∧ (∀ place, other.2.tree.get? place = whole.2.tree.get? place)
      ∧ other.2.output.Perm whole.2.output := by
  obtain ⟨documents, hcollect, horder⟩ := processDirectory_order sampleSettings ⟨["docs"]⟩ none
    true wellFormed_sampleState
    (by decide +kernel) fun _ _ hway hother hne _ _ => separate_sampleState hway hother hne
  obtain ⟨found, hfound, hnodup, hmem⟩ := collect_run sampleSettings.extension true
    wellFormed_sampleState (show sampleState.tree.isDirectory ⟨["docs"]⟩ = true by decide +kernel)
  obtain rfl : documents = found := by
    rw [hcollect] at hfound
    exact Except.ok.inj (Prod.mk.inj hfound).1
  have hdocuments : [["sub", "b.json"], ["a.json"]].Perm documents := by
    refine (List.perm_ext_iff_of_nodup (by decide) hnodup).2 fun way => Iff.trans ?_ (hmem way).symm
    rw [show sampleSettings.extension = "mdx.json" from rfl, isDocument_sampleState_iff]
    simp [or_comm]
  obtain ⟨houtcome, hplaces, houtput, -⟩ := horder _ _
    (mapM_jobFor (by decide +kernel) fun way => (hmem way).1)
    (hdocuments.map (jobOf sampleSettings ⟨["docs"]⟩ ⟨["docs"]⟩))
  exact ⟨houtcome, hplaces, houtput⟩

/-- A directory with two documents whose names differ in the case of their extension only. -/
def twinState : HostState where
  tree :=
    { entries :=
        [(["docs"], .directory), (["docs", "a.JSON"], .file blankDocument.toUTF8),
          (["docs", "a.json"], .file
            "\x7b\"type\":\"root\",\"children\":[\x7b\"type\":\"break\"\x7d]\x7d".toUTF8)]
      workingDirectory := [] }

/-- Their results go to one file, which holds the one that is written last. -/
theorem inOrder_reverse_ne :
    let jobs := [["a.JSON"], ["a.json"]].map (jobOf sampleSettings ⟨["docs"]⟩ ⟨["docs"]⟩)
    let result (order : List Job) :=
      (((inOrder sampleSettings order).run twinState).2.tree.read
        ⟨["docs", "a.mdx.json"]⟩).toOption
    IsDocument twinState.tree "mdx.json" false ⟨["docs"]⟩ ["a.JSON"]
      ∧ IsDocument twinState.tree "mdx.json" false ⟨["docs"]⟩ ["a.json"]
      ∧ jobs.reverse.Perm jobs
      ∧ result jobs.reverse = some blankDocument ∧ result jobs ≠ some blankDocument := by
  have hname {name : String} (h : isDocumentName "mdx.json" name = true) :
      ∃ last, [name].getLast? = some last ∧ DocumentName "mdx.json" last :=
    ⟨name, rfl, isDocumentName_iff.1 h⟩
  refine ⟨⟨by decide, by decide +kernel, hname (by decide +kernel), .inr rfl⟩,
    ⟨by decide, by decide +kernel, hname (by decide +kernel), .inr rfl⟩,
    List.reverse_perm _, ?_, ?_⟩
  · decide +kernel
  · decide +kernel

end ImageImports.Cli
