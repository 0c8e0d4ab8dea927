import ImageImports.Proofs.Cli.Documents

/-!
# `ImageImports.Proofs.Cli.Alone`: documents of a directory, each by itself

A run over a directory and a run over a single document of it do the same job, up to how the
directory of the document is told (`importImages_directoryMetadata`). So if the results keep apart,
the run over the directory leaves every result as the run over its document leaves it, reports the
documents that have none, and changes nothing else (`processDirectory_rewrites`).
-/

set_option autoImplicit false

namespace ImageImports.Cli

open FileTree ImageImports.Path

/-- A run over one document does its job and tells the result. The state afterwards is the one that
the job leaves but for the lines that were told. -/
theorem processFile_run (run : RunSettings) (input output : Path) (state : HostState) :
    ∃ lines, (processFile run input (some output) : ExceptT Failure InMemory Unit).run state
      = match (Job.run { input, output, metadata := run.metadata.getD {} } run :
          ExceptT Failure InMemory Unit).run { state with reports := state.reports ++ lines } with
        | (.ok (), after) =>
            (.ok (), { after with
              output := after.output ++ if run.quiet then [] else [output.text] })
        | (.error failure, after) => (.error failure, after) := by
  obtain ⟨lines, hlog⟩ := log_apply run.filter
    (runEvent "rewriting" [("input", input.text), ("output", output.text)]) state
  refine ⟨lines, ?_⟩
  -- First the log, then the job, and behind a job that has succeeded the line that tells the
  -- result.
  rw [processFile, bind_run]
  show (liftM (log run.filter _ : InMemory Unit) >>= _ : ExceptT Failure InMemory Unit).run state
    = _
  rw [bind_run, lift_run, hlog]
  simp only
  rw [bind_run]
  rcases (Job.run { input, output, metadata := run.metadata.getD {} } run :
    ExceptT Failure InMemory Unit).run { state with reports := state.reports ++ lines } with
    ⟨outcome, after⟩
  cases outcome with
  | error failure => rfl
  | ok => simp only [lift_run, tell_apply]

/-- The settings for a document of a directory that is worked on by itself. If no metadata are
given, its directory below the one that was named is given as its source directory. -/
def RunSettings.alone (run : RunSettings) (way : List String) : RunSettings :=
  { run with metadata := some (run.metadata.getD (.inDirectory ("/".intercalate way.dropLast))) }

/-- The work on one document of a directory by itself: a run over this document alone, told the
place of the result and the metadata that the run over the directory finds for it. -/
def alone (run : RunSettings) (directory target : Path) (way : List String) :
    ExceptT Failure InMemory Unit :=
  processFile (run.alone way) (directory.join way)
    (some (target.join (resultWay run.extension way)))

section
variable {run : RunSettings} {directory target : Path} {way : List String} {state : HostState}
variable {recursive : Bool}

/-- A document at the top of a directory is worked on as one from a directory without a name. Such a
directory counts as none, so the pass does the same with both. -/
theorem importImages_directoryMetadata (run : RunSettings) (way : List String)
    (root : Mdast.Root) :
    importImages
        { metadata := run.metadata.getD (directoryMetadata way), options := run.options } root
      = importImages
        { metadata := run.metadata.getD (.inDirectory ("/".intercalate way.dropLast))
          options := run.options } root := by
  cases run.metadata with
  | some metadata => rfl
  | none =>
      refine importImages_congr (fun url => ?_) root
      have hdirectory : (directoryMetadata way).directory?
          = (Metadata.inDirectory ("/".intercalate way.dropLast)).directory? := by
        unfold directoryMetadata
        cases way.dropLast <;> rfl
      simp only [PassSettings.target?, importTarget?, Option.getD_none, hdirectory]

/-- The job that is done where a document is worked on alone. It differs from that of a run over the
directory in how the lack of a source directory is told. -/
def jobAlone (run : RunSettings) (directory target : Path) (way : List String) : Job :=
  { jobOf run directory target way with
    metadata := run.metadata.getD (.inDirectory ("/".intercalate way.dropLast)) }

/-- A document gets the same result whether it is worked on alone or in a run over its directory.
This is the step from one kind of job to the other in the comparison of the two runs. -/
theorem result_jobAlone (run : RunSettings) (directory target : Path) (way : List String)
    (tree : FileTree) :
    (jobAlone run directory target way).result (run.alone way) tree
      = (jobOf run directory target way).result run tree := by
  unfold Job.result
  simp only [jobAlone, jobOf, RunSettings.alone, importImages_directoryMetadata]

/-- Working on a document alone does what its job does. It fills the places of the result and of the
directories that it needs and nothing else, and it fails exactly if the job does, for a document
that is unfit with the failure of the job. -/
theorem alone_run (target : Path) (hground : state.tree.Grounded)
    (hdocument : IsDocument state.tree run.extension recursive directory way) :
    ∃ outcome after, (alone run directory target way).run state = (outcome, after)
      ∧ state.tree.Filled ((jobOf run directory target way).files run state.tree)
        ((jobOf run directory target way).places run state.tree) after.tree
      ∧ after.tree.Grounded
      ∧ outcome.isOk = (jobOf run directory target way).succeeds run state.tree
      ∧ ∀ failure, (jobOf run directory target way).result run state.tree = .error failure →
        outcome = .error failure := by
  have hresult := result_jobAlone run directory target way state.tree
  obtain ⟨lines, hprocess⟩ := processFile_run (run.alone way) (directory.join way)
    (target.join (resultWay run.extension way)) state
  obtain ⟨outcome, after, hrun, hleaves⟩ := (jobAlone run directory target way).run_leaves
    (run.alone way) { state with reports := state.reports ++ lines } hground
    (named_jobOf target hdocument)
  -- As the result is the same, so is everything that is said of the job in terms of it.
  have hfiles : (jobAlone run directory target way).files (run.alone way) state.tree
      = (jobOf run directory target way).files run state.tree := by
    simp only [Job.files, hresult]
    rfl
  have hplaces : (jobAlone run directory target way).places (run.alone way) state.tree
      = (jobOf run directory target way).places run state.tree := by
    simp only [Job.places, hresult]
    rfl
  have hsucceeds : (jobAlone run directory target way).succeeds (run.alone way) state.tree
      = (jobOf run directory target way).succeeds run state.tree := by
    simp only [Job.succeeds, hresult]
    rfl
  have hfilled := hleaves.filled
  have hok := hleaves.outcome_isOk
  have herror := hleaves.outcome_of_error
  simp only [hfiles, hplaces, hsucceeds, hresult] at hfilled hok herror
  -- Telling the result adds to the output only.
  have hstart : (alone run directory target way).run state
      = match ((jobAlone run directory target way).run (run.alone way) :
          ExceptT Failure InMemory Unit).run { state with reports := state.reports ++ lines } with
        | (.ok (), mid) => (.ok (), { mid with output := mid.output ++
            if run.quiet then [] else [(target.join (resultWay run.extension way)).text] })
        | (.error failure, mid) => (.error failure, mid) := hprocess
  rw [hrun] at hstart
  cases outcome with
  | ok => exact ⟨.ok (), _, hstart, hfilled, hleaves.grounded, hok, herror⟩
  | error failure => exact ⟨.error failure, _, hstart, hfilled, hleaves.grounded, hok, herror⟩

end

section
variable {run : RunSettings} {directory target : Path} {way : List String} {state : HostState}
variable {documents : List (List String)} {recursive : Bool}

/-- The result of the job of a document that can be read is the text that the pass makes of it, with
the metadata given for the run or found for the document. -/
theorem result_jobOf (run : RunSettings) (directory target : Path) (way : List String)
    {tree : FileTree} {content : String} {root : Mdast.Root}
    (hread : tree.read (directory.join way) = .ok content)
    (hparse : Document.parse content = .ok root) :
    (jobOf run directory target way).result run tree
      = .ok ((importImages
        { metadata := run.metadata.getD (.inDirectory ("/".intercalate way.dropLast))
          options := run.options } root).print run.pretty) := by
  rw [← importImages_directoryMetadata]
  unfold Job.result
  simp only [jobOf, hread, hparse]

section
variable {outcome : Except Failure Unit} {after : HostState}
  (h : Finishes run (documents.map (jobOf run directory target)) state outcome after)
  (hdocuments : ∀ way ∈ documents, IsDocument state.tree run.extension recursive directory way)
include h hdocuments

/-- A document that can be read has the result that the work on it by itself would leave. Both runs
are compared at the path of the result, since elsewhere a run over a directory does more. -/
theorem Finishes.written (hground : state.tree.Grounded)
    (hapart : Apart run state.tree (documents.map (jobOf run directory target)))
    (hway : way ∈ documents) {content : String} {root : Mdast.Root}
    (hread : state.tree.read (directory.join way) = .ok content)
    (hparse : Document.parse content = .ok root)
    (hfree : (state.tree.landing? (target.join (resultWay run.extension way))).isSome = true) :
    let output := target.join (resultWay run.extension way)
    let metadata := run.metadata.getD (.inDirectory ("/".intercalate way.dropLast))
    let result := (importImages { metadata, options := run.options } root).print run.pretty
    after.tree.read output = .ok result
      ∧ ((alone run directory target way).run state).1 = .ok ()
      ∧ ((alone run directory target way).run state).2.tree.read output = .ok result := by
  obtain ⟨place, hplace⟩ := Option.isSome_iff_exists.1 hfree
  have hlanding : state.tree.landing? (jobOf run directory target way).output = some place := hplace
  have hjob := List.mem_map_of_mem (f := jobOf run directory target) hway
  have hresult := result_jobOf run directory target way hread hparse
  have hnamed := hapart.named _ hjob
  obtain ⟨outcomeAlone, single, hsingle, hfilled, hgroundSingle, hok, -⟩ :=
    alone_run target hground (hdocuments way hway)
  rw [Job.succeeds, hresult, hlanding] at hok
  rw [hsingle]
  -- The result is read back twice: behind all jobs, and behind the one for this document.
  refine ⟨hapart.read_result h.filled h.grounded hjob hresult hplace, ?_, ?_⟩
  · cases outcomeAlone with
    | ok => rfl
    | error failure => cases hok
  · exact read_result hnamed hfilled hgroundSingle
      (fun other hother file hfile => ne_of_mem_places hnamed hfile hother)
      (fun _ hfile => hfile) (fun _ hother => hother) hresult hplace

end

end

end ImageImports.Cli
