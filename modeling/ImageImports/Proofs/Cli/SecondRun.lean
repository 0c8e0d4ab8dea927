import ImageImports.Proofs.Cli.Preparation

/-!
# `ImageImports.Proofs.Cli.SecondRun`: running over a directory again

A run over a directory does the jobs for its documents in some order. Whatever the order, it spares
the documents: no result lands where a document is, and the same documents are collected
afterwards (`SparesDocuments`). If the files from which it reads its settings are spared too, then
the same run once more leaves everything as it is (`processArranged_again`).
-/

set_option autoImplicit false

namespace ImageImports.Cli

open FileTree ImageImports.Path

/-! ### Runs with their jobs in any order -/

/-- Works on the documents in a directory, with their jobs arranged in another order.
`rewrite_directory` may do its jobs in any order, so what it does is what this does under some
arrangement. -/
def processDirectoryArranged (arrange : List Job → List Job) (run : RunSettings) (directory : Path)
    (output : Option Path) (recursive : Bool) : ExceptT Failure InMemory Unit := do
  let documents ← collect run.extension recursive directory
  if documents.isEmpty then
    tellAside (m := InMemory) run ("No .json files found in " ++ directory.text)
  else
    log (m := InMemory) run.filter
      (runEvent "found documents" [("count", toString documents.length)])
    let jobs ← orFail (documents.mapM (jobFor run directory (output.getD directory)))
    inOrder run (arrange jobs)

/-- Works on what the arguments name, with the jobs for documents in a directory arranged in another
order. -/
def processArranged (arrange : List Job → List Job) (filter : Log.Filter)
    (arguments : DocumentArguments) : ExceptT Failure InMemory Unit := do
  match arguments.input with
  | none => throw .noInput
  | some input =>
      let run ← findRun filter arguments input
      if ← Host.isFile (m := InMemory) input then
        processFile run input arguments.output
      else if ← Host.isDirectory (m := InMemory) input then
        processDirectoryArranged arrange run input arguments.output arguments.recursive
      else throw (.missingInput input)

/-- The program works on documents in the order in which they are collected. -/
theorem processArranged_id (filter : Log.Filter) (arguments : DocumentArguments) :
    processArranged id filter arguments = process filter arguments := by
  unfold processArranged process
  cases arguments.input with
  | none => rfl
  | some input =>
      simp only [findRun, bind_assoc, pure_bind]
      rfl

/-- Telling how jobs ended does not touch the tree. -/
theorem inOrder_tree (run : RunSettings) (jobs : List Job) (state : HostState) :
    ((inOrder run jobs).run state).2.tree = ((runJobs run jobs : InMemory _) state).2.tree := by
  unfold inOrder
  rw [bind_run, lift_run]
  simp only
  rw [bind_run, lift_run, reportFailures_apply]
  simp only
  obtain ⟨lines, htell⟩ := tellAside_apply run
    ("Rewrote " ++ toString (jobs.length - ((runJobs run jobs : InMemory _) state).1.length)
      ++ " files, " ++ toString ((runJobs run jobs : InMemory _) state).1.length ++ " failed")
    { ((runJobs run jobs : InMemory _) state).2 with
      reports := ((runJobs run jobs : InMemory _) state).2.reports
        ++ ((runJobs run jobs : InMemory _) state).1.map
          fun entry => failureLine entry.1 entry.2 }
  rw [bind_run, lift_run, htell]
  simp only
  split <;> rfl

section
variable {arrange : List Job → List Job} {run : RunSettings} {directory : Path}
variable {output : Option Path} {recursive : Bool} {state : HostState}
variable {documents : List (List String)}

/-- A run over a directory leaves the tree that the jobs for its documents leave. What is told on
the way changes only the lines of output and the reports. -/
theorem processDirectoryArranged_tree (harrange : ∀ jobs, (arrange jobs).Perm jobs)
    (hcollect : (collect run.extension recursive directory : ExceptT Failure InMemory _).run state
      = (.ok documents, state))
    (hjobs : documents.mapM (jobFor run directory (output.getD directory))
      = .ok (documents.map (jobOf run directory (output.getD directory)))) :
    ∃ mid : HostState, mid.tree = state.tree
      ∧ ((processDirectoryArranged arrange run directory output recursive).run state).2.tree
        = ((runJobs run (arrange (documents.map (jobOf run directory (output.getD directory)))) :
          InMemory _) mid).2.tree := by
  unfold processDirectoryArranged
  rw [bind_run, hcollect]
  simp only
  -- Either way the lines that are told first change no file.
  cases documents with
  | nil =>
      obtain ⟨lines, htell⟩ :=
        tellAside_apply run ("No .json files found in " ++ directory.text) state
      refine ⟨state, rfl, ?_⟩
      rw [List.map_nil, (harrange []).eq_nil]
      show ((liftM (tellAside run _ : InMemory Unit) :
        ExceptT Failure InMemory Unit).run state).2.tree = state.tree
      rw [lift_run, htell]
  | cons way rest =>
      obtain ⟨lines, hlog⟩ := log_apply run.filter (runEvent "found documents"
        [("count", toString (way :: rest).length)]) state
      refine ⟨{ state with reports := state.reports ++ lines }, rfl, ?_⟩
      rw [if_neg (by simp), bind_run, lift_run, hlog, hjobs, ← inOrder_tree]
      rfl

variable {filter : Log.Filter} {arguments : DocumentArguments}

/-- A run over a directory finds its settings and works on the documents then. How the jobs are
arranged makes no difference before that. -/
theorem processArranged_run (arrange : List Job → List Job) (filter : Log.Filter)
    (hinput : arguments.input = some directory)
    (hdirectory : state.tree.isDirectory directory = true) :
    ∃ lines, (processArranged arrange filter arguments).run state
      = match foundRun state.tree filter arguments directory with
        | .error failure => (.error failure, { state with reports := state.reports ++ lines })
        | .ok run => (processDirectoryArranged arrange run directory arguments.output
            arguments.recursive).run { state with reports := state.reports ++ lines } := by
  obtain ⟨lines, hfind⟩ := findRun_run filter arguments hdirectory
  refine ⟨lines, ?_⟩
  unfold processArranged
  rw [hinput]
  simp only
  rw [bind_run, hfind]
  cases foundRun state.tree filter arguments directory with
  | error failure => rfl
  | ok run =>
      simp only
      rw [ite_isFile_run, if_neg (by simp [isFile_eq_false hdirectory]), ite_isDirectory_run,
        if_pos hdirectory]

/-- A run that finds no settings changes nothing. -/
theorem processArranged_of_error {failure : Failure} (hinput : arguments.input = some directory)
    (hdirectory : state.tree.isDirectory directory = true)
    (hfound : foundRun state.tree filter arguments directory = .error failure) :
    ((processArranged arrange filter arguments).run state).2.tree = state.tree := by
  obtain ⟨lines, hrun⟩ := processArranged_run arrange filter hinput hdirectory
  rw [hrun, hfound]

/-- What the jobs for documents make of a tree does not depend on what they have done already,
however they are arranged. -/
theorem steady_arranged {tree : FileTree} (harrange : ∀ jobs, (arrange jobs).Perm jobs)
    (target : Path) (hdirectory : tree.isDirectory directory = true)
    (hdocuments : ∀ way ∈ documents, IsDocument tree run.extension recursive directory way) :
    Steady run tree (IsResultPlace tree run recursive directory target)
      (arrange (documents.map (jobOf run directory target))) :=
  (steady_jobs target hdirectory hdocuments).of_subset (harrange _).subset

/-- What a run over a directory leaves that works on some documents. Two such runs one after the
other are compared through this. -/
structure WorksOn (arrange : List Job → List Job) (run : RunSettings)
    (arguments : DocumentArguments) (directory : Path) (documents : List (List String))
    (before after : HostState) : Prop where
  /-- The documents are those that are collected. -/
  collected : (collect run.extension arguments.recursive directory :
    ExceptT Failure InMemory _).run before = (.ok documents, before)
  /-- They are documents. -/
  isDocument : ∀ way ∈ documents,
    IsDocument before.tree run.extension arguments.recursive directory way
  /-- The tree is what their jobs leave. -/
  tree_eq : ∃ mid : HostState, mid.tree = before.tree
    ∧ after.tree = ((runJobs run (arrange (documents.map (jobOf run directory
      (arguments.output.getD directory)))) : InMemory _) mid).2.tree
  /-- It is well-formed again. -/
  wellFormed : after.tree.WellFormed
  /-- New bytes came only where results land. -/
  grown : Grown before.tree (IsResultPlace before.tree run arguments.recursive directory
    (arguments.output.getD directory)) after.tree
  /-- The same documents are collected again. -/
  collectedAgain : (collect run.extension arguments.recursive directory :
    ExceptT Failure InMemory _).run after = (.ok documents, after)

/-- A run that finds its settings works on the documents in the directory. The documents are those
that a collection finds before the run. -/
theorem exists_worksOn (harrange : ∀ jobs, (arrange jobs).Perm jobs)
    (hinput : arguments.input = some directory) (hwell : state.tree.WellFormed)
    (hdirectory : state.tree.isDirectory directory = true)
    (htarget : (arguments.output.getD directory).Unslashed)
    (hfound : foundRun state.tree filter arguments directory = .ok run)
    (hextension : isExtension run.extension = true) :
    ∃ documents, WorksOn arrange run arguments directory documents state
      ((processArranged arrange filter arguments).run state).2 := by
  obtain ⟨documents, hcollect, -, hmem⟩ :=
    collect_run run.extension arguments.recursive hwell hdirectory
  have hdocuments : ∀ way ∈ documents,
      IsDocument state.tree run.extension arguments.recursive directory way :=
    fun way => (hmem way).1
  obtain ⟨lines, hrun⟩ := processArranged_run arrange filter hinput hdirectory
  simp only [hfound] at hrun
  -- What was reported in the meantime makes no difference to what is collected.
  have hcollectMid : (collect run.extension arguments.recursive directory :
      ExceptT Failure InMemory _).run { state with reports := state.reports ++ lines }
        = (.ok documents, { state with reports := state.reports ++ lines }) :=
    collect_eq hwell hwell hdirectory hdirectory (fun _ => Iff.rfl) hcollect
  have hmapped : documents.mapM (jobFor run directory (arguments.output.getD directory))
      = .ok (documents.map (jobOf run directory (arguments.output.getD directory))) :=
    mapM_jobFor hextension hdocuments
  obtain ⟨mid, hmid, htree⟩ := processDirectoryArranged_tree harrange hcollectMid hmapped
  rw [← hrun] at htree
  have hsteady := steady_arranged harrange (arguments.output.getD directory) hdirectory hdocuments
  have hgrown := hsteady.keeps_grown mid (by rw [hmid]; exact .refl hwell.grounded)
  rw [← htree] at hgrown
  have hkeeps : Keeps WellFormed (runJobs run (arrange (documents.map (jobOf run directory
      (arguments.output.getD directory)))) : InMemory _) := by
    refine .runJobs fun job hjob => keeps_wellFormed_run run ?_
    obtain ⟨way, hway, rfl⟩ := List.mem_map.1 ((harrange _).mem_iff.1 hjob)
    exact unslashed_jobOf hextension htarget (hdocuments way hway)
  have hwellAfter := hkeeps mid (hmid ▸ hwell)
  rw [← htree] at hwellAfter
  exact ⟨documents, hcollect, hdocuments, ⟨mid, hmid, htree⟩, hwellAfter, hgrown,
    collect_eq hwell hwellAfter hdirectory (hgrown.isDirectory hdirectory)
      (fun way => isDocument_iff_of_grows hwell.grounded hdirectory hgrown.toGrows) hcollect⟩

/-- The same documents are collected before and after a run, and the run overwrites none of them,
not even for a time. -/
structure SparesDocuments (arrange : List Job → List Job) (run : RunSettings)
    (arguments : DocumentArguments) (directory : Path) (documents : List (List String))
    (before after : HostState) : Prop where
  /-- The documents are collected before the run. -/
  collected : (collect run.extension arguments.recursive directory :
    ExceptT Failure InMemory _).run before = (.ok documents, before)
  /-- They are collected after it, too. -/
  collectedAgain : (collect run.extension arguments.recursive directory :
    ExceptT Failure InMemory _).run after = (.ok documents, after)
  /-- The file of every document is kept, and at no time during the run a result lands there. -/
  spared : ∀ way ∈ documents, ∃ place bytes, before.tree.locate (directory.join way) = .ok place
    ∧ before.tree.get? place = some (.file bytes) ∧ after.tree.get? place = some (.file bytes)
    ∧ Spared run (arrange (documents.map (jobOf run directory (arguments.output.getD directory))))
      before.tree place

namespace WorksOn

variable {before after later : HostState}

/-- A run that works on the documents spares every one of them, for whatever order the jobs are put
in. -/
theorem sparesDocuments (h : WorksOn arrange run arguments directory documents before after)
    (harrange : ∀ jobs, (arrange jobs).Perm jobs)
    (hground : before.tree.Grounded) (hdirectory : before.tree.isDirectory directory = true) :
    SparesDocuments arrange run arguments directory documents before after where
  collected := h.collected
  collectedAgain := h.collectedAgain
  spared way hway := by
    obtain ⟨place, bytes, hlocate, hbytes, name, hlast, hname⟩ :=
      (h.isDocument way hway).exists_place hdirectory
    have hnot : ¬ IsResultPlace before.tree run arguments.recursive directory
        (arguments.output.getD directory) place := not_isResultPlace hname hlast
    have hsteady :=
      steady_arranged harrange (arguments.output.getD directory) hdirectory h.isDocument
    exact ⟨place, bytes, hlocate, hbytes, h.grown.get?_file hnot hbytes,
      hsteady.spared hground hbytes hnot⟩

/-- A run that works on the same documents again leaves every place as it was. The first run has put
every result where the second one puts it, with the same bytes, since the documents themselves are
kept; and it has made the directories that the second one would make. -/
theorem get?_eq (h : WorksOn arrange run arguments directory documents before after)
    (hagain : WorksOn arrange run arguments directory documents after later)
    (harrange : ∀ jobs, (arrange jobs).Perm jobs)
    (hground : before.tree.Grounded) (hdirectory : before.tree.isDirectory directory = true)
    (place : Location) : later.tree.get? place = after.tree.get? place := by
  obtain ⟨mid, hmid, hafter⟩ := h.tree_eq
  obtain ⟨midAgain, hmidAgain, hlater⟩ := hagain.tree_eq
  rw [hlater, hafter]
  have hsteady :=
    steady_arranged harrange (arguments.output.getD directory) hdirectory h.isDocument
  refine runJobs_again hsteady ?_ ?_ ?_ place
  · rw [hmid]
    exact .refl hground
  · rw [hmidAgain]
    exact h.grown
  · rw [hmidAgain, ← hafter]
    exact ⟨.refl _, fun _ => .inl rfl⟩

end WorksOn

/-- A run over a directory spares the documents in it, however its jobs are arranged, and the same
documents are collected afterwards. If no result lands at the configuration file or at the file with
metadata, the same run once more leaves every place as the first run left it. -/
theorem processArranged_again (arrange : List Job → List Job) (filter : Log.Filter)
    (arguments : DocumentArguments) (harrange : ∀ jobs, (arrange jobs).Perm jobs)
    (hinput : arguments.input = some directory) (hwell : state.tree.WellFormed)
    (hdirectory : state.tree.isDirectory directory = true)
    (htarget : (arguments.output.getD directory).Unslashed)
    (hfound : ∀ run, ((findRun filter arguments directory).run state).1 = .ok run →
      isExtension run.extension = true ∧ SparesSettings state.tree run arguments directory) :
    let first := ((processArranged arrange filter arguments).run state).2
    let second := ((processArranged arrange filter arguments).run first).2
    (∀ run, ((findRun filter arguments directory).run state).1 = .ok run →
      ∃ documents, SparesDocuments arrange run arguments directory documents state first)
    ∧ ∀ place, second.tree.get? place = first.tree.get? place := by
  intro first second
  obtain ⟨_, hfind⟩ := findRun_run filter arguments hdirectory
  simp only [hfind] at hfound ⊢
  cases hrun : foundRun state.tree filter arguments directory with
  | error failure =>
      -- Neither run gets as far as the documents.
      have htree : first.tree = state.tree := processArranged_of_error hinput hdirectory hrun
      refine ⟨fun run hok => (by cases hok), fun place => ?_⟩
      rw [show second.tree = first.tree from
        processArranged_of_error hinput (htree ▸ hdirectory) (htree ▸ hrun)]
  | ok run =>
      obtain ⟨hextension, hspared⟩ := hfound run hrun
      obtain ⟨documents, hworks⟩ :=
        exists_worksOn harrange hinput hwell hdirectory htarget hrun hextension
      have hdirectoryFirst := hworks.grown.isDirectory hdirectory
      refine ⟨?_, fun place => ?_⟩
      · rintro _ ⟨⟩
        exact ⟨documents, hworks.sparesDocuments harrange hwell.grounded hdirectory⟩
      rcases foundRun_of_grows hwell.grounded hdirectory hworks.grown.toGrows hrun hspared with
        hagain | ⟨failure, hagain⟩
      · obtain ⟨documentsAgain, hworksAgain⟩ := exists_worksOn harrange hinput hworks.wellFormed
          hdirectoryFirst htarget hagain hextension
        obtain rfl : documents = documentsAgain :=
          Except.ok.inj (Prod.mk.inj (hworks.collectedAgain.symm.trans hworksAgain.collected)).1
        exact hworks.get?_eq hworksAgain harrange hwell.grounded hdirectory place
      · -- A directory has come in the place of the configuration file, so nothing is done.
        rw [show second.tree = first.tree from
          processArranged_of_error hinput hdirectoryFirst hagain]

end

/-- A directory with a configuration under which two documents have one result. -/
def configuredState : HostState where
  tree :=
    { entries :=
        [(["docs"], .directory),
          (["docs", "_mdx-images.toml"], .file "[output]\nextension = \"json\"\n".toUTF8),
          (["docs", "a.JSON"], .file blankDocument.toUTF8),
          (["docs", "a.Json"], .file
            "\x7b\"type\":\"root\",\"children\":[\x7b\"type\":\"break\"\x7d]\x7d".toUTF8)]
      workingDirectory := [] }

/-- Each entry lies in a directory that is there, under a name of its own. -/
theorem wellFormed_configuredState : configuredState.tree.WellFormed where
  distinct := by decide +kernel
  plain := by decide +kernel
  around entry hentry := by
    simp only [configuredState, List.mem_cons, List.not_mem_nil, or_false] at hentry
    rcases hentry with rfl | rfl | rfl | rfl <;> rfl
  working := rfl

/-- With the jobs in reverse order, the document that is collected first is kept, and a second run
changes nothing. -/
theorem processArranged_again_configuredState :
    let program := processArranged List.reverse ⟨[]⟩ { input := some ⟨["docs"]⟩ }
    let first := (program.run configuredState).2
    first.tree.get? ["docs", "a.JSON"] = configuredState.tree.get? ["docs", "a.JSON"]
      ∧ ∀ place, (program.run first).2.tree.get? place = first.tree.get? place := by
  intro program first
  let arguments : DocumentArguments := { input := some ⟨["docs"]⟩ }
  let found := ((findRun ⟨[]⟩ arguments ⟨["docs"]⟩).run configuredState).1
  have hextension : found.toOption.map RunSettings.extension = some "json" := by decide +kernel
  have hjson {run : RunSettings} (hrun : found = .ok run) : run.extension = "json" := by
    rw [hrun] at hextension
    exact Option.some.inj hextension
  obtain ⟨run, hrun⟩ : ∃ run, found = .ok run := by
    cases hfound : found with
    | ok run => exact ⟨run, rfl⟩
    | error failure =>
        rw [hfound] at hextension
        cases hextension
  have hdirectory : configuredState.tree.isDirectory ⟨["docs"]⟩ = true := by decide +kernel
  have htarget : Unslashed ⟨["docs"]⟩ := by
    rw [show Path.mk ["docs"] = .ofText "docs" by decide +kernel]
    exact unslashed_ofText "docs"
  obtain ⟨hspared, hagain⟩ := processArranged_again List.reverse ⟨[]⟩ arguments
    List.reverse_perm rfl wellFormed_configuredState hdirectory
    htarget fun run hrun => by
      refine ⟨by rw [hjson hrun]; decide, ?_⟩
      rintro path (rfl | hpath) place hlocate - hplace
      · obtain ⟨name, hlast, hsuffix⟩ := hplace.exists_suffix
        have hconfig : (configuredState.tree.locate (settingsPath none ⟨["docs"]⟩)).toOption
            = some ["docs", "_mdx-images.toml"] := by decide +kernel
        rw [show configuredState.tree.locate (settingsPath none ⟨["docs"]⟩) = .ok place
          from hlocate] at hconfig
        rw [Option.some.inj hconfig] at hlast
        rw [← Option.some.inj hlast, hjson hrun] at hsuffix
        exact absurd hsuffix (by decide +kernel)
      · cases hpath
  obtain ⟨documents, hcollect, -, hkept⟩ := hspared run hrun
  obtain ⟨collected, hcollected, -, hmem⟩ :=
    collect_run run.extension false wellFormed_configuredState hdirectory
  obtain rfl : documents = collected :=
    Except.ok.inj (Prod.mk.inj (hcollect.symm.trans hcollected)).1
  obtain ⟨place, bytes, hlocate, hbytes, hfirst, -⟩ := hkept ["a.JSON"] ((hmem _).2
    ⟨by decide +kernel, by decide +kernel, ⟨"a.JSON", rfl, by
      rw [hjson hrun]
      exact isDocumentName_iff.1 (by decide +kernel)⟩, .inr rfl⟩)
  obtain rfl : ["docs", "a.JSON"] = place := Except.ok.inj hlocate
  exact ⟨hfirst.trans hbytes.symm, hagain⟩

end ImageImports.Cli
