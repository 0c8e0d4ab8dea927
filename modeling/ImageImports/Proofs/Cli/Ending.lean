import ImageImports.Cli.Run
import ImageImports.Proofs.Cli.Preparation

/-!
# `ImageImports.Proofs.Cli.Ending`: how a run ends

A failure is ordinary if the program reports it and ends with the code 1. The requests of a run fail
in ordinary ways only (`Ordinary`), but for a single one: no name can have an extension that holds a
slash, so a run that needs a name for a result breaks off if its settings ask for one
(`BreaksOff`). It needs such a name for a document that no output is given for, and for the
documents in a directory. Nothing has been written by then.

Main statement: `run_exitCode`.
-/

set_option autoImplicit false

namespace ImageImports.Cli

open FileTree ImageImports.Path

/-! ### Ordinary failures -/

/-- A request fails in ordinary ways only: each of its failures ends the program with the code 1.
The one other failure is that of an extension that no name can have. -/
def Ordinary {α : Type} (request : ExceptT Failure InMemory α) : Prop :=
  ∀ state failure, (request.run state).1 = .error failure → failure.exitCode = 1

namespace Ordinary

variable {α β : Type}

/-- A request that only gives a value does not fail. -/
theorem pure (a : α) : Ordinary (Pure.pure a : ExceptT Failure InMemory α) := by
  intro state failure h
  cases h

/-- A request that fails at once fails in an ordinary way if its failure is an ordinary one. -/
theorem throw {failure : Failure} (h : failure.exitCode = 1) :
    Ordinary (MonadExcept.throw failure : ExceptT Failure InMemory α) := by
  rintro state _ ⟨⟩
  exact h

/-- A request that cannot fail does not fail in another way. -/
theorem lift (request : InMemory α) :
    Ordinary (liftM request : ExceptT Failure InMemory α) := by
  intro state failure h
  cases h

/-- Two requests in a row fail in ordinary ways only if each of them does, whatever the first one
gives. -/
theorem bind {first : ExceptT Failure InMemory α} {next : α → ExceptT Failure InMemory β}
    (h : Ordinary first) (hnext : ∀ a, Ordinary (next a)) : Ordinary (first >>= next) := by
  intro state failure hfailure
  have hfirst := h state
  rw [bind_run] at hfailure
  rcases hrun : first.run state with ⟨outcome, after⟩
  rw [hrun] at hfirst hfailure
  cases outcome with
  | error cause =>
      cases hfailure
      exact hfirst failure rfl
  | ok a => exact hnext a after failure hfailure

/-- A request to the host fails in the ways that are named for it. -/
theorem attempt {failure : FileError → Failure} (h : ∀ cause, (failure cause).exitCode = 1)
    (request : InMemory (Except FileError α)) : Ordinary (attempt failure request) := by
  intro state other hfailure
  rw [attempt_run] at hfailure
  rcases hrequest : request state with ⟨outcome, after⟩
  rw [hrequest] at hfailure
  cases outcome with
  | error cause =>
      cases hfailure
      exact h cause
  | ok a => cases hfailure

end Ordinary

/-- Reading a configuration file fails in ordinary ways only. -/
theorem ordinary_loadSettings (path : Path) :
    Ordinary (loadSettings path : ExceptT Failure InMemory Settings) := by
  refine .bind (.attempt (fun _ => rfl) _) fun text => ?_
  cases Settings.parse? text with
  | some settings => exact .pure settings
  | none => exact .throw rfl

/-- Finding the settings for an input fails in ordinary ways only, wherever they come from. -/
theorem ordinary_findSettings (filter : Log.Filter) (config : Option Path) (input : Path) :
    Ordinary (findSettings filter config input : ExceptT Failure InMemory Settings) := by
  cases config with
  | some path => exact ordinary_loadSettings path
  | none =>
      refine .bind (.lift _) fun directory => .bind (.lift _) fun there => ?_
      cases there with
      | true => exact .bind (ordinary_loadSettings _) fun _ => .bind (.lift _) fun _ => .pure _
      | false => exact .pure _

/-- Reading the metadata that the arguments give fails in ordinary ways only. -/
theorem ordinary_givenMetadata (arguments : DocumentArguments) :
    Ordinary (givenMetadata arguments : ExceptT Failure InMemory (Option Metadata)) := by
  unfold givenMetadata
  split
  · refine .bind (.attempt (fun _ => rfl) _) fun text => ?_
    cases Json.parse text with
    | ok value => exact .pure _
    | error cause => exact .throw rfl
  · exact .pure _
  · exact .pure _

/-- What a run looks up before its work fails in ordinary ways only. -/
theorem ordinary_findRun (filter : Log.Filter) (arguments : DocumentArguments) (input : Path) :
    Ordinary (findRun filter arguments input) :=
  .bind (ordinary_findSettings _ _ _) fun _ => .bind (.lift _) fun _ =>
    .bind (ordinary_givenMetadata _) fun _ => .pure _

/-- The job of a document fails in ordinary ways only, because the path of its result is known by
then. -/
theorem ordinary_run (job : Job) (run : RunSettings) :
    Ordinary (job.run run : ExceptT Failure InMemory Unit) := by
  refine .bind (.attempt (fun _ => rfl) _) fun text => ?_
  cases Document.parse text with
  | error cause => exact .throw rfl
  | ok root =>
      have hwrite (result : String) : Ordinary (Cli.attempt (.notWritten job.output)
          (Host.write job.output result) : ExceptT Failure InMemory Unit) :=
        .attempt (fun _ => rfl) _
      refine .bind (.lift _) fun _ => ?_
      cases job.output.parent? with
      | none => exact hwrite _
      | some directory => exact .bind (.attempt (fun _ => rfl) _) fun _ => hwrite _

/-- Jobs that are done in an order fail in ordinary ways only: the failures of single jobs are
reported, and the run fails for their number. -/
theorem ordinary_inOrder (run : RunSettings) (jobs : List Job) : Ordinary (inOrder run jobs) := by
  refine .bind (.lift _) fun failures => .bind (.lift _) fun _ => .bind (.lift _) fun _ => ?_
  split
  · exact .pure _
  · exact .throw rfl

/-! ### Names for results -/

/-- Taking off leading dots takes no slash off. -/
theorem slash_mem_withoutLeadingDots_iff (text : String) :
    '/' ∈ (Settings.withoutLeadingDots text).toList ↔ '/' ∈ text.toList := by
  rw [Settings.withoutLeadingDots, String.toList_ofList]
  -- Only dots are taken off, so a slash is among the characters that are left.
  constructor
  · exact fun h => (List.dropWhile_suffix _).subset h
  · intro h
    rw [← List.takeWhile_append_dropWhile (p := (· == '.')) (l := text.toList)] at h
    rcases List.mem_append.1 h with hdots | hrest
    · exact absurd (List.mem_takeWhile_imp hdots) (by decide)
    · exact hrest

/-- The extension of results where none is set can be given to a name. -/
theorem isExtension_defaultExtension : isExtension Settings.defaultExtension = true := by
  decide +kernel

/-- The extension in effect holds a slash exactly if the one that is set does. Neither the dots that
are taken off nor the default hold one. -/
theorem isExtension_effectiveExtension_iff (settings : Settings) :
    isExtension settings.effectiveExtension = false
      ↔ ∃ extension, settings.extension = some extension ∧ '/' ∈ extension.toList := by
  unfold Settings.effectiveExtension
  cases settings.extension with
  | none => simp [isExtension_defaultExtension]
  | some extension =>
      have hslash := slash_mem_withoutLeadingDots_iff extension
      simp only [Option.map_some, Option.some.injEq, exists_eq_left']
      split
      · rename_i hempty
        rw [hempty] at hslash
        simpa [isExtension_defaultExtension] using hslash
      · simpa [isExtension] using hslash

/-- Every path gets a result beside it if the extension can be given to a name. -/
theorem exists_resultPath {extension : String} (h : isExtension extension = true) (path : Path) :
    ∃ output, resultPath extension path = .ok output := by
  rw [resultPath, withExtension?, if_pos h]
  cases path.pieces.getLast? with
  | none => exact ⟨_, rfl⟩
  | some name => exact ⟨_, rfl⟩

/-! ### Runs over documents -/

/-- Work on one document fails in ordinary ways only if its result has a name: one that is given, or
one with an extension that a name can have. -/
theorem ordinary_processFile (run : RunSettings) (input : Path) {output : Option Path}
    (h : output.isSome = true ∨ isExtension run.extension = true) :
    Ordinary (processFile run input output : ExceptT Failure InMemory Unit) := by
  have hwork (path : Path) : Ordinary (do
      log (m := InMemory) run.filter
        (runEvent "rewriting" [("input", input.text), ("output", path.text)])
      Job.run { input, output := path, metadata := run.metadata.getD {} } run
      tell (m := InMemory) run path.text : ExceptT Failure InMemory Unit) :=
    .bind (.lift _) fun _ => .bind (ordinary_run _ _) fun _ => .lift _
  cases output with
  | some path => exact hwork path
  | none =>
      obtain ⟨path, hpath⟩ := exists_resultPath (h.resolve_left (by simp)) input
      unfold processFile
      simp only [hpath]
      exact hwork path

/-- Work on one document breaks off if the name of its result would hold a slash. It does so before
the document is read. -/
theorem processFile_of_slash {run : RunSettings} (h : isExtension run.extension = false)
    (input : Path) (state : HostState) :
    (processFile run input none : ExceptT Failure InMemory Unit).run state
      = (.error (.slashInExtension run.extension), state) := by
  unfold processFile
  simp only [resultPath_of_slash h]
  rfl

/-! ### Whole runs -/

/-- Works on an input with the settings that were found for it. This is the part of `process` behind
its preparations. -/
def processInput (run : RunSettings) (arguments : DocumentArguments) (input : Path) :
    ExceptT Failure InMemory Unit := do
  if ← Host.isFile (m := InMemory) input then
    processFile run input arguments.output
  else if ← Host.isDirectory (m := InMemory) input then
    processDirectory run input arguments.output arguments.recursive
  else throw (.missingInput input)

/-- A run finds its settings and works on its input then. The two parts are looked at one by one,
since only the second can break off. -/
theorem process_eq (filter : Log.Filter) {arguments : DocumentArguments} {input : Path}
    (hinput : arguments.input = some input) :
    (process filter arguments : ExceptT Failure InMemory Unit)
      = findRun filter arguments input >>= fun run => processInput run arguments input := by
  unfold process
  rw [hinput]
  simp only [findRun, bind_assoc, pure_bind]
  rfl

/-- A run needs a name for a result: for that of a document that no output is given for, or for
those of the documents in a directory. A directory without documents needs none. -/
def NeedsName (tree : FileTree) (arguments : DocumentArguments) (extension : String)
    (input : Path) : Prop :=
  tree.isFile input = true ∧ arguments.output = none
    ∨ tree.isDirectory input = true
      ∧ ∃ way, IsDocument tree extension arguments.recursive input way

/-- A run has settings that ask for an extension with a slash, and it needs a name for a result.
This is said of the tree and the arguments alone, not of what the program does with them. -/
structure BreaksOff (tree : FileTree) (arguments : DocumentArguments) (input : Path)
    (settings : Settings) : Prop where
  /-- The input is the one that is named. -/
  input_eq : arguments.input = some input
  /-- The settings are those of the configuration file. -/
  settings_eq : settingsIn tree arguments.config (settingsHome tree input) = .ok settings
  /-- The metadata, if they are in a file, can be read. -/
  metadata_ok : ∃ metadata, metadataIn tree arguments = .ok metadata
  /-- The extension that is set holds a slash. -/
  slash : ∃ extension, settings.extension = some extension ∧ '/' ∈ extension.toList
  /-- A name with this extension is needed. -/
  needed : NeedsName tree arguments settings.effectiveExtension input

section
variable {filter : Log.Filter} {arguments : DocumentArguments} {state : HostState} {input : Path}
variable {settings : Settings}

/-- Work that needs no name with a slash fails in ordinary ways only. A directory without documents
is such work whatever the extension is. -/
theorem ordinary_processInput (run : RunSettings) (hwell : state.tree.WellFormed)
    (hneeded : isExtension run.extension = true
      ∨ ¬ NeedsName state.tree arguments run.extension input) (failure : Failure)
    (h : ((processInput run arguments input).run state).1 = .error failure) :
    failure.exitCode = 1 := by
  unfold processInput at h
  rw [ite_isFile_run] at h
  split at h
  · -- For a document either an output is given or the extension is one.
    rename_i hfile
    refine ordinary_processFile run input ?_ state failure h
    rw [or_comm]
    refine hneeded.imp_right fun hnot => ?_
    by_contra houtput
    exact hnot (.inl ⟨hfile, by simpa using houtput⟩)
  rw [ite_isDirectory_run] at h
  split at h
  · rename_i hdirectory
    obtain ⟨documents, hcollect, -, hmem⟩ :=
      collect_run run.extension arguments.recursive hwell hdirectory
    obtain ⟨lines, hrun⟩ := processDirectory_run arguments.output hcollect
    rw [hrun] at h
    split at h
    · cases h
    rename_i hsome
    -- There is a document, so a name is needed: the extension holds no slash, and all have jobs.
    obtain ⟨way, hway⟩ := List.exists_mem_of_ne_nil documents hsome
    have hextension := hneeded.resolve_right fun hnot =>
      hnot (.inr ⟨hdirectory, way, (hmem way).1 hway⟩)
    rw [mapM_jobFor hextension fun way => (hmem way).1] at h
    exact ordinary_inOrder _ _ _ _ h
  · cases h
    rfl

/-- Work that needs a name with a slash breaks off before it begins. Only the log has changed by
then. -/
theorem processInput_of_slash (run : RunSettings) (hwell : state.tree.WellFormed)
    (hslash : isExtension run.extension = false)
    (hneeded : NeedsName state.tree arguments run.extension input) :
    ∃ lines, (processInput run arguments input).run state
      = (.error (.slashInExtension run.extension),
        { state with reports := state.reports ++ lines }) := by
  unfold processInput
  rw [ite_isFile_run]
  rcases hneeded with ⟨hfile, houtput⟩ | ⟨hdirectory, way, hway⟩
  · rw [if_pos hfile, houtput, processFile_of_slash hslash]
    exact ⟨[], by simp⟩
  · obtain ⟨documents, hcollect, -, hmem⟩ :=
      collect_run run.extension arguments.recursive hwell hdirectory
    obtain ⟨lines, hrun⟩ := processDirectory_run arguments.output hcollect
    have hsome : documents ≠ [] := List.ne_nil_of_mem ((hmem way).2 hway)
    rw [if_neg (by simp [isFile_eq_false hdirectory]), ite_isDirectory_run, if_pos hdirectory, hrun,
      if_neg hsome, mapM_jobFor_of_slash hslash _ _ hsome]
    exact ⟨lines, rfl⟩

/-- A run that breaks off has changed no file by then. Its failure names the extension in effect. -/
theorem process_of_breaksOff (filter : Log.Filter) (hwell : state.tree.WellFormed)
    (h : BreaksOff state.tree arguments input settings) :
    ∃ lines, (process filter arguments : ExceptT Failure InMemory Unit).run state
      = (.error (.slashInExtension settings.effectiveExtension),
        { state with reports := state.reports ++ lines }) := by
  obtain ⟨metadata, hmetadata⟩ := h.metadata_ok
  obtain ⟨lines, hfind⟩ := findRun_apply filter arguments input state
  rw [foundRun_ok_iff.2 ⟨settings, metadata, h.settings_eq, hmetadata, rfl⟩] at hfind
  -- Finding the settings has only reported something: the tree is the one of the beginning.
  let found : HostState := { state with reports := state.reports ++ lines }
  have hfoundWell : found.tree.WellFormed := hwell
  obtain ⟨more, hinput⟩ := processInput_of_slash
    (runSettings filter arguments settings metadata) hfoundWell
    ((isExtension_effectiveExtension_iff settings).2 h.slash) h.needed
  refine ⟨lines ++ more, ?_⟩
  rw [process_eq filter h.input_eq, bind_run, hfind]
  simp only
  rw [hinput, List.append_assoc]
  rfl

/-- A run that does not break off fails in ordinary ways only. Here the failures of its preparations
and those of its work come together. -/
theorem exitCode_of_process (filter : Log.Filter) (hwell : state.tree.WellFormed)
    (hnot : ¬ ∃ input settings, BreaksOff state.tree arguments input settings) (failure : Failure)
    (h : ((process filter arguments : ExceptT Failure InMemory Unit).run state).1
      = .error failure) : failure.exitCode = 1 := by
  cases hinput : arguments.input with
  | none =>
      unfold process at h
      rw [hinput] at h
      cases h
      rfl
  | some input =>
      -- The run fails while it looks for its settings, or in the work on its input.
      obtain ⟨lines, hfind⟩ := findRun_apply filter arguments input state
      rw [process_eq filter hinput, bind_run, hfind] at h
      cases hfound : foundRun state.tree filter arguments (settingsHome state.tree input) with
      | error cause =>
          rw [hfound] at h hfind
          obtain rfl : cause = failure := Except.error.inj h
          exact ordinary_findRun filter arguments input state cause (by rw [hfind])
      | ok run =>
          rw [hfound] at h
          obtain ⟨settings, metadata, hsettings, hmetadata, rfl⟩ := foundRun_ok_iff.1 hfound
          let found : HostState := { state with reports := state.reports ++ lines }
          have hfoundWell : found.tree.WellFormed := hwell
          refine ordinary_processInput (runSettings filter arguments settings metadata)
            hfoundWell ?_ failure h
          -- With a slash in the extension and a name needed the run would break off.
          rw [or_iff_not_imp_left, Bool.not_eq_true]
          intro hslash hneeded
          exact hnot ⟨input, settings, hinput, hsettings, ⟨metadata, hmetadata⟩,
            (isExtension_effectiveExtension_iff settings).1 hslash, hneeded⟩

/-- Lines about a run are added to the reports in their order. -/
theorem reportAll_apply (lines : List String) (state : HostState) :
    (reportAll lines : InMemory _) state
      = ((), { state with reports := state.reports ++ lines }) := by
  induction lines generalizing state with
  | nil => simp [reportAll, InMemory.pure_apply]
  | cons line rest ih =>
      have hstep : (reportAll (line :: rest) : InMemory _) state
          = (reportAll rest : InMemory _)
            { state with reports := state.reports ++ [line] } := rfl
      rw [hstep, ih, List.append_assoc, List.singleton_append]

/-- The program tells by its exit code, and by what it reports, how the work on documents ended. -/
theorem run_process (filter : Option String) {words : List String}
    (hwords : Request.ofWords words = .ok (.process arguments)) (state : HostState) :
    (run filter words : InMemory Nat) state
      = match (process (filterFor filter arguments) arguments :
          ExceptT Failure InMemory Unit).run state with
        | (.ok (), after) => (0, after)
        | (.error failure, after) =>
            (failure.exitCode, { after with reports := after.reports ++ failure.lines }) := by
  unfold run
  rw [hwords]
  simp only [InMemory.bind_apply, perform]
  rcases (process (filterFor filter arguments) arguments :
    ExceptT Failure InMemory Unit).run state with ⟨outcome, after⟩
  cases outcome with
  | ok => rfl
  | error failure =>
      simp only [InMemory.bind_apply, reportAll_apply]
      rfl

/-- A program ends as its work on documents did: with the code 0, or with the code 1 and a report of
the failure that ended the work. -/
def EndsOrdinarily (worked : Except Failure Unit × HostState) (ended : Nat × HostState) : Prop :=
  worked.1 = .ok () ∧ ended = (0, worked.2)
    ∨ ∃ failure, worked.1 = .error failure
      ∧ ended = (1, { worked.2 with reports := worked.2.reports ++ failure.lines })

/-- A run over documents ends with the code 0, or with the code 1 and a report of its failure,
exactly if it does not need a name for a result with a slash in its extension. Where it needs one,
it breaks off with the code 101 before it has changed any file. -/
theorem run_exitCode (filter : Option String) {words : List String}
    (hwords : Request.ofWords words = .ok (.process arguments)) (hwell : state.tree.WellFormed) :
    let worked := (process (filterFor filter arguments) arguments :
      ExceptT Failure InMemory Unit).run state
    let ended := (run filter words : InMemory Nat) state
    (EndsOrdinarily worked ended
        ↔ ¬ ∃ input settings, BreaksOff state.tree arguments input settings)
      ∧ ((∃ input settings, BreaksOff state.tree arguments input settings) →
        ended.1 = 101 ∧ ended.2.tree = state.tree) := by
  intro worked ended
  have hended := run_process filter hwords state
  -- A run that breaks off does so before it writes anything, with a code that no other run has.
  have hbreaks (h : ∃ input settings, BreaksOff state.tree arguments input settings) :
      ended.1 = 101 ∧ ended.2.tree = state.tree := by
    obtain ⟨input, settings, h⟩ := h
    obtain ⟨lines, hprocess⟩ := process_of_breaksOff (filterFor filter arguments) hwell h
    rw [hprocess] at hended
    exact ⟨congrArg Prod.fst hended, congrArg (fun ended => ended.2.tree) hended⟩
  refine ⟨⟨fun h hbroken => ?_, fun hnot => ?_⟩, hbreaks⟩
  · have hcode := (hbreaks hbroken).1
    rcases h with ⟨-, hzero⟩ | ⟨failure, -, hone⟩
    · rw [hzero] at hcode
      cases hcode
    · rw [hone] at hcode
      cases hcode
  · have hordinary := exitCode_of_process (filterFor filter arguments) hwell hnot
    change ended = match worked with | (.ok (), after) => _ | (.error failure, after) => _ at hended
    change ∀ failure, worked.1 = .error failure → _ at hordinary
    rcases worked with ⟨outcome, after⟩
    cases outcome with
    | ok => exact .inl ⟨rfl, hended⟩
    | error failure =>
        exact .inr ⟨failure, rfl, hended.trans (Prod.ext (hordinary failure rfl) rfl)⟩

end

/-- A directory with a document and a configuration file that sets an extension with a slash. -/
def slashState : HostState where
  tree :=
    { entries :=
        [(["docs"], .directory),
          (["docs", "_mdx-images.toml"], .file "[output]\nextension = \"a/b\"\n".toUTF8),
          (["docs", "a.json"], .file blankDocument.toUTF8)]
      workingDirectory := [] }

/-- Each entry lies in a directory that is there, under a name of its own. -/
theorem wellFormed_slashState : slashState.tree.WellFormed where
  distinct := by decide +kernel
  plain := by decide +kernel
  around entry hentry := by
    simp only [slashState, List.mem_cons, List.not_mem_nil, or_false] at hentry
    rcases hentry with rfl | rfl | rfl <;> rfl
  working := rfl

/-- Where an output is given for the document, the extension makes no difference. -/
theorem run_exitCode_output :
    let words := ["docs/a.json", "-o", "docs/b.json"]
    let arguments : DocumentArguments :=
      { input := some (.ofText "docs/a.json"), output := some (.ofText "docs/b.json") }
    let worked := (process (filterFor none arguments) arguments :
      ExceptT Failure InMemory Unit).run slashState
    EndsOrdinarily worked ((run none words : InMemory Nat) slashState) := by
  intro words arguments worked
  have hwords : Request.ofWords words = .ok (.process arguments) := by rfl
  refine ((run_exitCode none hwords wellFormed_slashState).1).2 ?_
  rintro ⟨input, settings, h⟩
  obtain rfl : .ofText "docs/a.json" = input := Option.some.inj h.input_eq
  rcases h.needed with ⟨-, hnone⟩ | ⟨hdirectory, -⟩
  · cases hnone
  · exact absurd hdirectory (by decide +kernel)

/-- Where none is given, the run breaks off with another code. -/
theorem run_exitCode_ne :
    let code := ((run none ["docs/a.json"] : InMemory Nat) slashState).1
    slashState.tree.isFile (.ofText "docs/a.json") = true ∧ code ≠ 0 ∧ code ≠ 1 := by
  decide +kernel

end ImageImports.Cli
