import ImageImports.Proofs.Cli.Documents
import ImageImports.Proofs.Cli.Repetition

/-!
# `ImageImports.Proofs.Cli.Preparation`: what a run reads before it works on documents

Before a run works on documents, it reads its configuration file, if there is one, and a file with
metadata, if one is given (`findRun_apply`, and `findRun_run` for a run over a directory). If no
result of a run over a directory lands at either of them, then in the tree that jobs leave the
settings are the same as before, or there are none at all (`foundRun_of_grows`): a directory may
have been made where a configuration file is looked for and there was none.
-/

set_option autoImplicit false

namespace ImageImports.Cli

open FileTree ImageImports.Path

/-! ### Settings and metadata -/

/-- The settings in the configuration file at a path, or why there are none. -/
def settingsAt (tree : FileTree) (path : Path) : Except Failure Settings :=
  match tree.read path with
  | .error cause => .error (.unreadableSettings path cause)
  | .ok text =>
      match Settings.parse? text with
      | some settings => .ok settings
      | none => .error (.invalidSettings path)

/-- The path of the configuration file for a directory: the one that is given, or else the usual
name in the directory. -/
def settingsPath (config : Option Path) (directory : Path) : Path :=
  config.getD (directory.join [Settings.fileName])

/-- The directory in which the configuration file for an input is looked for: the input itself, or
the directory of the input if it is a file. -/
def settingsHome (tree : FileTree) (input : Path) : Path :=
  if tree.isDirectory input then input
  else
    match input.parent? with
    | some directory => if directory.isEmpty then .ofText "." else directory
    | none => .ofText "."

/-- For a directory the configuration file is looked for in the directory itself. -/
theorem settingsHome_of_isDirectory {tree : FileTree} {directory : Path}
    (h : tree.isDirectory directory = true) : settingsHome tree directory = directory := by
  rw [settingsHome, if_pos h]

/-- The settings for a directory. Without a configuration file nothing is set, unless such a file
was asked for. -/
def settingsIn (tree : FileTree) (config : Option Path) (directory : Path) :
    Except Failure Settings :=
  let path := settingsPath config directory
  if config.isSome || tree.isFile path || tree.isDirectory path then settingsAt tree path
  else .ok {}

/-- The metadata that some arguments give for all documents, or why they cannot be read. A file with
metadata goes before a directory that is named. -/
def metadataIn (tree : FileTree) (arguments : DocumentArguments) :
    Except Failure (Option Metadata) :=
  match arguments.metadata, arguments.sourceFileDir with
  | some path, _ =>
      match tree.read path with
      | .error cause => .error (.unreadableMetadata path cause)
      | .ok text =>
          match Json.parse text with
          | .ok value => .ok (some (.ofValue value))
          | .error cause => .error (.invalidMetadata path cause)
  | none, some directory => .ok (some (.inDirectory directory))
  | none, none => .ok none

section
variable {directory : Path} {state : HostState}

/-- Reading a configuration file finds the settings in it and changes nothing. -/
theorem loadSettings_run (path : Path) (state : HostState) :
    (loadSettings path : ExceptT Failure InMemory Settings).run state
      = (settingsAt state.tree path, state) := by
  rw [loadSettings, bind_run, attempt_run, InMemory.read_apply, settingsAt]
  cases state.tree.read path with
  | error cause => rfl
  | ok text =>
      simp only
      cases Settings.parse? text <;> rfl

/-- The directory for the configuration file is found by a look at the tree. -/
theorem settingsDirectory_apply (input : Path) (state : HostState) :
    (settingsDirectory input : InMemory _) state = (settingsHome state.tree input, state) := by
  unfold settingsDirectory settingsHome
  rw [InMemory.bind_apply, InMemory.isDirectory_apply]
  cases state.tree.isDirectory input with
  | true => rfl
  | false => cases input.parent? <;> rfl

/-- Something is at a path if a file or a directory is. -/
theorem isThere_apply (path : Path) (state : HostState) :
    (isThere path : InMemory _) state
      = (state.tree.isFile path || state.tree.isDirectory path, state) := by
  unfold isThere
  rw [InMemory.bind_apply, InMemory.isFile_apply]
  cases state.tree.isFile path <;> rfl

/-- The settings for an input are those that the tree holds for it. At most a line about them is
reported. -/
theorem findSettings_run (filter : Log.Filter) (config : Option Path) (input : Path)
    (state : HostState) :
    ∃ lines, (findSettings filter config input : ExceptT Failure InMemory Settings).run state
      = (settingsIn state.tree config (settingsHome state.tree input),
        { state with reports := state.reports ++ lines }) := by
  unfold findSettings settingsIn settingsPath
  cases config with
  | some path => exact ⟨[], by rw [loadSettings_run]; simp⟩
  | none =>
      -- Without a path the file is looked for, and only that it was read is logged.
      simp only
      rw [bind_run, lift_run, settingsDirectory_apply]
      simp only
      generalize settingsHome state.tree input = directory
      rw [bind_run, lift_run, isThere_apply]
      simp only [Option.isSome_none, Bool.false_or, Option.getD_none]
      split
      · obtain ⟨lines, hlog⟩ := log_apply filter
          (runEvent ("loaded " ++ Settings.fileName) [("dir", directory.text)]) state
        rw [bind_run, loadSettings_run]
        cases settingsAt state.tree (directory.join [Settings.fileName]) with
        | error failure => exact ⟨[], by simp⟩
        | ok settings =>
            refine ⟨lines, ?_⟩
            simp only
            rw [bind_run, lift_run, hlog]
            rfl
      · refine ⟨[], ?_⟩
        rw [List.append_nil]
        rfl

/-- The metadata that the arguments give are those that the tree holds, and nothing changes when
they are read. -/
theorem givenMetadata_run (arguments : DocumentArguments) (state : HostState) :
    (givenMetadata arguments : ExceptT Failure InMemory (Option Metadata)).run state
      = (metadataIn state.tree arguments, state) := by
  unfold givenMetadata metadataIn
  cases arguments.metadata with
  | some path =>
      simp only
      rw [bind_run, attempt_run, InMemory.read_apply]
      cases state.tree.read path with
      | error cause => rfl
      | ok text =>
          simp only
          cases Json.parse text <;> rfl
  | none => cases arguments.sourceFileDir <;> rfl

end

/-! ### What a run finds -/

/-- The settings that documents share, from the configuration, the arguments and the metadata. An
argument can only switch the resolving of addresses off and the pretty form on. -/
def runSettings (filter : Log.Filter) (arguments : DocumentArguments) (settings : Settings)
    (metadata : Option Metadata) : RunSettings where
  options := { resolve := settings.resolves && !arguments.noResolve }
  metadata := metadata
  pretty := arguments.pretty || settings.pretty.getD false
  extension := settings.effectiveExtension
  quiet := arguments.quiet
  filter := filter

/-- Reads the settings that documents share: the first part of `process`, before it looks at what
its input is. -/
def findRun (filter : Log.Filter) (arguments : DocumentArguments) (input : Path) :
    ExceptT Failure InMemory RunSettings := do
  let settings ← findSettings filter arguments.config input
  log (m := InMemory) filter (runEvent "rewrite options"
    [("resolve", Settings.booleanText (settings.resolves && !arguments.noResolve))])
  let metadata ← givenMetadata arguments
  return runSettings filter arguments settings metadata

/-- The settings that documents share, as they are found in a tree. It says without any steps what
`findRun` does. -/
def foundRun (tree : FileTree) (filter : Log.Filter) (arguments : DocumentArguments)
    (directory : Path) : Except Failure RunSettings :=
  match settingsIn tree arguments.config directory with
  | .error failure => .error failure
  | .ok settings => (metadataIn tree arguments).map (runSettings filter arguments settings)

section
variable {filter : Log.Filter} {arguments : DocumentArguments} {directory : Path}

/-- Settings are found if the configuration and the metadata can both be read, and they are put
together from these. -/
theorem foundRun_ok_iff {tree : FileTree} {run : RunSettings} :
    foundRun tree filter arguments directory = .ok run
      ↔ ∃ settings metadata, settingsIn tree arguments.config directory = .ok settings
        ∧ metadataIn tree arguments = .ok metadata
        ∧ runSettings filter arguments settings metadata = run := by
  unfold foundRun
  cases settingsIn tree arguments.config directory with
  | error failure => simp
  | ok settings => cases metadataIn tree arguments <;> simp [Except.map]

/-- A run finds the settings that the tree holds for its input (`load_config` and `load_metadata`).
Nothing but the reports changes, so what is found can be told from the tree before the run. -/
theorem findRun_apply (filter : Log.Filter) (arguments : DocumentArguments) (input : Path)
    (state : HostState) :
    ∃ lines, (findRun filter arguments input).run state
      = (foundRun state.tree filter arguments (settingsHome state.tree input),
        { state with reports := state.reports ++ lines }) := by
  obtain ⟨lines, hsettings⟩ := findSettings_run filter arguments.config input state
  unfold findRun foundRun
  rw [bind_run, hsettings]
  cases settingsIn state.tree arguments.config (settingsHome state.tree input) with
  | error failure => exact ⟨lines, rfl⟩
  | ok settings =>
      obtain ⟨more, hlog⟩ := log_apply filter (runEvent "rewrite options"
        [("resolve", Settings.booleanText (settings.resolves && !arguments.noResolve))])
        { state with reports := state.reports ++ lines }
      refine ⟨lines ++ more, ?_⟩
      simp only
      rw [bind_run, lift_run, hlog]
      simp only
      rw [bind_run, givenMetadata_run, List.append_assoc]
      simp only
      cases metadataIn state.tree arguments <;> rfl

/-- A run over a directory finds the settings that the tree holds for that directory, as a directory
is the home of its own configuration file. -/
theorem findRun_run (filter : Log.Filter) (arguments : DocumentArguments) {state : HostState}
    (hdirectory : state.tree.isDirectory directory = true) :
    ∃ lines, (findRun filter arguments directory).run state
      = (foundRun state.tree filter arguments directory,
        { state with reports := state.reports ++ lines }) := by
  simpa only [settingsHome_of_isDirectory hdirectory]
    using findRun_apply filter arguments directory state

variable {tree after : FileTree} {written : Location → Prop} {path : Path} {place : Location}

/-- A text at a place to which no new bytes come is read again. -/
theorem read_of_grows (h : tree.Grows written after) {text : String}
    (hread : tree.read path = .ok text)
    (hkept : ∀ place, tree.locate path = .ok place → tree.isFileAt place = true →
      ¬ written place) : after.read path = .ok text := by
  have hfound := hread
  rw [FileTree.read] at hfound
  -- A text is read only where the path leads to a place with a file.
  split at hfound
  · cases hfound
  rename_i place hlocate
  split at hfound
  · cases hfound
  · cases hfound
  rename_i bytes hbytes
  rw [h.read_eq (hkept place hlocate (isFileAt_iff.2 ⟨bytes, hbytes⟩)) hlocate hbytes, hread]

/-- Settings at a path to which no new bytes come are read again. -/
theorem settingsAt_of_grows (h : tree.Grows written after) {settings : Settings}
    (hsettings : settingsAt tree path = .ok settings)
    (hkept : ∀ place, tree.locate path = .ok place → tree.isFileAt place = true →
      ¬ written place) : settingsAt after path = .ok settings := by
  have hfound := hsettings
  rw [settingsAt] at hfound
  split at hfound
  · cases hfound
  rename_i text hread
  rw [← hsettings, settingsAt, settingsAt, hread, read_of_grows h hread hkept]

/-- Metadata are read again where no new bytes come to their file. -/
theorem metadataIn_of_grows (h : tree.Grows written after) {metadata : Option Metadata}
    (hmetadata : metadataIn tree arguments = .ok metadata)
    (hkept : ∀ path, arguments.metadata = some path → ∀ place, tree.locate path = .ok place →
      tree.isFileAt place = true → ¬ written place) :
    metadataIn after arguments = .ok metadata := by
  rw [metadataIn] at hmetadata ⊢
  cases hpath : arguments.metadata with
  | none => cases hsource : arguments.sourceFileDir <;> simpa only [hpath, hsource] using hmetadata
  | some path =>
      simp only [hpath] at hmetadata ⊢
      cases hread : tree.read path with
      | error cause =>
          rw [hread] at hmetadata
          cases hmetadata
      | ok text =>
          rw [hread] at hmetadata
          rw [read_of_grows h hread (hkept path hpath)]
          exact hmetadata

/-- A directory in the place of a configuration file is a failure, whatever is in it. -/
theorem settingsAt_of_isDirectory (h : tree.isDirectory path = true) :
    ∃ failure, settingsAt tree path = .error failure := by
  obtain ⟨place, hlocate, hplace⟩ := isDirectory_iff.1 h
  refine ⟨.unreadableSettings path .isADirectory, ?_⟩
  have hread : tree.read path = .error .isADirectory := by
    rw [FileTree.read, hlocate]
    simp only [hplace]
  rw [settingsAt, hread]

/-- Settings are found again where no new bytes come to the configuration file, unless a directory
was made where there was no such file. -/
theorem settingsIn_of_grows {config : Option Path} (hground : tree.Grounded)
    (hdirectory : tree.isDirectory directory = true) (h : tree.Grows written after)
    {settings : Settings} (hsettings : settingsIn tree config directory = .ok settings)
    (hkept : ∀ place, tree.locate (settingsPath config directory) = .ok place →
      tree.isFileAt place = true → ¬ written place)
    (hnew : settings = {} → ∀ here : Location, ¬ written (here ++ [Settings.fileName])) :
    settingsIn after config directory = .ok settings
      ∨ ∃ failure, settingsIn after config directory = .error failure := by
  rw [settingsIn] at hsettings ⊢
  by_cases hlooked : (config.isSome || tree.isFile (settingsPath config directory)
      || tree.isDirectory (settingsPath config directory)) = true
  · -- The file was read, and what was there is still there.
    rw [if_pos hlooked] at hsettings
    have hlookedAfter : (config.isSome || after.isFile (settingsPath config directory)
        || after.isDirectory (settingsPath config directory)) = true := by
      simp only [Bool.or_eq_true] at hlooked ⊢
      exact hlooked.imp (Or.imp_right h.isFile) h.isDirectory
    rw [if_pos hlookedAfter]
    exact .inl (settingsAt_of_grows h hsettings hkept)
  · -- Nothing was there. No file has come since, as no result has that name, but perhaps a
    -- Directory, and that cannot be read.
    rw [if_neg hlooked] at hsettings
    obtain rfl := Except.ok.inj hsettings
    simp only [Bool.or_eq_true, not_or, Bool.not_eq_true, Option.isSome_eq_false_iff,
      Option.isNone_iff_eq_none] at hlooked
    obtain ⟨⟨rfl, hnofile⟩, -⟩ := hlooked
    split
    · rename_i hlookedAfter
      obtain ⟨here, hlocate, -⟩ := isDirectory_iff.1 hdirectory
      have hnofileAfter : ¬ after.isFile (settingsPath none directory) = true := by
        have hplain : ∀ name ∈ [Settings.fileName], isPlain name = true := by decide +kernel
        rw [settingsPath, Option.getD_none,
          isFile_join_iff_of_grows hground hlocate h (by simp) hplain (hnew rfl here)]
        simpa [settingsPath] using hnofile
      refine .inr (settingsAt_of_isDirectory ?_)
      simpa [hnofileAfter] using hlookedAfter
    · exact .inl rfl

/-- No result of a run over a directory lands at the configuration file or at the file with
metadata. This keeps what the next run is told the same. -/
def SparesSettings (tree : FileTree) (run : RunSettings) (arguments : DocumentArguments)
    (directory : Path) : Prop :=
  ∀ path, path = settingsPath arguments.config directory ∨ arguments.metadata = some path →
    ∀ place, tree.locate path = .ok place → tree.isFileAt place = true →
      ¬ IsResultPlace tree run arguments.recursive directory (arguments.output.getD directory) place

/-- Without a configuration, no result takes the name of a configuration file. -/
theorem not_isResultPlace_fileName {run : RunSettings} {recursive : Bool} {target : Path}
    (hextension : run.extension = Settings.defaultExtension) (here : Location) :
    ¬ IsResultPlace tree run recursive directory target (here ++ [Settings.fileName]) := by
  intro hplace
  obtain ⟨name, hlast, hsuffix⟩ := hplace.exists_suffix
  rw [List.getLast?_append, List.getLast?_singleton, Option.some_or] at hlast
  rw [← Option.some.inj hlast, hextension] at hsuffix
  exact absurd hsuffix (by decide +kernel)

/-- What a run finds before it works on documents, it finds again afterwards, unless there was no
configuration file and a directory was made in its place. -/
theorem foundRun_of_grows {run : RunSettings} (hground : tree.Grounded)
    (hdirectory : tree.isDirectory directory = true)
    (h : tree.Grows (IsResultPlace tree run arguments.recursive directory
      (arguments.output.getD directory)) after)
    (hrun : foundRun tree filter arguments directory = .ok run)
    (hspared : SparesSettings tree run arguments directory) :
    foundRun after filter arguments directory = .ok run
      ∨ ∃ failure, foundRun after filter arguments directory = .error failure := by
  obtain ⟨settings, metadata, hsettings, hmetadata, rfl⟩ := foundRun_ok_iff.1 hrun
  -- Without settings results have the usual extension, and no such name is that of a configuration
  -- file: the run cannot have written one.
  have hnew : settings = {} → ∀ here : Location,
      ¬ IsResultPlace tree (runSettings filter arguments settings metadata)
        arguments.recursive directory (arguments.output.getD directory)
        (here ++ [Settings.fileName]) := by
    rintro rfl here
    exact not_isResultPlace_fileName rfl here
  rw [foundRun, metadataIn_of_grows h hmetadata fun path hpath => hspared path (.inr hpath)]
  rcases settingsIn_of_grows hground hdirectory h hsettings (hspared _ (.inl rfl)) hnew with
    hagain | ⟨failure, hagain⟩
  · rw [hagain]
    exact .inl rfl
  · rw [hagain]
    exact .inr ⟨failure, rfl⟩

end

end ImageImports.Cli
