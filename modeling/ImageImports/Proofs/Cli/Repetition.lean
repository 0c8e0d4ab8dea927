import ImageImports.Proofs.Cli.Results
import ImageImports.Proofs.Cli.Upkeep

/-!
# `ImageImports.Proofs.Cli.Repetition`: doing jobs again

The results of the documents in a directory never land where a document is, so whatever jobs have
been done, every document is as it was and is found again (`isDocument_iff_of_grows`, `collect_eq`).
Therefore a job has the same result when it is done again, and the file lands where it landed
before. A file may still be written several times, for two documents, but it is left with the bytes
that the first run left there (`runJobs_again`).
-/

set_option autoImplicit false

namespace ImageImports

open FileTree ImageImports.Path

namespace Cli

/-! ### Documents are kept -/

section
variable {run : RunSettings} {directory target : Path} {recursive : Bool} {way : List String}
variable {tree after : FileTree} {place : Location}

/-- Where the results of the documents in a directory land. It is fixed by the tree before a run,
and a run brings new bytes to no other place. -/
def IsResultPlace (tree : FileTree) (run : RunSettings) (recursive : Bool)
    (directory target : Path) (place : Location) : Prop :=
  ∃ way, IsDocument tree run.extension recursive directory way
    ∧ tree.landing? (jobOf run directory target way).output = some place

/-- Results land under names that end as the names of results do. This is what keeps them from being
taken for documents. -/
theorem IsResultPlace.exists_suffix
    (h : IsResultPlace tree run recursive directory target place) :
    ∃ name, place.getLast? = some name ∧ ("." ++ run.extension).toList <:+ name.toList := by
  obtain ⟨way, hdocument, hplace⟩ := h
  obtain ⟨names, name, -, hplain, hname, hresult⟩ := hdocument.exists_concat
  rw [jobOf, hresult] at hplace
  obtain ⟨hisName, -, here, -, rfl⟩ := landing?_join hplain (isVoid_renamed hname) hplace
  refine ⟨renamed name run.extension, by simp, ?_⟩
  rcases renamed_cases hname with hup | ⟨stem, -, heq⟩
  · rw [hup] at hisName
    cases hisName
  · exact ⟨stem.toList, by rw [heq]; simp⟩

/-- No result lands at a place with the name of a document. So no document is overwritten, whatever
the target directory is. -/
theorem not_isResultPlace {name : String} (hname : DocumentName run.extension name)
    (hlast : place.getLast? = some name) :
    ¬ IsResultPlace tree run recursive directory target place := by
  rintro ⟨way, hdocument, hplace⟩
  exact (landing?_jobOf hdocument hplace).2.2 name hname hlast

/-- What a document's job makes of it does not depend on what jobs have been done. The text of the
document is still what it was, and nothing else goes into the result. -/
theorem result_of_grows (hdirectory : tree.isDirectory directory = true)
    (hdocument : IsDocument tree run.extension recursive directory way)
    (h : tree.Grows (IsResultPlace tree run recursive directory target) after) :
    (jobOf run directory target way).result run after
      = (jobOf run directory target way).result run tree := by
  obtain ⟨place, bytes, hlocate, hbytes, name, hlast, hname⟩ := hdocument.exists_place hdirectory
  have hread := h.read_eq (not_isResultPlace hname hlast) hlocate hbytes
  unfold Job.result
  simp only [jobOf, hread]

/-- Below a directory no files come but where new bytes may. A way that led to a file still leads
there, and one that led to none leads to none. -/
theorem isFile_join_iff_of_grows {here : Location} {written : Location → Prop}
    (hground : tree.Grounded) (hlocate : tree.locate directory = .ok here)
    (h : tree.Grows written after) (hway : way ≠ []) (hplain : ∀ name ∈ way, isPlain name = true)
    (hplace : ¬ written (here ++ way)) :
    after.isFile (directory.join way) = true ↔ tree.isFile (directory.join way) = true := by
  constructor
  · intro hfile
    obtain ⟨hfault, hwalk, hfile⟩ := (isFile_join_iff (h.locate hlocate) hway hplain).1 hfile
    rw [h.isFileAt_eq hplace] at hfile
    obtain ⟨bytes, hbytes⟩ := isFileAt_iff.1 hfile
    exact (isFile_join_iff hlocate hway hplain).2
      ⟨hfault, hground.walk_plain hplain (by simp [hbytes]) hwalk, hfile⟩
  · exact h.isFile

/-- Jobs neither add documents nor take any away. The results that they add do not have the names of
documents, and the directories that they make are no files. -/
theorem isDocument_iff_of_grows (hground : tree.Grounded)
    (hdirectory : tree.isDirectory directory = true)
    (h : tree.Grows (IsResultPlace tree run recursive directory target) after) :
    IsDocument after run.extension recursive directory way
      ↔ IsDocument tree run.extension recursive directory way := by
  obtain ⟨here, hlocate, -⟩ := isDirectory_iff.1 hdirectory
  have hfile {other : FileTree}
      (hdocument : IsDocument other run.extension recursive directory way) :
      after.isFile (directory.join way) = true ↔ tree.isFile (directory.join way) = true := by
    obtain ⟨name, hlast, hname⟩ := hdocument.name
    refine isFile_join_iff_of_grows hground hlocate h hdocument.ne_nil hdocument.plain
      (not_isResultPlace hname ?_)
    rw [List.getLast?_append, hlast, Option.some_or]
  constructor
  · intro hdocument
    exact ⟨hdocument.plain, (hfile hdocument).1 hdocument.file, hdocument.name, hdocument.top⟩
  · intro hdocument
    exact ⟨hdocument.plain, (hfile hdocument).2 hdocument.file, hdocument.name, hdocument.top⟩

end

/-! ### The same documents in the same order -/

section
variable {extension : String} {recursive : Bool} {directory : Path}
variable {state later : HostState} {documents : List (List String)}

/-- Documents come in the order of their names. -/
theorem pairwise_of_collect
    (h : (collect extension recursive directory : ExceptT Failure InMemory _).run state
      = (.ok documents, later)) : documents.Pairwise fun a b => ¬ b < a := by
  rw [collect, bind_run] at h
  rcases hrun : (collectIn extension recursive depthLimit directory [] :
    ExceptT Failure InMemory _).run state with ⟨outcome, mid⟩
  rw [hrun] at h
  cases outcome with
  | error failure => cases h
  | ok found =>
      obtain rfl : found.mergeSort (fun a b => !decide (b < a)) = documents :=
        Except.ok.inj (Prod.mk.inj h).1
      have hsorted : (found.mergeSort fun a b => !decide (b < a)).Pairwise
          fun a b => (!decide (b < a)) = true := by
        refine List.pairwise_mergeSort (fun a b c hab hbc => ?_) (fun a b => ?_) found
        · simp only [Bool.not_eq_true', decide_eq_false_iff_not] at hab hbc ⊢
          exact List.le_trans (α := String) hab hbc
        · simp only [Bool.or_eq_true, Bool.not_eq_true', decide_eq_false_iff_not]
          exact List.le_total a b
      exact hsorted.imp fun hle => by
        simpa only [Bool.not_eq_true', decide_eq_false_iff_not] using hle

/-- Where the same documents are, they are collected in the same order. The order in which a
directory lists its entries may have changed, but that of the names has not. -/
theorem collect_eq (hwell : state.tree.WellFormed) (hlater : later.tree.WellFormed)
    (hdirectory : state.tree.isDirectory directory = true)
    (hdirectoryLater : later.tree.isDirectory directory = true)
    (hsame : ∀ way, IsDocument later.tree extension recursive directory way
      ↔ IsDocument state.tree extension recursive directory way)
    (h : (collect extension recursive directory : ExceptT Failure InMemory _).run state
      = (.ok documents, state)) :
    (collect extension recursive directory : ExceptT Failure InMemory _).run later
      = (.ok documents, later) := by
  obtain ⟨found, hfound, hnodup, hmem⟩ := collect_run extension recursive hwell hdirectory
  obtain ⟨again, hagain, hnodupAgain, hmemAgain⟩ :=
    collect_run extension recursive hlater hdirectoryLater
  obtain rfl : documents = found := Except.ok.inj (Prod.mk.inj (h.symm.trans hfound)).1
  -- Both lists have the same members, each of them once, and both are in order.
  have hperm : again.Perm documents := (List.perm_ext_iff_of_nodup hnodupAgain hnodup).2 fun way =>
    (hmemAgain way).trans ((hsame way).trans (hmem way).symm)
  rw [hagain, hperm.eq_of_pairwise (fun _ _ _ _ => List.le_antisymm) (pairwise_of_collect hagain)
    (pairwise_of_collect h)]

end

/-! ### Doing jobs again -/

/-- How far jobs have got that are done again, beside the first time: what was left the first time
is there, and every place is as it was left or as it was when the first time had got as far. -/
structure Again (first last second : FileTree) : Prop where
  /-- What was left is there. -/
  persists : last.Persists second
  /-- Every place is as it was left or as it was at this point. -/
  same : ∀ place, second.get? place = last.get? place ∨ second.get? place = first.get? place

namespace Again

variable {run : RunSettings} {job : Job}
variable {first last second firstAfter secondAfter : FileTree}

/-- A job that is done again makes no directory, and puts the same bytes where it put them. The
directories were made the first time, and what was in the way then is in the way again. -/
theorem step (h : Again first last second) (hnamed : Named job.output)
    (hresult : job.result run second = job.result run first)
    (hfirst : first.Filled (job.files run first) (job.places run first) firstAfter)
    (hsecond : second.Filled (job.files run second) (job.places run second) secondAfter)
    (hlast : firstAfter.Persists last) : Again firstAfter last secondAfter where
  persists := h.persists.trans hsecond.persists
  same place := by
    obtain ⟨above, front, name, hsplits, -⟩ := hnamed
    unfold Job.files Job.places at hfirst hsecond
    rw [hresult] at hsecond
    -- A job without a result changes nothing, neither time.
    cases hok : job.result run first with
    | error failure =>
        simp only [hok] at hfirst hsecond
        rw [hfirst.kept place (by simp) (.inr (by simp)),
          hsecond.kept place (by simp) (.inr (by simp))]
        exact h.same place
    | ok text =>
        simp only [hok] at hfirst hsecond
        have hlater := hlast.trans h.persists
        have hlanding := landing?_eq_of_delivered hfirst hsplits hlater
        have haround := around_eq_of_delivered hfirst hsplits hlater
        rw [hlanding, haround] at hsecond
        -- The result is put at one place, with the same bytes both times.
        by_cases hplace : first.landing? job.output = some place
        · have hfile : (place, text.toUTF8) ∈ (first.landing? job.output).toList.map
              fun place => (place, text.toUTF8) := by simp [hplace]
          exact .inr ((hsecond.written _ hfile).trans (hfirst.written _ hfile).symm)
        have hother : ∀ file ∈ (first.landing? job.output).toList.map
            fun place => (place, text.toUTF8), file.1 ≠ place := by
          intro file hfile
          obtain ⟨other, hlands, rfl⟩ := List.mem_map.1 hfile
          rintro rfl
          exact hplace (Option.mem_toList.1 hlands)
        -- The directories on the way are there, so nothing else changes the second time.
        have hkept : secondAfter.get? place = second.get? place := by
          refine hsecond.kept place hother ?_
          by_cases hmem : place ∈ first.around job.output
          · exact .inl (by simp [directory_of_mem_around hfirst hsplits hlater hmem])
          · exact .inr hmem
        rw [hkept]
        rcases h.same place with hsame | hsame
        · exact .inl hsame
        -- What the first time made a directory of cannot have been as it was before.
        by_cases hmade : first.get? place = none ∧ place ∈ first.around job.output
        · have hthere := directory_of_mem_around hfirst hsplits hlater hmade.2
          rw [hsame, hmade.1] at hthere
          cases hthere
        · refine .inr (hsame.trans (hfirst.kept place hother ?_).symm)
          by_cases hnone : first.get? place = none
          · exact .inr fun hmem => hmade ⟨hnone, hmem⟩
          · exact .inl hnone

end Again

/-- What jobs make of a tree does not depend on what they have done already. The jobs need not keep
apart for that: several results may land at one place. -/
structure Steady (run : RunSettings) (tree : FileTree) (written : Location → Prop)
    (jobs : List Job) : Prop where
  /-- Results have a name. -/
  named : ∀ job ∈ jobs, Named job.output
  /-- Results land only where new bytes may come. -/
  lands : ∀ job ∈ jobs, ∀ place, tree.landing? job.output = some place → written place
  /-- Results are the same whatever new bytes came there. -/
  result : ∀ job ∈ jobs, ∀ after, tree.Grows written after →
    job.result run after = job.result run tree

section
variable {run : RunSettings} {tree : FileTree} {written : Location → Prop} {jobs : List Job}

/-- Some of the jobs are as steady as all of them. -/
theorem Steady.of_subset {order : List Job} (h : Steady run tree written jobs)
    (horder : order ⊆ jobs) : Steady run tree written order where
  named job hjob := h.named job (horder hjob)
  lands job hjob := h.lands job (horder hjob)
  result job hjob := h.result job (horder hjob)

/-- Jobs of this kind bring new bytes to the allowed places only, as often as they are done. -/
theorem Steady.keeps_grown (h : Steady run tree written jobs) :
    Keeps (Grown tree written) (runJobs run jobs : InMemory _) :=
  .runJobs fun job hjob => keeps_grown_run run (h.named job hjob) (h.lands job hjob)

/-- Jobs take nothing away, except that a file may give way to a result. -/
theorem persists_runJobs (run : RunSettings) (hnamed : ∀ job ∈ jobs, Named job.output)
    {state : HostState} (hground : state.tree.Grounded) :
    state.tree.Persists ((runJobs run jobs : InMemory _) state).2.tree := by
  have hkeeps : Keeps (Grown state.tree fun _ => True) (runJobs run jobs : InMemory _) :=
    .runJobs fun job hjob => keeps_grown_run run (hnamed job hjob) fun _ _ => trivial
  exact (hkeeps state (.refl hground)).toPersists

/-- Jobs that are done again leave every place as the first time left it. The induction is on the
jobs, with the tree that the first time left fixed. -/
theorem runJobs_again (h : Steady run tree written jobs) {first second : HostState}
    (hfirst : Grown tree written first.tree) (hsecond : Grown tree written second.tree)
    (hagain : Again first.tree ((runJobs run jobs : InMemory _) first).2.tree second.tree)
    (place : Location) :
    ((runJobs run jobs : InMemory _) second).2.tree.get? place
      = ((runJobs run jobs : InMemory _) first).2.tree.get? place := by
  -- Both runs take one step at a time; `Again` holds between any two states that they reach.
  induction jobs generalizing first second with
  | nil => exact (hagain.same place).elim id id
  | cons job rest ih =>
      obtain ⟨firstNext, hfirstTree, hfirstRest⟩ := exists_runJobs_cons run job rest first
      obtain ⟨secondNext, hsecondTree, hsecondRest⟩ := exists_runJobs_cons run job rest second
      have hnamed := h.named job List.mem_cons_self
      have hrest := h.of_subset (List.subset_cons_self job rest)
      have hkeeps := keeps_grown_run run hnamed (h.lands job List.mem_cons_self)
      have hfirstNext := hkeeps first hfirst
      have hsecondNext := hkeeps second hsecond
      rw [← hfirstTree] at hfirstNext
      rw [← hsecondTree] at hsecondNext
      rw [hfirstRest] at hagain
      rw [hfirstRest, hsecondRest]
      refine ih hrest hfirstNext hsecondNext ?_
      -- What is left to show is that `Again` holds behind the first job as it did before it.
      obtain ⟨_, after, hrun, hleaves⟩ := job.run_leaves run first hfirst.grounded hnamed
      obtain ⟨_, again, hrunAgain, hleavesAgain⟩ :=
        job.run_leaves run second hsecond.grounded hnamed
      rw [hrun] at hfirstTree
      rw [hrunAgain] at hsecondTree
      have hresult := h.result job List.mem_cons_self
      have hpersists := persists_runJobs run hrest.named hfirstNext.grounded
      rw [hfirstTree] at hpersists
      rw [hfirstTree, hsecondTree]
      exact hagain.step hnamed
        ((hresult _ hsecond.toGrows).trans (hresult _ hfirst.toGrows).symm)
        hleaves.filled hleavesAgain.filled hpersists

/-- While jobs are done from a tree on, what is at a place stays, and no result lands there. This is
said of every moment between two jobs. -/
def Spared (run : RunSettings) (jobs : List Job) (tree : FileTree) (place : Location) : Prop :=
  ∀ state : HostState, state.tree = tree → ∀ done, done <+: jobs →
    let now := ((runJobs run done : InMemory _) state).2.tree
    now.get? place = tree.get? place ∧ ∀ job ∈ jobs, now.landing? job.output ≠ some place

/-- A file at a place to which no new bytes may come is spared by steady jobs. -/
theorem Steady.spared (h : Steady run tree written jobs) (hground : tree.Grounded)
    {place : Location} {bytes : ByteArray} (hbytes : tree.get? place = some (.file bytes))
    (hplace : ¬ written place) : Spared run jobs tree place := by
  rintro state rfl done hdone
  have hnow := (h.of_subset hdone.subset).keeps_grown state (.refl hground)
  refine ⟨(hnow.get?_file hplace hbytes).trans hbytes.symm, fun job hjob hlands => hplace ?_⟩
  obtain ⟨above, front, name, hsplits, -⟩ := h.named job hjob
  exact h.lands job hjob place (hnow.landing?_eq_some hsplits hlands)

end

/-! ### The jobs for documents -/

section
variable {run : RunSettings} {directory target : Path} {recursive : Bool} {way : List String}
variable {tree : FileTree} {documents : List (List String)}

/-- The jobs for the documents in a directory are steady. Their results may land anywhere but at a
document, so every document is read as it was at first. -/
theorem steady_jobs (target : Path) (hdirectory : tree.isDirectory directory = true)
    (hdocuments : ∀ way ∈ documents, IsDocument tree run.extension recursive directory way) :
    Steady run tree (IsResultPlace tree run recursive directory target)
      (documents.map (jobOf run directory target)) where
  named job hjob := by
    obtain ⟨way, hway, rfl⟩ := List.mem_map.1 hjob
    exact named_jobOf target (hdocuments way hway)
  lands job hjob place hplace := by
    obtain ⟨way, hway, rfl⟩ := List.mem_map.1 hjob
    exact ⟨way, hdocuments way hway, hplace⟩
  result job hjob after h := by
    obtain ⟨way, hway, rfl⟩ := List.mem_map.1 hjob
    exact result_of_grows hdirectory (hdocuments way hway) h

/-- No piece of the path of a result holds a slash if the target has none. The names on the way are
plain, and the extension can be given to a name. -/
theorem unslashed_jobOf (hextension : isExtension run.extension = true)
    (htarget : target.Unslashed)
    (hdocument : IsDocument tree run.extension recursive directory way) :
    (jobOf run directory target way).output.Unslashed := by
  refine htarget.join fun piece hpiece => ?_
  obtain ⟨names, name, rfl, hplain, hname, hresult⟩ := hdocument.exists_concat
  rw [hresult] at hpiece
  rcases List.mem_append.1 hpiece with hpiece | hpiece
  · exact (isPlain_iff.1 (hplain piece hpiece)).2.2
  rw [List.mem_singleton.1 hpiece]
  have hslash := (isPlain_iff.1 (hdocument.plain name (by simp))).2.2
  obtain ⟨stem, found, rfl, hstem, hjson⟩ := hname.parts
  rw [renamed_append hstem (dot_notMem_of_map_toLower hjson) hname.ne_up]
  split
  · decide
  · simp only [isExtension, Bool.not_eq_true', List.contains_eq_mem, decide_eq_false_iff_not]
      at hextension
    simp only [String.toList_append, List.mem_append, not_or] at hslash ⊢
    exact ⟨⟨hslash.1.1, by decide⟩, hextension⟩

end

end Cli

end ImageImports
