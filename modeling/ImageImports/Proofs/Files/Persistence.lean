import ImageImports.Proofs.Files.Directories

/-!
# `ImageImports.Proofs.Files.Persistence`: trees that only grow

The program never takes anything away: files stay files, with other bytes perhaps, and directories
stay directories (`FileTree.Persists`). Paths lead then where they led before (`Persists.locate`),
and a way that is still free was free before and goes the same way (`Persists.trail_eq`).

Where it is known which places may get new bytes, everything else is as it was but for directories
that came where nothing was (`FileTree.Grows`). In contrast to `FileTree.Filled` this says nothing
about the bytes that come there, so changes need not keep apart to follow each other
(`Grows.trans`).
-/

set_option autoImplicit false

namespace ImageImports.FileTree

open ImageImports.Path

/-- What was there is still there: files stay files, with other bytes perhaps, and directories stay
directories. It is all that is needed for a way that led somewhere to lead there still. -/
structure Persists (tree after : FileTree) : Prop where
  /-- The program runs in the same directory. -/
  working : after.workingDirectory = tree.workingDirectory
  /-- Directories stay directories. -/
  directory : ∀ place, tree.get? place = some .directory → after.get? place = some .directory
  /-- Files stay files. -/
  file : ∀ place, tree.isFileAt place = true → after.isFileAt place = true

variable {tree mid after : FileTree} {here place : Location} {path : Path} {pieces : List String}
variable {files : List (Location × ByteArray)} {places : List Location}

/-- No file lies on the way that a path goes. -/
theorem isFileAt_of_mem_route (h : place ∈ (tree.route path).1) : tree.isFileAt place = false := by
  rw [route] at h
  split at h
  · exact isFileAt_of_mem_trail h
  · cases h

/-- Filling places of a tree takes nothing away. -/
theorem Filled.persists (h : tree.Filled files places after) : tree.Persists after where
  working := h.working
  directory _ := h.get?_directory
  file _ := h.isFileAt_of_isFileAt

namespace Persists

/-- A tree persists in itself. -/
theorem refl (tree : FileTree) : tree.Persists tree where
  working := rfl
  directory _ h := h
  file _ h := h

/-- What persists twice persists over both changes. -/
theorem trans (h : tree.Persists mid) (h' : mid.Persists after) : tree.Persists after where
  working := h'.working.trans h.working
  directory place hplace := h'.directory place (h.directory place hplace)
  file place hplace := h'.file place (h.file place hplace)

variable (h : tree.Persists after)
include h

/-- A path starts where it did. -/
theorem start_eq (path : Path) : after.start path = tree.start path := by
  rw [FileTree.start, FileTree.start, h.working]

/-- A walk that leads somewhere still leads there: the directories it goes through are kept. -/
theorem walk (hwalk : tree.walk here pieces = .ok place) : after.walk here pieces = .ok place := by
  induction pieces generalizing here with
  | nil => exact hwalk
  | cons piece rest ih =>
      rw [FileTree.walk] at hwalk ⊢
      cases hget : tree.get? here with
      | none => simp [step, hget] at hwalk
      | some entry =>
          cases entry with
          | file bytes => simp [step, hget] at hwalk
          | directory =>
              rw [step_of_directory (h.directory _ hget)]
              rw [step_of_directory hget] at hwalk
              split at hwalk
              · cases hwalk
              · exact ih hwalk

/-- A path that led somewhere still leads there. -/
theorem locate (hlocate : tree.locate path = .ok place) : after.locate path = .ok place := by
  rw [FileTree.locate] at hlocate ⊢
  split at hlocate
  · cases hlocate
  · rw [h.start_eq]
    exact h.walk hlocate

/-- A path that led to a file still leads to one. -/
theorem isFile (hfile : tree.isFile path = true) :
    after.isFile path = true := by
  obtain ⟨place, hlocate, hplace⟩ := isFile_iff.1 hfile
  exact isFile_iff.2 ⟨place, h.locate hlocate, h.file _ hplace⟩

/-- A path that led to a directory still leads to one. -/
theorem isDirectory (hdirectory : tree.isDirectory path = true) :
    after.isDirectory path = true := by
  obtain ⟨here, hlocate, hhere⟩ := isDirectory_iff.1 hdirectory
  exact isDirectory_iff.2 ⟨here, h.locate hlocate, h.directory _ hhere⟩

/-- A way that is free was free before: no file has gone, so nothing that barred the way can have
made room. -/
theorem trail_eq (hlast : (after.trail here pieces).2 = some place) :
    tree.trail here pieces = after.trail here pieces := by
  induction pieces generalizing here with
  | nil => rfl
  | cons piece rest ih =>
      rw [trail] at hlast
      simp only [trail]
      split
      · rename_i hvoid
        rw [if_pos hvoid] at hlast
        exact ih hlast
      rename_i hvoid
      rw [if_neg hvoid] at hlast
      split
      · rename_i hup
        rw [if_pos hup] at hlast
        exact ih hlast
      rename_i hup
      rw [if_neg hup] at hlast
      split at hlast
      · cases hlast
      -- A file that was in the way before would still be there.
      rename_i hfree
      have hbefore : ¬ (decide (nameLimit < piece.utf8ByteSize)
          || tree.isFileAt (here ++ [piece])) = true := by
        rw [Bool.or_eq_true]
        rintro (hlong | hfile)
        · exact hfree (by rw [hlong, Bool.true_or])
        · exact hfree (by rw [h.file _ hfile, Bool.or_true])
      rw [if_neg hfree, if_neg hbefore, ih hlast]

/-- A route that is free was free before, and the same. -/
theorem route_eq (hlast : (after.route path).2 = some place) :
    tree.route path = after.route path := by
  rw [route] at hlast
  rw [route, route]
  split
  · rename_i htext
    rw [if_pos htext] at hlast
    rw [← h.start_eq]
    exact h.trail_eq hlast
  · rfl

/-- A way on which no file has come is the same. -/
theorem route_congr (hfree : ∀ place ∈ (tree.route path).1, after.isFileAt place = false) :
    after.route path = tree.route path := by
  rw [route] at hfree
  rw [route, route]
  split
  · rename_i htext
    rw [if_pos htext] at hfree
    rw [h.start_eq]
    exact trail_congr h.file hfree
  · rfl

end Persists

/-- Nothing has changed but that directories came where nothing was, and new bytes to some places.
Which places these are is left open, so that several jobs can share one description. -/
structure Grows (tree : FileTree) (written : Location → Prop) (after : FileTree) : Prop
    extends tree.Persists after where
  /-- Other places are as before, or there is a directory where nothing was. -/
  kept : ∀ place, ¬ written place → after.get? place = tree.get? place
    ∨ tree.get? place = none ∧ after.get? place = some .directory

variable {written : Location → Prop}

/-- Filling places of a tree grows it if the files go to the allowed places. -/
theorem Filled.grows (h : tree.Filled files places after)
    (hfiles : ∀ file ∈ files, written file.1) : tree.Grows written after where
  toPersists := h.persists
  kept place hplace := by
    have hother : ∀ file ∈ files, file.1 ≠ place := by
      rintro file hfile rfl
      exact hplace (hfiles file hfile)
    by_cases hmade : tree.get? place = none ∧ place ∈ places
    · exact .inr ⟨hmade.1, h.made place hmade.2 hmade.1⟩
    · refine .inl (h.kept place hother ?_)
      by_cases hnone : tree.get? place = none
      · exact .inr fun hmem => hmade ⟨hnone, hmem⟩
      · exact .inl hnone

namespace Grows

/-- A tree has grown from itself. -/
theorem refl (tree : FileTree) (written : Location → Prop) : tree.Grows written tree where
  toPersists := .refl tree
  kept _ _ := .inl rfl

/-- What has grown twice has grown, if the places for new bytes are the same. -/
theorem trans (h : tree.Grows written mid) (h' : mid.Grows written after) :
    tree.Grows written after where
  toPersists := h.toPersists.trans h'.toPersists
  kept place hplace := by
    rcases h'.kept place hplace with hsame | ⟨hnone, hdirectory⟩
    · rw [hsame]
      exact h.kept place hplace
    · rcases h.kept place hplace with hsame | ⟨-, hmade⟩
      · exact .inr ⟨hsame ▸ hnone, hdirectory⟩
      · rw [hmade] at hnone
        cases hnone

variable (h : tree.Grows written after) (hplace : ¬ written place)
include h hplace

/-- A file at a place to which no new bytes come keeps its bytes. -/
theorem get?_file {bytes : ByteArray} (hbytes : tree.get? place = some (.file bytes)) :
    after.get? place = some (.file bytes) := by
  rcases h.kept place hplace with hsame | ⟨hnone, -⟩
  · rw [hsame, hbytes]
  · rw [hbytes] at hnone
    cases hnone

/-- At a place to which no new bytes come there is a file exactly if there was one. -/
theorem isFileAt_eq : after.isFileAt place = tree.isFileAt place := by
  rcases h.kept place hplace with hsame | ⟨hnone, hdirectory⟩
  · rw [FileTree.isFileAt, FileTree.isFileAt, hsame]
  · rw [FileTree.isFileAt, FileTree.isFileAt, hnone, hdirectory]

/-- A file to which no new bytes come keeps its text. -/
theorem read_eq {bytes : ByteArray} (hlocate : tree.locate path = .ok place)
    (hbytes : tree.get? place = some (.file bytes)) : after.read path = tree.read path := by
  rw [read, read, hlocate, h.locate hlocate]
  simp only [h.get?_file hplace hbytes, hbytes]

end Grows

end ImageImports.FileTree
