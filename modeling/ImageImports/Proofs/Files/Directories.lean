import ImageImports.Proofs.Files.Path
import ImageImports.Proofs.Files.Trail

/-!
# `ImageImports.Proofs.Files.Directories`: what the operations on a tree change

The operations put files at some locations and make directories at others where nothing was, and
leave everything else as it is (`FileTree.Filled`). Such changes can follow each other as long as
they keep apart (`Filled.trans`), and what is where afterwards depends only on what they are
(`Filled.get?_eq`).

A directory is made at the end of a path, or is there already, if nothing is missing on the way to
it (`enter_of_there`); if something is, making it fails in a way that says so
(`makeDirectory_of_missing`). The route of a path tells which directories the way to it takes.
-/

set_option autoImplicit false

namespace ImageImports.FileTree

open ImageImports.Path

/-! ### What changes -/

/-- Files with some bytes are at some locations, there are directories at others where nothing was,
and nothing else has changed. This says completely what the tree is afterwards. -/
structure Filled (tree : FileTree) (files : List (Location × ByteArray)) (places : List Location)
    (after : FileTree) : Prop where
  /-- The program runs in the same directory. -/
  working : after.workingDirectory = tree.workingDirectory
  /-- No directory gave way to a file. -/
  free : ∀ file ∈ files, tree.get? file.1 ≠ some .directory
  /-- The files are there. -/
  written : ∀ file ∈ files, after.get? file.1 = some (.file file.2)
  /-- Where nothing was, there is a directory. -/
  made : ∀ place ∈ places, tree.get? place = none → after.get? place = some .directory
  /-- What was there is there, and nothing came elsewhere. -/
  kept : ∀ place, (∀ file ∈ files, file.1 ≠ place) → tree.get? place ≠ none ∨ place ∉ places →
    after.get? place = tree.get? place

namespace Filled

variable {tree mid after : FileTree} {files more : List (Location × ByteArray)}
variable {places others : List Location} {place : Location}

/-- Nothing has changed if no file is put and all directories were there. -/
theorem refl (h : ∀ place ∈ places, tree.get? place ≠ none) : tree.Filled [] places tree where
  working := rfl
  free _ hfile := by cases hfile
  written _ hfile := by cases hfile
  made place hplace hnone := absurd hnone (h place hplace)
  kept _ _ _ := rfl

/-- Only the files and locations count that are there, not how they are listed. -/
theorem congr (h : tree.Filled files places after) (hfiles : ∀ file, file ∈ more ↔ file ∈ files)
    (hplaces : ∀ place, place ∈ others ↔ place ∈ places) : tree.Filled more others after where
  working := h.working
  free file hfile := h.free file ((hfiles file).1 hfile)
  written file hfile := h.written file ((hfiles file).1 hfile)
  made place hplace := h.made place ((hplaces place).1 hplace)
  kept place hother hplace := h.kept place (fun file hfile => hother file ((hfiles file).2 hfile))
    (hplace.imp_right fun hnot hmem => hnot ((hplaces place).2 hmem))

/-- Changes follow each other if the later ones put no file where the earlier ones put anything, and
make no directory where the earlier ones put a file. -/
theorem trans (h : tree.Filled files places mid) (h' : mid.Filled more others after)
    (hfiles : ∀ file ∈ more, (∀ other ∈ files, other.1 ≠ file.1) ∧ file.1 ∉ places)
    (hplaces : ∀ place ∈ others, ∀ file ∈ files, file.1 ≠ place) :
    tree.Filled (files ++ more) (places ++ others) after where
  working := h'.working.trans h.working
  free file hfile hdirectory := by
    rcases List.mem_append.1 hfile with hfile | hfile
    · exact h.free file hfile hdirectory
    -- No earlier change has touched the place of a later file, so it is as free as it was.
    · have hkept := h.kept file.1 (hfiles file hfile).1 (.inr (hfiles file hfile).2)
      exact h'.free file hfile (by rw [hkept, hdirectory])
  written file hfile := by
    rcases List.mem_append.1 hfile with hfile | hfile
    · have hthere := h.written file hfile
      rw [h'.kept file.1 (fun other hother heq => (hfiles other hother).1 file hfile heq.symm)
        (.inl (by simp [hthere])), hthere]
    · exact h'.written file hfile
  made place hplace hnone := by
    -- A directory of both is made by the earlier changes, and the later ones find it there.
    by_cases hearlier : place ∈ places
    · have hthere := h.made place hearlier hnone
      rw [h'.kept place (fun other hother heq => (hfiles other hother).2 (heq ▸ hearlier))
        (.inl (by simp [hthere])), hthere]
    · have hlater := (List.mem_append.1 hplace).resolve_left hearlier
      refine h'.made place hlater ?_
      rw [h.kept place (hplaces place hlater) (.inr hearlier), hnone]
  kept place hother hplace := by
    have hmid : mid.get? place = tree.get? place :=
      h.kept place (fun file hfile => hother file (List.mem_append_left _ hfile))
        (hplace.imp_right fun hnot hmem => hnot (List.mem_append_left _ hmem))
    rw [h'.kept place (fun file hfile => hother file (List.mem_append_right _ hfile))
      (hplace.imp (by rw [hmid]; exact id) fun hnot hmem => hnot (List.mem_append_right _ hmem)),
      hmid]

/-- Something is at each of the locations that are to be directories. -/
theorem there (h : tree.Filled files places after) :
    ∀ place ∈ places, after.get? place ≠ none := by
  intro place hplace
  by_cases hfile : ∃ file ∈ files, file.1 = place
  · obtain ⟨file, hfile, rfl⟩ := hfile
    simp [h.written file hfile]
  have hother : ∀ file ∈ files, file.1 ≠ place := fun file hmem heq => hfile ⟨file, hmem, heq⟩
  by_cases hnone : tree.get? place = none
  · simp [h.made place hplace hnone]
  · rwa [h.kept place hother (.inl hnone)]

/-- A file that was there still is one, with other bytes perhaps. -/
theorem isFileAt_of_isFileAt (h : tree.Filled files places after)
    (hfile : tree.isFileAt place = true) : after.isFileAt place = true := by
  by_cases hnew : ∃ file ∈ files, file.1 = place
  · obtain ⟨file, hmem, rfl⟩ := hnew
    exact isFileAt_iff.2 ⟨file.2, h.written file hmem⟩
  · obtain ⟨bytes, hbytes⟩ := isFileAt_iff.1 hfile
    refine isFileAt_iff.2 ⟨bytes, ?_⟩
    rw [h.kept place (fun file hmem heq => hnew ⟨file, hmem, heq⟩) (.inl (by simp [hbytes])),
      hbytes]

/-- No file comes to a location where none is put. -/
theorem isFileAt_eq_false (h : tree.Filled files places after)
    (hother : ∀ file ∈ files, file.1 ≠ place) (hfile : tree.isFileAt place = false) :
    after.isFileAt place = false := by
  by_cases hmade : tree.get? place = none ∧ place ∈ places
  · exact isFileAt_eq_false_iff.2 (.inr (h.made place hmade.2 hmade.1))
  · have hkept := h.kept place hother (by by_cases hnone : tree.get? place = none <;> simp_all)
    rwa [FileTree.isFileAt, hkept]

/-- A trail on which no file is put stays the same. Directories that are made on it were counted
before as missing ones. -/
theorem trail (h : tree.Filled files places after) {here : Location} {pieces : List String}
    (hother : ∀ place ∈ (tree.trail here pieces).1, ∀ file ∈ files, file.1 ≠ place) :
    after.trail here pieces = tree.trail here pieces :=
  trail_congr (fun _ => h.isFileAt_of_isFileAt) fun place hplace =>
    h.isFileAt_eq_false (hother place hplace) (isFileAt_of_mem_trail hplace)

/-- A path starts where it did. -/
theorem start (h : tree.Filled files places after) (path : Path) :
    after.start path = tree.start path := by
  rw [FileTree.start, FileTree.start, h.working]

/-- A directory stays one: no file takes its place. -/
theorem get?_directory (h : tree.Filled files places after)
    (hplace : tree.get? place = some .directory) : after.get? place = some .directory := by
  rw [h.kept place (fun file hfile heq => h.free file hfile (heq ▸ hplace))
    (.inl (by simp [hplace])), hplace]

/-- The changes tell what is where afterwards. -/
theorem get?_eq {other : FileTree} (h : tree.Filled files places after)
    (h' : tree.Filled files places other) (place : Location) :
    after.get? place = other.get? place := by
  by_cases hfile : ∃ file ∈ files, file.1 = place
  · obtain ⟨file, hmem, rfl⟩ := hfile
    rw [h.written file hmem, h'.written file hmem]
  have hother : ∀ file ∈ files, file.1 ≠ place := fun file hmem heq => hfile ⟨file, hmem, heq⟩
  by_cases hmade : tree.get? place = none ∧ place ∈ places
  · rw [h.made place hmade.2 hmade.1, h'.made place hmade.2 hmade.1]
  · have hkept : tree.get? place ≠ none ∨ place ∉ places := by
      by_cases hnone : tree.get? place = none <;> simp_all
    rw [h.kept place hother hkept, h'.kept place hother hkept]

end Filled

/-- There are directories at some locations where nothing was, and nothing else has changed. -/
def Made (tree : FileTree) (places : List Location) (after : FileTree) : Prop :=
  tree.Filled [] places after

namespace Made

variable {tree mid after : FileTree} {places more : List Location}

/-- Nothing has changed if all directories were there. -/
theorem refl (h : ∀ place ∈ places, tree.get? place ≠ none) : tree.Made places tree := Filled.refl h

/-- Directories that are made in two turns are made together. -/
theorem trans (h : tree.Made places mid) (h' : mid.Made more after)
    (hsub : ∀ place ∈ places, place ∈ more) : tree.Made more after := by
  refine (Filled.trans h h' (by simp) (by simp)).congr (by simp) fun place => ?_
  exact ⟨List.mem_append_right _, fun hplace => (List.mem_append.1 hplace).elim (hsub place) id⟩

/-- Making a directory behind others adds it to them. -/
theorem put (hkept : ∀ place ∈ places, tree.get? place ≠ none) {place : Location}
    (hne : place ≠ []) (hnone : tree.get? place = none) :
    tree.Made (places ++ [place]) (tree.put place .directory) where
  working := rfl
  free _ hfile := by cases hfile
  written _ hfile := by cases hfile
  made other hother hothernone := by
    rw [get?_put _ _ _ _ hne]
    split
    · rfl
    · rename_i hnot
      exact absurd hothernone (hkept other (by simpa [hnot] using hother))
  kept other _ hother := by
    rw [get?_put _ _ _ _ hne, if_neg]
    rintro rfl
    exact hother.elim (· hnone) (· (by simp))

/-- Making directories does not change where a trail leads. -/
theorem trail (h : tree.Made places after) (here : Location) (pieces : List String) :
    after.trail here pieces = tree.trail here pieces :=
  Filled.trail h fun _ _ _ hfile => by cases hfile

end Made

/-! ### Making one directory -/

variable {tree : FileTree} {path above : Path} {front : List String} {name : String}
variable {here : Location}

/-- A path and the path around it start at the same place. -/
theorem start_eq_of_splits (h : path.Splits above front name) :
    tree.start above = tree.start path := by
  rw [start, start, h.absolute]

/-- The trail of a path goes on where that of its parent ends. -/
theorem trail_parent (h : path.Splits above front name) (here : Location) :
    tree.trail here above.steps = tree.trail here front := by
  rw [← trail_filter, show above.steps.filter (fun piece => !isVoid piece) = telling above.steps
    from rfl, h.around]
  exact trail_filter tree here front

/-- What is found at the end of a path depends on the walk along its steps. -/
theorem locateNew_of_splits (tree : FileTree) (h : path.Splits above front name)
    (hfault : textFault? path = none) :
    tree.locateNew path
      = match tree.walk (tree.start path) (front ++ [name]) with
        | .error cause => .error cause
        | .ok location => .ok (if isVoid name || name = ".." then none else some location) := by
  have hpieces : withoutEndSlashes path.steps = front ++ [name] := by
    rw [h.steps]
    exact List.rdropWhile_concat_neg _ _ _ (by simpa using h.named)
  rw [locateNew, hfault]
  cases hwalk : tree.walk (tree.start path) (front ++ [name]) <;> simp [hpieces, hwalk]

/-- Where a path leads is told by the walk along its steps. -/
theorem locate_of_splits (tree : FileTree) (h : path.Splits above front name)
    (hfault : textFault? path = none) :
    tree.locate path = tree.walk (tree.start path) (front ++ [name]) := by
  rw [locate, hfault, h.steps]

section
variable (hground : tree.Grounded) (hsplits : path.Splits above front name)
  (hfault : textFault? path = none)
include hground hsplits hfault

/-- If a directory on the way is missing, then making one is refused for that. It is the one failure
after which the directory around it is made first. -/
theorem makeDirectory_of_missing
    (hmissing : ∃ place ∈ (tree.trail (tree.start path) front).1, tree.get? place = none) :
    tree.makeDirectory path = .error .notFound := by
  rw [makeDirectory, locateNew_of_splits tree hsplits hfault,
    walk_of_missing hground (hground.start path) hmissing (by simp)]

variable (hthere : ∀ place ∈ (tree.trail (tree.start path) front).1, tree.get? place ≠ none)
include hthere

/-- If the way is blocked by a file or a name that is too long, then making a directory is refused,
and not for anything missing. -/
theorem makeDirectory_of_blocked (hlast : (tree.trail (tree.start path) front).2 = none) :
    tree.makeDirectory path = .error .notADirectory
      ∨ tree.makeDirectory path = .error .nameTooLong := by
  rw [makeDirectory, locateNew_of_splits tree hsplits hfault]
  have hwalk := walk_of_trail_none hground (hground.start path) hthere hlast
    (List.cons_ne_nil name [])
  exact hwalk.imp (fun h => by rw [h]) (fun h => by rw [h])

end

/-- The walk to a path whose parent is there takes one step more than the walk to the parent. -/
theorem walk_of_there (name : String) (hground : tree.Grounded)
    (hthere : ∀ place ∈ (tree.trail (tree.start path) front).1, tree.get? place ≠ none)
    (hlast : (tree.trail (tree.start path) front).2 = some here) :
    tree.walk (tree.start path) (front ++ [name]) = tree.step here name
      ∧ tree.get? here = some .directory := by
  obtain ⟨hwalk, hdirectory⟩ := walk_of_trail_some hground (hground.start path) hthere hlast
  refine ⟨?_, hdirectory⟩
  rw [walk_append, hwalk]
  simp only [walk]
  cases tree.step here name <;> rfl

/-- The tree after a directory was made, which may have been there before. This is what one level of
`create_dir_all` asks for. -/
def enter (tree : FileTree) (path : Path) : Except FileError FileTree :=
  match tree.makeDirectory path with
  | .error .alreadyExists =>
      if tree.isDirectory path then .ok tree else .error .alreadyExists
  | outcome => outcome

/-! ### Routes -/

/-- The trail of a path, unless its text names nothing. No text at all names the directory in which
the way starts. -/
def route (tree : FileTree) (path : Path) : List Location × Option Location :=
  if path.isEmpty || (textFault? path).isNone then tree.trail (tree.start path) path.steps
  else ([], none)

/-- The route of a path whose text names something is its trail. -/
theorem route_of_fault (h : textFault? path = none) :
    tree.route path = tree.trail (tree.start path) path.steps := by
  rw [route, h]
  simp

/-- If the text of a path names something, then so does any text in front of it but the empty
one. -/
theorem textFault?_eq_none_of_text {rest : String} (htext : path.text = above.text ++ rest)
    (hempty : above.isEmpty = false) (hfault : textFault? path = none) :
    textFault? above = none := by
  simp only [textFault?] at hfault ⊢
  split at hfault
  · cases hfault
  split at hfault
  · cases hfault
  split at hfault
  · cases hfault
  rename_i hzero hlong
  simp only [htext, String.toList_append, List.contains_eq_mem, List.mem_append,
    String.utf8ByteSize_append, decide_eq_true_eq] at hzero hlong
  rw [if_neg (by simp [hempty]), if_neg (by simpa using fun hmem => hzero (.inl hmem)),
    if_neg (by omega)]

/-- The route of the path around a path is the trail of the steps in front of the last one. -/
theorem route_of_splits (tree : FileTree) (h : path.Splits above front name)
    (hfault : textFault? path = none) :
    tree.route above = tree.trail (tree.start path) front := by
  have hroute : tree.route above = tree.trail (tree.start above) above.steps := by
    cases hempty : above.isEmpty with
    | true =>
        rw [route, hempty]
        rfl
    | false =>
        obtain ⟨rest, htext⟩ := h.text
        exact route_of_fault (textFault?_eq_none_of_text htext hempty hfault)
  rw [hroute, start_eq_of_splits h, trail_parent h]

/-- A route goes no other way than the trail of the steps in front of the last one. -/
theorem mem_trail_of_mem_route (h : path.Splits above front name) {place : Location}
    (hplace : place ∈ (tree.route above).1) : place ∈ (tree.trail (tree.start path) front).1 := by
  rw [route] at hplace
  split at hplace
  · rwa [start_eq_of_splits h, trail_parent h] at hplace
  · cases hplace

/-- Directories are made along the route of a path, and the request for it succeeds if the route has
an end. Those in front of what blocks the route are made also if it fails. -/
structure Entered (tree : FileTree) (path : Path) (success : Bool) (after : FileTree) : Prop where
  /-- Directories are made along the route. -/
  made : tree.Made (tree.route path).1 after
  /-- Everything lies in a directory again. -/
  grounded : after.Grounded
  /-- The request succeeds if nothing is in the way. -/
  success_eq : success = (tree.route path).2.isSome

/-- The directories on the way to a path are those on the way to its parent and the one at its end,
unless that is a step up. -/
theorem route_of_last (hsplits : path.Splits above front name) (hfault : textFault? path = none)
    (hlast : (tree.trail (tree.start path) front).2 = some here) :
    tree.route path
      = ((tree.trail (tree.start path) front).1 ++ (tree.trail here [name]).1,
        (tree.trail here [name]).2) := by
  rw [route_of_fault hfault, hsplits.steps, trail_append, hlast]

/-- Where the way to the parent of a path is blocked, the way to the path is. -/
theorem route_of_blocked (hsplits : path.Splits above front name) (hfault : textFault? path = none)
    (hlast : (tree.trail (tree.start path) front).2 = none) :
    tree.route path = ((tree.trail (tree.start path) front).1, none) := by
  rw [route_of_fault hfault, hsplits.steps, trail_append, hlast]

/-- Nothing is made where everything on the route is there. -/
theorem entered_self {success : Bool} (hground : tree.Grounded)
    (hthere : ∀ place ∈ (tree.route path).1, tree.get? place ≠ none)
    (hsuccess : success = (tree.route path).2.isSome) : tree.Entered path success tree :=
  ⟨Made.refl hthere, hground, hsuccess⟩

/-- From a directory that is there, the last step to a path leads to a directory that is there or is
made, or it fails, and not for anything missing. -/
theorem enter_of_last (hground : tree.Grounded) (hsplits : path.Splits above front name)
    (hfault : textFault? path = none)
    (hthere : ∀ place ∈ (tree.trail (tree.start path) front).1, tree.get? place ≠ none)
    (hlast : (tree.trail (tree.start path) front).2 = some here) :
    (∃ after, tree.enter path = .ok after ∧ tree.Entered path true after)
      ∨ ∃ cause, tree.enter path = .error cause ∧ cause ≠ .notFound
        ∧ tree.Entered path false tree := by
  obtain ⟨hwalk, hdirectory⟩ := walk_of_there name hground hthere hlast
  have hroute := route_of_last hsplits hfault hlast
  have hlocate := locate_of_splits tree hsplits hfault
  have hnew := locateNew_of_splits tree hsplits hfault
  rw [hwalk, step_of_directory hdirectory] at hlocate hnew
  have hkept {success : Bool}
      (hdirs : ∀ place ∈ (tree.trail here [name]).1, tree.get? place ≠ none)
      (hsuccess : success = (tree.trail here [name]).2.isSome) :
      tree.Entered path success tree := by
    refine entered_self hground ?_ (by rw [hroute, hsuccess])
    rw [hroute]
    exact fun place hplace => (List.mem_append.1 hplace).elim (hthere place) (hdirs place)
  -- The cases are those in which a step is taken; a name that is none yet is the only one in which
  -- anything changes.
  by_cases hvoid : isVoid name = true
  · -- A step that says nothing leads to the directory that the parent is.
    simp only [hvoid, if_true] at hlocate hnew
    refine .inl ⟨tree, ?_, hkept (by simp [trail, hvoid]) (by simp [trail, hvoid])⟩
    simp [enter, makeDirectory, hnew, isDirectory, lookup?, hlocate, hdirectory]
  rw [Bool.not_eq_true] at hvoid
  by_cases hup : name = ".."
  · -- A step up leads to a directory because everything lies in one.
    subst hup
    simp only [hvoid, Bool.false_eq_true, if_false, if_true] at hlocate hnew
    refine .inl ⟨tree, ?_, hkept (by simp [trail, hvoid]) (by simp [trail, hvoid])⟩
    simp [enter, makeDirectory, hnew, isDirectory, lookup?, hlocate, hground.dropLast hdirectory]
  simp only [hvoid, hup, Bool.false_eq_true, if_false] at hlocate hnew
  by_cases hlong : nameLimit < name.utf8ByteSize
  · refine .inr ⟨.nameTooLong, ?_, by simp, hkept (by simp [trail, hvoid, hup, hlong])
      (by simp [trail, hvoid, hup, hlong])⟩
    simp [enter, makeDirectory, hnew, hlong]
  simp only [hlong, if_false] at hlocate hnew
  cases hget : tree.get? (here ++ [name]) with
  | none =>
      have hfile : tree.isFileAt (here ++ [name]) = false := isFileAt_eq_false_iff.2 (.inl hget)
      have hend : tree.trail here [name] = ([here ++ [name]], some (here ++ [name])) := by
        simp [trail, hvoid, hup, hlong, hfile]
      refine .inl ⟨tree.put (here ++ [name]) .directory, ?_, ?_, ?_, ?_⟩
      · simp [enter, makeDirectory, hnew, hget]
      · rw [hroute, hend]
        exact Made.put hthere (by simp) hget
      · exact hground.put hdirectory (.inr rfl)
      · rw [hroute, hend]
        rfl
  | some entry =>
      cases entry with
      | file bytes =>
          -- The request finds something there and looks what it is.
          have hfile : tree.isFileAt (here ++ [name]) = true := isFileAt_iff.2 ⟨bytes, hget⟩
          refine .inr ⟨.alreadyExists, ?_, by simp, hkept (by simp [trail, hvoid, hup, hfile])
            (by simp [trail, hvoid, hup, hfile])⟩
          simp [enter, makeDirectory, hnew, isDirectory, lookup?, hlocate, hget]
      | directory =>
          have hfile : tree.isFileAt (here ++ [name]) = false := isFileAt_eq_false_iff.2 (.inr hget)
          refine .inl ⟨tree, ?_, hkept (by simp [trail, hvoid, hup, hlong, hfile, hget])
            (by simp [trail, hvoid, hup, hlong, hfile])⟩
          simp [enter, makeDirectory, hnew, isDirectory, lookup?, hlocate, hget]

/-- Where nothing is missing on the way to a path, the path is entered or not, with a failure that
is not for anything missing. -/
theorem enter_of_there (hground : tree.Grounded) (hsplits : path.Splits above front name)
    (hfault : textFault? path = none)
    (hthere : ∀ place ∈ (tree.trail (tree.start path) front).1, tree.get? place ≠ none) :
    (∃ after, tree.enter path = .ok after ∧ tree.Entered path true after)
      ∨ ∃ cause, tree.enter path = .error cause ∧ cause ≠ .notFound
        ∧ tree.Entered path false tree := by
  cases hlast : (tree.trail (tree.start path) front).2 with
  | some here => exact enter_of_last hground hsplits hfault hthere hlast
  | none =>
      have hroute := route_of_blocked hsplits hfault hlast
      have hentered : tree.Entered path false tree :=
        entered_self hground (by rwa [hroute]) (by rw [hroute]; rfl)
      right
      rcases makeDirectory_of_blocked hground hsplits hfault hthere hlast with h | h <;>
        exact ⟨_, by rw [enter, h], by simp, hentered⟩

end ImageImports.FileTree
