import ImageImports.Proofs.Files.Persistence

/-!
# `ImageImports.Proofs.Files.Landing`: where a file comes to lie

A file that is written to a path after the directories on the way to it have been made comes to lie
at one location (`FileTree.landing?`), or nowhere if something is in the way. Which directories are
made and where the file lands is told by the tree as it was before (`FileTree.Delivered`), and it
stays the same whatever is put elsewhere (`Filled.around_eq`, `Filled.landing?_eq`).
-/

set_option autoImplicit false

namespace ImageImports.FileTree

open ImageImports.Path

/-! ### The place of a file -/

/-- Whether there is a directory at a location. -/
def isDirectoryAt (tree : FileTree) (location : Location) : Bool :=
  match tree.get? location with
  | some .directory => true
  | _ => false

/-- Whether a name can be that of an entry. -/
def isName (name : String) : Bool :=
  !isVoid name && name ≠ ".." && name.utf8ByteSize ≤ nameLimit

/-- The directories on the way to what a path names, missing ones included. -/
def around (tree : FileTree) (path : Path) : List Location :=
  match path.parent? with
  | some above => (tree.route above).1
  | none => []

/-- Where a file comes to lie that is written to a path after the directories on the way to it have
been made, if nothing is in the way: the text of the path names something, the way to it has an end,
its last piece is a name, and no directory is there or comes there on the way. -/
def landing? (tree : FileTree) (path : Path) : Option Location :=
  match path.parent?, path.pieces.getLast? with
  | some above, some name =>
      match (tree.route above).2 with
      | some here =>
          if (textFault? path).isNone && isName name
              && !(tree.around path).contains (here ++ [name])
              && !tree.isDirectoryAt (here ++ [name]) then
            some (here ++ [name])
          else none
      | none => none
  | _, _ => none

/-- There is a directory at a location exactly if the tree has one there. -/
theorem isDirectoryAt_iff {tree : FileTree} {place : Location} :
    tree.isDirectoryAt place = true ↔ tree.get? place = some .directory := by
  unfold isDirectoryAt
  cases tree.get? place with
  | none => simp
  | some entry => cases entry <;> simp

/-- What the name of an entry is, taken apart into the three conditions. -/
theorem isName_iff {name : String} :
    isName name = true ↔ isVoid name = false ∧ name ≠ ".." ∧ name.utf8ByteSize ≤ nameLimit := by
  simp [isName, and_assoc]

variable {tree mid after : FileTree} {path above : Path} {front : List String} {name : String}
variable {place : Location} {files : List (Location × ByteArray)} {places : List Location}

/-- The last piece of a path with a last step is that step. -/
theorem getLast?_of_splits (h : path.Splits above front name) :
    path.pieces.getLast? = some name := by
  have hsteps := h.steps
  rw [Path.steps] at hsteps
  split at hsteps
  · rw [← List.take_append_drop 1 path.pieces, hsteps, ← List.append_assoc,
      List.getLast?_append_cons, List.getLast?_singleton]
  · rw [hsteps, List.getLast?_append_cons, List.getLast?_singleton]

/-- The directories on the way to what a path names are those on the route of the path around it. -/
theorem around_of_splits (h : path.Splits above front name) :
    tree.around path = (tree.route above).1 := by
  rw [around, h.parent]

/-- A file lands at the end of the route of the path around it. -/
theorem landing?_eq_some_iff (tree : FileTree) (place : Location)
    (h : path.Splits above front name) :
    tree.landing? path = some place
      ↔ ∃ here, (tree.route above).2 = some here ∧ place = here ++ [name]
        ∧ textFault? path = none ∧ isName name = true ∧ place ∉ tree.around path
        ∧ tree.get? place ≠ some .directory := by
  rw [landing?, h.parent, getLast?_of_splits h]
  cases hroute : (tree.route above).2 with
  | none => simp [hroute]
  | some here =>
      simp only [hroute, Option.ite_none_right_eq_some, Bool.and_eq_true, Option.isNone_iff_eq_none,
        Bool.not_eq_true', List.contains_eq_mem, decide_eq_false_iff_not, Option.some.injEq]
      rw [← Bool.not_eq_true, isDirectoryAt_iff]
      constructor
      · rintro ⟨⟨⟨⟨hfault, hname⟩, haround⟩, hfree⟩, rfl⟩
        exact ⟨here, rfl, rfl, hfault, hname, haround, hfree⟩
      · rintro ⟨other, rfl, rfl, hfault, hname, haround, hfree⟩
        exact ⟨⟨⟨⟨hfault, hname⟩, haround⟩, hfree⟩, rfl⟩

/-! ### Writing a file -/

/-- A file is put where no directory is. -/
theorem Filled.put (hne : place ≠ []) (hfree : tree.get? place ≠ some .directory)
    (bytes : ByteArray) : tree.Filled [(place, bytes)] [] (tree.put place (.file bytes)) where
  working := rfl
  free file hfile := by rwa [List.mem_singleton.1 hfile]
  written file hfile := by rw [List.mem_singleton.1 hfile, get?_put _ _ _ _ hne, if_pos rfl]
  made _ hplace := by cases hplace
  kept other hother _ := by
    rw [get?_put _ _ _ _ hne, if_neg]
    rintro rfl
    exact hother _ List.mem_cons_self rfl

/-- The directories on the way to a path are made, and a file with a text lands where it can; the
request for that succeeds if it lands anywhere. -/
structure Delivered (tree : FileTree) (path : Path) (text : String) (success : Bool)
    (after : FileTree) : Prop where
  /-- What changes. -/
  filled : tree.Filled ((tree.landing? path).toList.map fun place => (place, text.toUTF8))
    (tree.around path) after
  /-- Everything lies in a directory again. -/
  grounded : after.Grounded
  /-- The request succeeds if the file lands. -/
  success_eq : success = (tree.landing? path).isSome

/-- If a file cannot land anywhere, then the directories on the way to it are all that changes. -/
theorem delivered_of_landing?_eq_none {text : String} (h : path.Splits above front name)
    {success : Bool} (hentered : tree.Entered above success mid)
    (hnone : tree.landing? path = none) :
    tree.Delivered path text false mid where
  filled := by
    rw [hnone, around_of_splits h]
    exact hentered.made
  grounded := hentered.grounded
  success_eq := by rw [hnone]; rfl

/-- Where the directories on the way to a path could not all be made, no file lands. -/
theorem Entered.landing?_eq_none (h : path.Splits above front name)
    (hentered : tree.Entered above false mid) : tree.landing? path = none := by
  by_contra hsome
  obtain ⟨place, hplace⟩ := Option.ne_none_iff_exists'.1 hsome
  obtain ⟨here, hroute, -⟩ := (landing?_eq_some_iff _ _ h).1 hplace
  have hsuccess := hentered.success_eq
  rw [hroute] at hsuccess
  cases hsuccess

/-- What is in the way of a file once the directories on the way to it are there: a directory that
was there before, or one of those. -/
theorem Entered.get?_ne_directory_iff {success : Bool} (hentered : tree.Entered above success mid) :
    mid.get? place ≠ some .directory
      ↔ place ∉ (tree.route above).1 ∧ tree.get? place ≠ some .directory := by
  have hmade := hentered.made
  constructor
  · refine fun hnot => ⟨fun hmem => hnot ?_, fun hdir => hnot (hmade.get?_directory hdir)⟩
    -- Something is at every place of the route, and no file was there or has been put there.
    have hnofile := hmade.isFileAt_eq_false (by simp) (isFileAt_of_mem_route hmem)
    exact (isFileAt_eq_false_iff.1 hnofile).resolve_left (hmade.there _ hmem)
  · rintro ⟨hnot, hfree⟩
    rwa [hmade.kept _ (by simp) (.inr hnot)]

/-- Putting the file where it lands, once the directories on the way are there, delivers it. -/
theorem Entered.delivered {here : Location} (h : path.Splits above front name)
    (hentered : tree.Entered above true mid) (hhere : mid.get? here = some .directory)
    (hlanding : tree.landing? path = some (here ++ [name])) (text : String) :
    tree.Delivered path text true (mid.put (here ++ [name]) (.file text.toUTF8)) := by
  obtain ⟨-, -, -, -, -, hnot, hbefore⟩ := (landing?_eq_some_iff _ _ h).1 hlanding
  rw [around_of_splits h] at hnot
  have hempty : mid.get? (here ++ [name]) ≠ some .directory :=
    hentered.get?_ne_directory_iff.2 ⟨hnot, hbefore⟩
  refine ⟨?_, hentered.grounded.put hhere (.inl hempty), by rw [hlanding]; rfl⟩
  rw [hlanding, around_of_splits h]
  -- The directories come first, then the file, which is put in the place of none of them.
  have hput : mid.Filled [(here ++ [name], text.toUTF8)] [] _ :=
    Filled.put (by simp) hempty text.toUTF8
  refine (Filled.trans hentered.made hput ?_ (by simp)).congr (by simp) (by simp)
  intro file hfile
  rw [List.mem_singleton.1 hfile]
  exact ⟨by simp, hnot⟩

/-- Where the path around a path is there, a file is written unless its name is none or that of a
directory. -/
theorem write_of_there {here : Location} (hground : tree.Grounded)
    (h : path.Splits above front name) (hvoid : isVoid name = false)
    (hfault : textFault? path = none)
    (hthere : ∀ place ∈ (tree.trail (tree.start path) front).1, tree.get? place ≠ none)
    (hlast : (tree.trail (tree.start path) front).2 = some here) (text : String) :
    (isName name = true ∧ tree.get? (here ++ [name]) ≠ some .directory
        ∧ tree.write path text = .ok (tree.put (here ++ [name]) (.file text.toUTF8)))
      ∨ ¬ (isName name = true ∧ tree.get? (here ++ [name]) ≠ some .directory)
        ∧ ∃ cause, tree.write path text = .error cause := by
  obtain ⟨hwalk, hdirectory⟩ := walk_of_there name hground hthere hlast
  have hnew := locateNew_of_splits tree h hfault
  rw [hwalk, step_of_directory hdirectory] at hnew
  simp only [hvoid, Bool.false_eq_true, if_false, Bool.false_or, decide_eq_true_eq] at hnew
  have hslash : path.pieces.getLast? ≠ some "" := by
    rw [getLast?_of_splits h]
    exact fun heq => h.named (Option.some.inj heq)
  have hname : isName name = true ↔ name ≠ ".." ∧ ¬ nameLimit < name.utf8ByteSize := by
    simp [isName_iff, hvoid]
  -- A step up ends at a directory, a name that is too long nowhere, any other name below `here`.
  by_cases hup : name = ".."
  · exact .inr ⟨fun hok => (hname.1 hok.1).1 hup, .isADirectory,
      by simp [write, writeBytes, hnew, hup]⟩
  by_cases hlong : nameLimit < name.utf8ByteSize
  · exact .inr ⟨fun hok => (hname.1 hok.1).2 hlong, .nameTooLong,
      by simp [write, writeBytes, hnew, hup, hlong]⟩
  simp only [hup, hlong, if_false] at hnew
  by_cases hfree : tree.get? (here ++ [name]) = some .directory
  · exact .inr ⟨fun hok => hok.2 hfree, .isADirectory,
      by simp [write, writeBytes, hnew, hslash, hfree]⟩
  · refine .inl ⟨hname.2 ⟨hup, hlong⟩, hfree, ?_⟩
    unfold write writeBytes
    rw [hnew]
    simp only [if_neg hslash]

/-- Once the directories on the way to a path are there, a file is written where it lands. -/
theorem write_of_entered (h : path.Splits above front name) (hvoid : isVoid name = false)
    (hentered : tree.Entered above true mid) (text : String) :
    (∃ after, mid.write path text = .ok after ∧ tree.Delivered path text true after)
      ∨ ∃ cause, mid.write path text = .error cause ∧ tree.Delivered path text false mid := by
  have hrefused (hwrite : ∃ cause, mid.write path text = .error cause)
      (hnone : ∀ place, tree.landing? path ≠ some place) :
      ∃ cause, mid.write path text = .error cause ∧ tree.Delivered path text false mid :=
    hwrite.imp fun _ hcause =>
      ⟨hcause, delivered_of_landing?_eq_none h hentered (Option.eq_none_iff_forall_ne_some.2 hnone)⟩
  have hiff (place : Location) := landing?_eq_some_iff tree place h
  have haround : tree.around path = (tree.route above).1 := around_of_splits h
  obtain ⟨here, hhere⟩ := Option.isSome_iff_exists.1 hentered.success_eq.symm
  cases hfault : textFault? path with
  | some cause =>
      have hwrite : mid.write path text = .error cause := by
        rw [write, writeBytes, locateNew, hfault]
      refine .inr (hrefused ⟨cause, hwrite⟩ fun place hplace => ?_)
      obtain ⟨-, -, -, hnone, -⟩ := (hiff place).1 hplace
      rw [hfault] at hnone
      cases hnone
  | none =>
      have hroute := route_of_splits tree h hfault
      have hmade := hentered.made
      rw [hroute] at hmade
      -- The way to the path is the same as before, and now every directory on it is there.
      have htrail : mid.trail (mid.start path) front = tree.trail (tree.start path) front := by
        rw [hmade.start, hmade.trail]
      have hlast : (mid.trail (mid.start path) front).2 = some here := by
        rw [htrail, ← hroute, hhere]
      have hthere := hmade.there
      rw [← htrail] at hthere
      have hwrite := write_of_there hentered.grounded h hvoid hfault hthere hlast text
      rcases hwrite with ⟨hname, hempty, hwrite⟩ | ⟨hok, hwrite⟩
      · obtain ⟨hnot, hbefore⟩ := hentered.get?_ne_directory_iff.1 hempty
        have hlanding : tree.landing? path = some (here ++ [name]) :=
          (hiff _).2 ⟨here, hhere, rfl, hfault, hname, haround ▸ hnot, hbefore⟩
        have hdirectory := (walk_of_there name hentered.grounded hthere hlast).2
        exact .inl ⟨_, hwrite, hentered.delivered h hdirectory hlanding text⟩
      · refine .inr (hrefused hwrite fun place hplace => hok ?_)
        obtain ⟨other, hother, rfl, -, hname, hnot, hbefore⟩ := (hiff place).1 hplace
        obtain rfl := Option.some.inj (hhere.symm.trans hother)
        exact ⟨hname, hentered.get?_ne_directory_iff.2 ⟨haround ▸ hnot, hbefore⟩⟩

/-! ### What changes elsewhere -/

/-- The directories on the way to a path stay the same if no file is put in their place. -/
theorem Filled.route_eq (hfilled : tree.Filled files places after)
    (hother : ∀ place ∈ (tree.route path).1, ∀ file ∈ files, file.1 ≠ place) :
    after.route path = tree.route path :=
  hfilled.persists.route_congr fun place hplace =>
    hfilled.isFileAt_eq_false (hother place hplace) (isFileAt_of_mem_route hplace)

/-- The directories on the way to a path stay the same if no file is put in their place. So the
places of one job can be told before another job is done. -/
theorem Filled.around_eq (hfilled : tree.Filled files places after)
    (h : path.Splits above front name)
    (hother : ∀ place ∈ tree.around path, ∀ file ∈ files, file.1 ≠ place) :
    after.around path = tree.around path := by
  rw [around_of_splits h] at hother
  rw [around_of_splits h, around_of_splits h, hfilled.route_eq hother]

/-- A file lands where it would have landed if no directory was made there and no file put on the
way. -/
theorem Filled.landing?_eq (hfilled : tree.Filled files places after)
    (h : path.Splits above front name)
    (hother : ∀ place ∈ tree.around path, ∀ file ∈ files, file.1 ≠ place)
    (hfree : ∀ place, tree.landing? path = some place → place ∉ places) :
    after.landing? path = tree.landing? path := by
  have haround := hfilled.around_eq h hother
  rw [around_of_splits h] at hother
  have hroute := hfilled.route_eq hother
  refine Option.ext fun place => ?_
  have hiff := landing?_eq_some_iff tree place h
  rw [landing?_eq_some_iff _ _ h, hiff, haround, hroute]
  -- All conditions read the same in both trees, up to whether a directory is at the place itself.
  refine exists_congr fun here => and_congr_right fun hhere => and_congr_right fun hplace =>
    and_congr_right fun hfault => and_congr_right fun hname => and_congr_right fun hnot =>
      not_congr ⟨fun hdir => ?_, hfilled.get?_directory⟩
  by_contra hbefore
  have hmade : place ∉ places :=
    hfree place (hiff.2 ⟨here, hhere, hplace, hfault, hname, hnot, hbefore⟩)
  by_cases hfile : ∃ file ∈ files, file.1 = place
  · obtain ⟨file, hmem, rfl⟩ := hfile
    rw [hfilled.written file hmem] at hdir
    cases hdir
  · rw [hfilled.kept place (fun file hmem heq => hfile ⟨file, hmem, heq⟩) (.inr hmade)] at hdir
    exact hbefore hdir

/-- A file keeps its text if no other is put in its place. -/
theorem Filled.read_eq (hfilled : tree.Filled files places after) {bytes : ByteArray}
    (hlocate : tree.locate path = .ok place) (hbytes : tree.get? place = some (.file bytes))
    (hother : ∀ file ∈ files, file.1 ≠ place) : after.read path = tree.read path := by
  rw [read, read, hlocate, hfilled.persists.locate hlocate]
  simp only [hfilled.kept place hother (.inl (by simp [hbytes])), hbytes]

/-- The bytes of a text are read as the text. -/
theorem fromUTF8?_toUTF8 (text : String) : String.fromUTF8? text.toUTF8 = some text := by
  rw [String.fromUTF8?, String.toUTF8_eq_toByteArray, dif_pos text.isValidUTF8]
  rfl

/-- Where a file lands and nothing is put on the way, it can be read. -/
theorem Filled.read_landing (hfilled : tree.Filled files places after) (hground : after.Grounded)
    (h : path.Splits above front name) (hlanding : tree.landing? path = some place)
    (hother : ∀ place ∈ tree.around path, ∀ file ∈ files, file.1 ≠ place)
    (hplaces : ∀ place ∈ tree.around path, place ∈ places) {text : String}
    (hfile : (place, text.toUTF8) ∈ files) : after.read path = .ok text := by
  obtain ⟨here, hhere, rfl, hfault, hname, -⟩ := (landing?_eq_some_iff _ _ h).1 hlanding
  obtain ⟨hvoid, hup, hshort⟩ := isName_iff.1 hname
  rw [around_of_splits h] at hother hplaces
  -- The path leads along the same directories, all of them there now, to where the file was put.
  have hroute := hfilled.route_eq hother
  have htrail : after.trail (after.start path) front = tree.route above := by
    rw [← hroute, route_of_splits after h hfault]
  obtain ⟨hwalk, hdirectory⟩ := walk_of_there name hground
    (by rw [htrail]; exact fun place hplace => hfilled.there place (hplaces place hplace))
    (by rw [htrail, hhere])
  have hstep : after.step here name = .ok (here ++ [name]) := by
    rw [step_of_directory hdirectory]
    simp [hvoid, hup, Nat.not_lt.2 hshort]
  have hlocate := locate_of_splits after h hfault
  rw [hwalk, hstep] at hlocate
  have hthere := hfilled.written _ hfile
  rw [read, hlocate]
  simp only [hthere, fromUTF8?_toUTF8]

/-! ### Later trees -/

/-- Where a file lands later on, it landed before: what is in the way stays there. -/
theorem Persists.landing?_eq_some (hlater : tree.Persists after) (h : path.Splits above front name)
    (hplace : after.landing? path = some place) : tree.landing? path = some place := by
  obtain ⟨here, hhere, hplace, hfault, hname, hnot, hfree⟩ :=
    (landing?_eq_some_iff _ _ h).1 hplace
  have hroute := hlater.route_eq hhere
  rw [around_of_splits h, ← hroute] at hnot
  refine (landing?_eq_some_iff _ _ h).2 ⟨here, by rw [hroute, hhere], hplace, hfault, hname, ?_,
    fun hdirectory => hfree (hlater.directory _ hdirectory)⟩
  rwa [around_of_splits h]

section
variable {later : FileTree} {bytes : ByteArray}
  (hfilled : tree.Filled ((tree.landing? path).toList.map fun place => (place, bytes))
    (tree.around path) after)
  (h : path.Splits above front name) (hlater : after.Persists later)
include hfilled h hlater

/-- Once a file was delivered, there are directories on the way to it for good. -/
theorem directory_of_mem_around (hplace : place ∈ tree.around path) :
    later.get? place = some .directory := by
  refine hlater.directory place ?_
  have hfree : tree.isFileAt place = false := by
    rw [around_of_splits h] at hplace
    exact isFileAt_of_mem_route hplace
  rcases isFileAt_eq_false_iff.1 hfree with hnone | hdirectory
  · exact hfilled.made place hplace hnone
  · exact hfilled.get?_directory hdirectory

/-- The way to a file that was delivered is the same later on. -/
theorem route_eq_of_delivered : later.route above = tree.route above := by
  refine (hfilled.persists.trans hlater).route_congr fun place hplace => ?_
  rw [← around_of_splits h] at hplace
  rw [isFileAt_eq_false_iff]
  exact .inr (directory_of_mem_around hfilled h hlater hplace)

/-- The directories on the way to a file that was delivered are the same later on. -/
theorem around_eq_of_delivered : later.around path = tree.around path := by
  rw [around_of_splits h, around_of_splits h, route_eq_of_delivered hfilled h hlater]

/-- A file that was delivered lands at the same place again, and one that was not does not. So a
second run fails for the same documents as the first. -/
theorem landing?_eq_of_delivered : later.landing? path = tree.landing? path := by
  have hpersists := hfilled.persists.trans hlater
  have hroute := route_eq_of_delivered hfilled h hlater
  refine Option.ext fun place => ⟨hpersists.landing?_eq_some h, fun hplace => ?_⟩
  obtain ⟨here, hhere, hend, hfault, hname, hnot, -⟩ := (landing?_eq_some_iff _ _ h).1 hplace
  refine (landing?_eq_some_iff _ _ h).2 ⟨here, hroute ▸ hhere, hend, hfault, hname, ?_, ?_⟩
  · rwa [around_eq_of_delivered hfilled h hlater]
  · have hwritten := hfilled.written (place, bytes) (by simp [hplace])
    have hfile := hlater.file place (isFileAt_iff.2 ⟨bytes, hwritten⟩)
    obtain ⟨other, hother⟩ := isFileAt_iff.1 hfile
    rw [hother]
    exact fun hdirectory => by cases hdirectory

end

end ImageImports.FileTree
