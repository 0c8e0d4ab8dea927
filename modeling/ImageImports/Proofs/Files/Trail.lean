import ImageImports.Files.Tree
import Mathlib.Data.List.Basic

/-!
# `ImageImports.Proofs.Files.Trail`: ways through a tree

A walk stops where something is missing. To say what a program does that makes missing directories
on its way, this file follows a path as if they were there already (`FileTree.trail`): only a file
or a name that is too long is in the way then. The trail of a path depends on nothing but the files
of the tree (`trail_congr`), so it stays the same however many directories are made, and it tells
how a walk ends (`walk_of_trail_some` and the lemmas after it).

All of this is about trees in which everything lies in a directory (`FileTree.Grounded`).
-/

set_option autoImplicit false

namespace ImageImports.FileTree

/-! ### Grounded trees -/

/-- Everything lies in a directory, and there is a directory to run in. In contrast to `WellFormed`
it does not ask how locations are named, so it holds through all that a run does. -/
structure Grounded (tree : FileTree) : Prop where
  /-- Around everything there is a directory. -/
  around : ∀ location name, tree.get? (location ++ [name]) ≠ none →
    tree.get? location = some .directory
  /-- The program runs in a directory. -/
  working : tree.get? tree.workingDirectory = some .directory

/-- Whether there is a file at a location. -/
def isFileAt (tree : FileTree) (location : Location) : Bool :=
  match tree.get? location with
  | some (.file _) => true
  | _ => false

variable {tree other : FileTree} {here last location : Location} {piece : String}
variable {pieces more : List String}

/-- There is always a directory at the root. -/
@[simp]
theorem get?_root (tree : FileTree) : tree.get? [] = some .directory := rfl

/-- Where there is no file, there is nothing or a directory. -/
theorem isFileAt_eq_false_iff :
    tree.isFileAt location = false
      ↔ tree.get? location = none ∨ tree.get? location = some .directory := by
  unfold isFileAt
  cases tree.get? location with
  | none => simp
  | some entry => cases entry <;> simp

/-- Where there is a file, it has some bytes. -/
theorem isFileAt_iff :
    tree.isFileAt location = true ↔ ∃ bytes, tree.get? location = some (.file bytes) := by
  unfold isFileAt
  cases tree.get? location with
  | none => simp
  | some entry => cases entry <;> simp

/-- A path leads to a directory if there is one at the location that it leads to. -/
theorem isDirectory_iff {path : Path} :
    tree.isDirectory path = true
      ↔ ∃ here, tree.locate path = .ok here ∧ tree.get? here = some .directory := by
  unfold isDirectory lookup?
  cases tree.locate path with
  | error cause => simp
  | ok here =>
      cases hget : tree.get? here with
      | none => simp [hget]
      | some entry => cases entry <;> simp [hget]

/-- A path leads to a file if there is one at the location that it leads to. -/
theorem isFile_iff {path : Path} :
    tree.isFile path = true
      ↔ ∃ here, tree.locate path = .ok here ∧ tree.isFileAt here = true := by
  unfold isFile lookup? isFileAt
  cases tree.locate path with
  | error cause => simp
  | ok here =>
      cases hget : tree.get? here with
      | none => simp [hget]
      | some entry => cases entry <;> simp [hget]

/-- A path does not lead to a file where it leads to a directory. -/
theorem isFile_eq_false {path : Path} (h : tree.isDirectory path = true) :
    tree.isFile path = false := by
  obtain ⟨here, hlocate, hhere⟩ := isDirectory_iff.1 h
  rw [isFile, lookup?, hlocate]
  simp only [hhere]

/-- The directory above a directory is one; that above the root is the root. -/
theorem Grounded.dropLast (h : tree.Grounded) (hhere : tree.get? here = some .directory) :
    tree.get? here.dropLast = some .directory := by
  rcases here.eq_nil_or_concat' with rfl | ⟨front, name, rfl⟩
  · rfl
  · rw [List.dropLast_concat]
    exact h.around front name (by simp [hhere])

/-- The way along a path starts in a directory. -/
theorem Grounded.start (h : tree.Grounded) (path : Path) :
    tree.get? (tree.start path) = some .directory := by
  unfold FileTree.start
  split
  · rfl
  · exact h.working

/-- Directories stay directories where nothing else is put in the place of one. -/
theorem get?_put_directory {place : Location} {entry : Entry} (hne : location ≠ [])
    (hplace : tree.get? location ≠ some .directory ∨ entry = .directory)
    (hfound : tree.get? place = some .directory) :
    (tree.put location entry).get? place = some .directory := by
  rw [get?_put _ _ _ _ hne]
  split
  · rename_i hsame
    rw [hsame] at hfound
    rcases hplace with hnot | hentry
    · exact absurd hfound hnot
    · rw [hentry]
  · exact hfound

/-- What is put into a directory, or in the place of a file, leaves a tree grounded. -/
theorem Grounded.put (h : tree.Grounded) {front : Location} {name : String} {entry : Entry}
    (hfront : tree.get? front = some .directory)
    (hplace : tree.get? (front ++ [name]) ≠ some .directory ∨ entry = .directory) :
    (tree.put (front ++ [name]) entry).Grounded := by
  have hne : front ++ [name] ≠ [] := by simp
  refine ⟨fun place key hkey => ?_, get?_put_directory hne hplace h.working⟩
  rw [get?_put _ _ _ _ hne] at hkey
  split at hkey
  · rename_i hsame
    obtain ⟨rfl, -⟩ := List.append_inj' hsame rfl
    exact get?_put_directory hne hplace hfront
  · exact get?_put_directory hne hplace (h.around place key hkey)

/-! ### Trails -/

/-- Where the pieces of a path lead if missing directories are made on the way: the locations gone
into, and where the way ends unless a file or too long a name is in it. -/
def trail (tree : FileTree) : Location → List String → List Location × Option Location
  | here, [] => ([], some here)
  | here, piece :: rest =>
      if Path.isVoid piece then tree.trail here rest
      else if piece = ".." then tree.trail here.dropLast rest
      else if nameLimit < piece.utf8ByteSize || tree.isFileAt (here ++ [piece]) then ([], none)
      else ((here ++ [piece]) :: (tree.trail (here ++ [piece]) rest).1,
        (tree.trail (here ++ [piece]) rest).2)

/-- A piece that says nothing makes no difference to a trail. -/
theorem trail_void (h : Path.isVoid piece = true) :
    tree.trail here (piece :: pieces) = tree.trail here pieces := by
  rw [trail, if_pos h]

/-- Pieces that say nothing make no difference to a trail. -/
theorem trail_filter (tree : FileTree) (here : Location) (pieces : List String) :
    tree.trail here (pieces.filter fun piece => !Path.isVoid piece) = tree.trail here pieces := by
  induction pieces generalizing here with
  | nil => rfl
  | cons piece rest ih =>
      by_cases hvoid : Path.isVoid piece
      · rw [List.filter_cons_of_neg (by simp [hvoid]), ih, trail_void hvoid]
      · rw [List.filter_cons_of_pos (by simp [hvoid])]
        simp only [trail, ih]

/-- Longer trails go on where shorter ones end. -/
theorem trail_append (tree : FileTree) (here : Location) (pieces more : List String) :
    tree.trail here (pieces ++ more)
      = match (tree.trail here pieces).2 with
        | none => ((tree.trail here pieces).1, none)
        | some last =>
            ((tree.trail here pieces).1 ++ (tree.trail last more).1, (tree.trail last more).2) := by
  induction pieces generalizing here with
  | nil => simp [trail]
  | cons piece rest ih =>
      rw [List.cons_append]
      simp only [trail]
      split
      · exact ih here
      split
      · exact ih here.dropLast
      split
      · rfl
      · rw [ih]
        cases (tree.trail (here ++ [piece]) rest).2 <;> rfl

/-- No file lies on a trail. -/
theorem isFileAt_of_mem_trail (h : location ∈ (tree.trail here pieces).1) :
    tree.isFileAt location = false := by
  induction pieces generalizing here with
  | nil => simp [trail] at h
  | cons piece rest ih =>
      rw [trail] at h
      split at h
      · exact ih h
      split at h
      · exact ih h
      split at h
      · simp at h
      · rename_i hfree
        rcases List.mem_cons.1 h with rfl | h
        · simp only [Bool.or_eq_true, not_or, Bool.not_eq_true] at hfree
          exact hfree.2
        · exact ih h

/-- A trail stays the same in a tree with all the files of the first and with none of the others on
the trail. -/
theorem trail_congr (hfiles : ∀ place, tree.isFileAt place = true → other.isFileAt place = true)
    (hfree : ∀ place ∈ (tree.trail here pieces).1, other.isFileAt place = false) :
    other.trail here pieces = tree.trail here pieces := by
  -- A trail looks at a location only to ask whether there is a file.
  induction pieces generalizing here with
  | nil => rfl
  | cons piece rest ih =>
      rw [trail] at hfree
      simp only [trail]
      split
      · rename_i hvoid
        rw [if_pos hvoid] at hfree
        exact ih hfree
      rename_i hvoid
      rw [if_neg hvoid] at hfree
      split
      · rename_i hup
        rw [if_pos hup] at hfree
        exact ih hfree
      rename_i hup
      rw [if_neg hup] at hfree
      by_cases hblocked : (decide (nameLimit < piece.utf8ByteSize)
          || tree.isFileAt (here ++ [piece])) = true
      · have hblocked' : (decide (nameLimit < piece.utf8ByteSize)
            || other.isFileAt (here ++ [piece])) = true := by
          rw [Bool.or_eq_true] at hblocked ⊢
          exact hblocked.imp_right (hfiles _)
        rw [if_pos hblocked, if_pos hblocked']
      · rw [if_neg hblocked] at hfree ⊢
        have hnext := hfree _ List.mem_cons_self
        have hblocked' : ¬ (decide (nameLimit < piece.utf8ByteSize)
            || other.isFileAt (here ++ [piece])) = true := by
          rw [hnext, Bool.or_false]
          exact fun hlong => hblocked (by rw [hlong, Bool.true_or])
        rw [if_neg hblocked', ih fun place hplace => hfree place (List.mem_cons_of_mem _ hplace)]

/-! ### Walks -/

/-- A longer walk goes on where a shorter one ends. -/
theorem walk_append (tree : FileTree) (here : Location) (pieces more : List String) :
    tree.walk here (pieces ++ more)
      = match tree.walk here pieces with
        | .error cause => .error cause
        | .ok last => tree.walk last more := by
  induction pieces generalizing here with
  | nil => rfl
  | cons piece rest ih =>
      rw [List.cons_append]
      simp only [walk]
      cases tree.step here piece with
      | error cause => rfl
      | ok next => exact ih next

/-- A step from a directory stays, goes up or goes down, by what the piece is. -/
theorem step_of_directory (h : tree.get? here = some .directory) (piece : String) :
    tree.step here piece
      = if Path.isVoid piece then .ok here
        else if piece = ".." then .ok here.dropLast
        else if nameLimit < piece.utf8ByteSize then .error .nameTooLong
        else .ok (here ++ [piece]) := by
  rw [step, h]

/-- What a piece does from a directory: it leads to another directory that need not be made, it is
in the way of what follows, or it leads to a place for a directory. -/
theorem trail_cons_cases (hground : tree.Grounded) (hhere : tree.get? here = some .directory)
    (piece : String) (pieces : List String) :
    (∃ next, tree.get? next = some .directory ∧ tree.step here piece = .ok next
        ∧ tree.trail here (piece :: pieces) = tree.trail next pieces)
      ∨ tree.trail here (piece :: pieces) = ([], none)
        ∧ (tree.step here piece = .error .nameTooLong
          ∨ ∃ next bytes, tree.step here piece = .ok next ∧ tree.get? next = some (.file bytes))
      ∨ ∃ next, tree.step here piece = .ok next
        ∧ (tree.get? next = none ∨ tree.get? next = some .directory)
        ∧ tree.trail here (piece :: pieces)
          = (next :: (tree.trail next pieces).1, (tree.trail next pieces).2) := by
  -- The walk and the trail ask the same questions in the same order, but for that about a file.
  rw [step_of_directory hhere, trail]
  by_cases hvoid : Path.isVoid piece = true
  · exact .inl ⟨here, hhere, by simp [hvoid], by simp [hvoid]⟩
  by_cases hup : piece = ".."
  · rw [if_neg hvoid, if_pos hup, if_neg hvoid, if_pos hup]
    exact .inl ⟨here.dropLast, hground.dropLast hhere, rfl, rfl⟩
  by_cases hlong : nameLimit < piece.utf8ByteSize
  · exact .inr (.inl ⟨by simp [hvoid, hup, hlong], .inl (by simp [hvoid, hup, hlong])⟩)
  refine .inr ?_
  cases hfile : tree.isFileAt (here ++ [piece]) with
  | true =>
      obtain ⟨bytes, hbytes⟩ := isFileAt_iff.1 hfile
      exact .inl ⟨by simp [hvoid, hup],
        .inr ⟨here ++ [piece], bytes, by simp [hvoid, hup, hlong], hbytes⟩⟩
  | false =>
      exact .inr ⟨here ++ [piece], by simp [hvoid, hup, hlong], isFileAt_eq_false_iff.1 hfile,
        by simp [hvoid, hup, hlong]⟩

/-- Where nothing is missing on a trail, a walk goes along it to its end. A trail says where a path
would lead, with directories still to be made, and a walk where it leads now. -/
theorem walk_of_trail_some (hground : tree.Grounded) (hhere : tree.get? here = some .directory)
    (hthere : ∀ place ∈ (tree.trail here pieces).1, tree.get? place ≠ none)
    (hlast : (tree.trail here pieces).2 = some last) :
    tree.walk here pieces = .ok last ∧ tree.get? last = some .directory := by
  -- The walk is in a directory all the way, which is what lets it take the next step.
  induction pieces generalizing here with
  | nil =>
      cases hlast
      exact ⟨rfl, hhere⟩
  | cons piece rest ih =>
      rw [walk]
      rcases trail_cons_cases hground hhere piece rest with
        ⟨next, hnext, hstep, htrail⟩ | ⟨htrail, -⟩ | ⟨next, hstep, hfree, htrail⟩
      · rw [htrail] at hthere hlast
        rw [hstep]
        exact ih hnext hthere hlast
      · rw [htrail] at hlast
        cases hlast
      · rw [htrail] at hthere hlast
        rw [hstep]
        exact ih (hfree.resolve_left (hthere next List.mem_cons_self))
          (fun place hplace => hthere place (List.mem_cons_of_mem _ hplace)) hlast

/-- Where nothing is missing on a trail that ends early, a walk that goes on fails, and not for
anything that is missing. -/
theorem walk_of_trail_none (hground : tree.Grounded) (hhere : tree.get? here = some .directory)
    (hthere : ∀ place ∈ (tree.trail here pieces).1, tree.get? place ≠ none)
    (hlast : (tree.trail here pieces).2 = none) (hmore : more ≠ []) :
    tree.walk here (pieces ++ more) = .error .notADirectory
      ∨ tree.walk here (pieces ++ more) = .error .nameTooLong := by
  induction pieces generalizing here with
  | nil => cases hlast
  | cons piece rest ih =>
      rw [List.cons_append, walk]
      rcases trail_cons_cases hground hhere piece rest with
        ⟨next, hnext, hstep, htrail⟩ | ⟨-, hstep | ⟨next, bytes, hstep, hbytes⟩⟩
          | ⟨next, hstep, hfree, htrail⟩
      · rw [htrail] at hthere hlast
        rw [hstep]
        exact ih hnext hthere hlast
      · rw [hstep]
        exact .inr rfl
      · -- What follows a file cannot be looked up in it.
        obtain ⟨second, others, hcons⟩ : ∃ second others, rest ++ more = second :: others :=
          List.exists_cons_of_ne_nil (by simp [hmore])
        refine .inl ?_
        rw [hstep, hcons]
        simp only [walk, step, hbytes]
      · rw [htrail] at hthere hlast
        rw [hstep]
        exact ih (hfree.resolve_left (hthere next List.mem_cons_self))
          (fun place hplace => hthere place (List.mem_cons_of_mem _ hplace)) hlast

/-- Where something is missing on a trail, a walk that goes on does not find it. -/
theorem walk_of_missing (hground : tree.Grounded) (hhere : tree.get? here = some .directory)
    (hmissing : ∃ place ∈ (tree.trail here pieces).1, tree.get? place = none) (hmore : more ≠ []) :
    tree.walk here (pieces ++ more) = .error .notFound := by
  induction pieces generalizing here with
  | nil => simp [trail] at hmissing
  | cons piece rest ih =>
      rw [List.cons_append, walk]
      rcases trail_cons_cases hground hhere piece rest with
        ⟨next, hnext, hstep, htrail⟩ | ⟨htrail, -⟩ | ⟨next, hstep, hfree, htrail⟩
      · rw [htrail] at hmissing
        rw [hstep]
        exact ih hnext hmissing
      · rw [htrail] at hmissing
        simp at hmissing
      · rw [htrail] at hmissing
        rw [hstep]
        -- Either the walk is at the missing place now and has to go on, or it is still to come.
        rcases hfree with hnone | hnext
        · obtain ⟨second, others, hcons⟩ : ∃ second others, rest ++ more = second :: others :=
            List.exists_cons_of_ne_nil (by simp [hmore])
          simp only [hcons, walk, step, hnone]
        · obtain ⟨place, hplace, hnone⟩ := hmissing
          rcases List.mem_cons.1 hplace with rfl | hplace
          · rw [hnext] at hnone
            cases hnone
          · exact ih hnext ⟨place, hplace, hnone⟩

end ImageImports.FileTree
