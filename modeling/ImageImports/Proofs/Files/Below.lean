import ImageImports.Proofs.Files.Landing
import Mathlib.Data.List.Nodup

/-!
# `ImageImports.Proofs.Files.Below`: what lies below a directory

The names on the way from a directory to something below it are plain: none of them says nothing,
leads up or holds a slash. A path with such names at its end leads from where the path in front of
them leads, along these names (`locate_join`), and the names of the entries in a directory are those
under which something is there (`mem_namesIn`).
-/

set_option autoImplicit false

namespace ImageImports

/-! ### Plain names -/

namespace Path

/-- Whether a name is one that an entry of a directory can have: it says something, is no step up
and holds no slash. -/
def isPlain (name : String) : Bool :=
  !isVoid name && name ≠ ".." && !name.toList.contains '/'

/-- What a plain name is, taken apart into the three conditions. -/
theorem isPlain_iff {name : String} :
    isPlain name = true ↔ isVoid name = false ∧ name ≠ ".." ∧ '/' ∉ name.toList := by
  simp [isPlain, and_assoc]

/-- A plain name is not empty. -/
theorem ne_empty_of_isPlain {name : String} (h : isPlain name = true) : name ≠ "" :=
  ne_empty_of_telling (isPlain_iff.1 h).1

/-! ### Names behind a path -/

/-- The steps of a path behind which names can be put: those without a slash at the end. -/
def base (path : Path) : List String :=
  if path.isEmpty then []
  else if path.isAbsolute then (join.withoutEndSlash path.pieces).drop 1
  else join.withoutEndSlash path.pieces

variable {path : Path} {first : String} {rest way more : List String}

/-- Taking the slash at the end away leaves the first of some pieces, and all others but an empty
one at the end. -/
theorem withoutEndSlash_cons (h : first ≠ "" ∨ rest ≠ []) :
    ∃ kept, join.withoutEndSlash (first :: rest) = first :: kept
      ∧ (rest = kept ∨ rest = kept ++ [""]) := by
  unfold join.withoutEndSlash
  rcases rest.eq_nil_or_concat' with rfl | ⟨front, last, rfl⟩
  · exact ⟨[], by simp [h.resolve_right (by simp)], .inl rfl⟩
  · rw [← List.cons_append, List.getLast?_append_cons, List.getLast?_singleton]
    split
    · rename_i hlast
      rw [Option.some.inj hlast, List.dropLast_concat]
      exact ⟨front, rfl, .inr rfl⟩
    · exact ⟨front ++ [last], rfl, .inl rfl⟩

/-- A path with a text has a first piece, which is not all of it if it is empty. -/
theorem exists_pieces_of_isEmpty_eq_false (h : path.isEmpty = false) :
    ∃ first rest, path.pieces = first :: rest ∧ (first ≠ "" ∨ rest ≠ []) := by
  rcases path with ⟨_ | ⟨first, rest⟩⟩
  · simp [isEmpty] at h
  · refine ⟨first, rest, rfl, ?_⟩
    by_contra hnot
    simp only [not_or, not_not] at hnot
    simp [isEmpty, hnot.1, hnot.2] at h

/-- A path of several pieces is absolute exactly if the first one is empty. -/
theorem isAbsolute_cons (hrest : rest ≠ []) : isAbsolute ⟨first :: rest⟩ = decide (first = "") := by
  obtain ⟨second, others, rfl⟩ := List.exists_cons_of_ne_nil hrest
  exact isAbsolute_cons_cons

/-- The steps of a path with names behind it are those of the path, and then the names. Whether it
starts at the root is told by the path alone. -/
theorem steps_join (path : Path) (hway : way ≠ []) (hnamed : ∀ name ∈ way, name ≠ "") :
    (path.join way).steps = path.base ++ way ∧ (path.join way).isAbsolute = path.isAbsolute := by
  cases hempty : path.isEmpty with
  | true =>
      -- The join is the way alone, which begins with a name and so not at the root.
      obtain ⟨name, names, rfl⟩ := List.exists_cons_of_ne_nil hway
      have hname := hnamed name List.mem_cons_self
      have habsolute : path.isAbsolute = false := by
        simp only [isEmpty, Bool.or_eq_true, decide_eq_true_eq] at hempty
        rcases hempty with h | h <;> simp [isAbsolute, h]
      rw [join, if_pos hempty, base, if_pos hempty, steps_of_ne hname, habsolute]
      exact ⟨rfl, isAbsolute_of_ne hname names⟩
  | false =>
      obtain ⟨first, rest, hpieces, hfirst⟩ := exists_pieces_of_isEmpty_eq_false hempty
      obtain ⟨kept, hkept, hrest⟩ := withoutEndSlash_cons hfirst
      have hjoin : path.join way = ⟨first :: (kept ++ way)⟩ := by
        rw [join, if_neg (by simp [hempty]), hpieces, hkept, List.cons_append]
      have habove : path = ⟨first :: rest⟩ := by rw [← hpieces]
      -- A path whose first piece is empty, and has others behind it, is one from the root.
      by_cases hslash : first = ""
      · have hlong : rest ≠ [] := hfirst.resolve_left (not_not.2 hslash)
        have habsolute : path.isAbsolute = true := by
          rw [habove, isAbsolute_cons hlong, hslash]
          rfl
        have habsoluteJoin : (path.join way).isAbsolute = true := by
          rw [hjoin, isAbsolute_cons (by simp [hway]), hslash]
          rfl
        refine ⟨?_, habsoluteJoin.trans habsolute.symm⟩
        rw [steps, habsoluteJoin, base, hempty, habsolute, hjoin, hpieces, hkept]
        rfl
      · have habsolute : path.isAbsolute = false := by rw [habove, isAbsolute_of_ne hslash]
        rw [habsolute, hjoin, steps_of_ne hslash, isAbsolute_of_ne hslash, base, hempty, habsolute,
          hpieces, hkept]
        exact ⟨rfl, rfl⟩

/-- The steps of a path with a text are those behind which names can be put, with at most a slash at
the end behind them. -/
theorem steps_eq_base (hempty : path.isEmpty = false) :
    path.steps = path.base ∨ path.steps = path.base ++ [""] := by
  obtain ⟨first, rest, hpieces, hfirst⟩ := exists_pieces_of_isEmpty_eq_false hempty
  obtain ⟨kept, hkept, hrest⟩ := withoutEndSlash_cons hfirst
  rw [steps, base, hempty, hpieces, hkept]
  cases path.isAbsolute with
  | true => simpa using hrest
  | false => simpa using hrest

/-- Names can be put behind a path in two turns. -/
theorem join_join (hway : way ≠ []) (hnamed : ∀ name ∈ way, name ≠ "") :
    (path.join way).join more = path.join (way ++ more) := by
  -- The first names end in one that is not empty, so the path they make has no slash at its end and
  -- the further names are put straight behind it.
  have hlast : ∀ pieces : List String, (pieces ++ way).getLast? ≠ some "" := by
    intro pieces hlast
    obtain ⟨front, name, rfl⟩ := way.eq_nil_or_concat'.resolve_left hway
    rw [← List.append_assoc, List.getLast?_append_cons, List.getLast?_singleton] at hlast
    exact hnamed name (by simp) (Option.some.inj hlast)
  have hjoin : ∀ pieces : List String, join ⟨pieces ++ way⟩ more = ⟨pieces ++ way ++ more⟩ := by
    intro pieces
    have hempty : isEmpty ⟨pieces ++ way⟩ = false := by
      by_contra hempty
      simp only [isEmpty, Bool.not_eq_false, Bool.or_eq_true, decide_eq_true_eq] at hempty
      rcases hempty with h | h
      · simp [hway] at h
      · exact hlast pieces (by simp [h])
    rw [join, if_neg (by simp [hempty]), join.withoutEndSlash, if_neg (hlast pieces)]
  cases hempty : path.isEmpty with
  | true =>
      rw [join.eq_def path, join.eq_def path, hempty]
      exact hjoin []
  | false =>
      rw [join.eq_def path, join.eq_def path, hempty]
      simpa using hjoin (join.withoutEndSlash path.pieces)

/-- The text of a path with more names behind it goes on where it ended, behind a slash. -/
theorem text_join_append (path : Path) (hway : way ≠ []) (hmore : more ≠ []) :
    (path.join (way ++ more)).text = (path.join way).text ++ ("/" ++ text ⟨more⟩) := by
  have happend : ∀ pieces : List String, text ⟨pieces ++ way ++ more⟩
      = text ⟨pieces ++ way⟩ ++ ("/" ++ text ⟨more⟩) := by
    intro pieces
    rw [text, String.intercalate_append_of_ne_nil (by simp [hway]) hmore, String.append_assoc]
    rfl
  cases hempty : path.isEmpty with
  | true =>
      rw [join.eq_def path, join.eq_def path, hempty]
      exact happend []
  | false =>
      rw [join.eq_def path, join.eq_def path, hempty]
      simpa using happend (join.withoutEndSlash path.pieces)

/-- A name behind a path makes its text longer. So going down through directories comes to an end at
the longest path. -/
theorem utf8ByteSize_text_lt_join (hempty : path.isEmpty = false) {name : String}
    (hname : name ≠ "") : path.text.utf8ByteSize < (path.join [name]).text.utf8ByteSize := by
  obtain ⟨first, rest, hpieces, hfirst⟩ := exists_pieces_of_isEmpty_eq_false hempty
  obtain ⟨kept, hkept, hrest⟩ := withoutEndSlash_cons hfirst
  have hbehind (last : String) :
      text ⟨first :: (kept ++ [last])⟩ = text ⟨first :: kept⟩ ++ "/" ++ last := by
    rw [text, ← List.cons_append, String.intercalate_append_of_ne_nil (by simp) (by simp)]
    rfl
  have hjoin : (path.join [name]).text = text ⟨first :: kept⟩ ++ "/" ++ name := by
    rw [join, if_neg (by simp [hempty]), hpieces, hkept, List.cons_append, hbehind]
  have hpos : 0 < name.utf8ByteSize := Nat.pos_of_ne_zero (by simpa using hname)
  have hpath : path = ⟨first :: rest⟩ := by rw [← hpieces]
  rw [hjoin, hpath]
  rcases hrest with rfl | rfl
  · simp only [String.utf8ByteSize_append]
    omega
  · simp only [hbehind, String.utf8ByteSize_append]
    have hslash : ("" : String).utf8ByteSize = 0 := rfl
    omega

/-- Names behind a path that are not empty make a path that has a text. -/
theorem isEmpty_join (hway : way ≠ []) (hnamed : ∀ name ∈ way, name ≠ "") :
    (path.join way).isEmpty = false := by
  by_contra hempty
  have hsteps := (steps_join path hway hnamed).1
  have hvoid : (path.join way).steps = [] ∨ (path.join way).steps = [""] := by
    simp only [Bool.not_eq_false, isEmpty, Bool.or_eq_true, decide_eq_true_eq] at hempty
    rcases hempty with h | h <;> simp [steps, isAbsolute, h]
  obtain ⟨front, name, rfl⟩ := way.eq_nil_or_concat'.resolve_left hway
  have hlast : (path.join (front ++ [name])).steps.getLast? = some name := by simp [hsteps]
  rcases hvoid with h | h
  · simp [h] at hlast
  · rw [h] at hlast
    exact hnamed name (by simp) (by simpa using hlast.symm)

end Path

namespace FileTree

open ImageImports.Path

variable {tree : FileTree} {here place : Location} {path : Path} {name : String}
variable {way more : List String}

/-! ### Well-formed trees -/

/-- Every location is given once, by plain names, and everything lies in a directory. A real file
system is like that, and what the program does to it keeps it so. -/
structure WellFormed (tree : FileTree) : Prop where
  /-- There are no two entries for one location. -/
  distinct : (tree.entries.map Prod.fst).Nodup
  /-- Locations are given by plain names. -/
  plain : ∀ entry ∈ tree.entries, ∀ name ∈ entry.1, isPlain name = true
  /-- Around every entry there is a directory. -/
  around : ∀ entry ∈ tree.entries, tree.get? entry.1.dropLast = some .directory
  /-- The program runs in a directory. -/
  working : tree.get? tree.workingDirectory = some .directory

/-- What is at a location other than the root is there by an entry. -/
theorem exists_entry_of_get?_ne_none (hne : place ≠ []) (h : tree.get? place ≠ none) :
    ∃ entry ∈ tree.entries, entry.1 = place := by
  rw [get?, if_neg hne, Ne, Option.map_eq_none_iff, List.find?_eq_none] at h
  simpa using h

/-- The names of the entries in a directory are those under which there is anything. This is what
listing a directory gives, so the collection of documents goes by it. -/
theorem mem_namesIn : name ∈ tree.namesIn here ↔ tree.get? (here ++ [name]) ≠ none := by
  rw [namesIn, List.mem_filterMap]
  constructor
  · rintro ⟨⟨place, entry⟩, hentry, hname⟩
    simp only [Option.ite_none_right_eq_some] at hname
    obtain ⟨hhere, hlast⟩ := hname
    have hplace : place = here ++ [name] := by
      rw [← hhere, List.dropLast_append_getLast? name hlast]
    subst hplace
    rw [get?, if_neg (by simp), Ne, Option.map_eq_none_iff, List.find?_eq_none]
    exact fun hnone => hnone (here ++ [name], entry) hentry (by simp)
  · intro hthere
    obtain ⟨entry, hentry, hplace⟩ := exists_entry_of_get?_ne_none (by simp) hthere
    exact ⟨entry, hentry, by simp [hplace]⟩

namespace WellFormed

variable (hwell : tree.WellFormed)
include hwell

/-- In a well-formed tree everything lies in a directory. -/
theorem grounded : tree.Grounded where
  around place name hthere := by
    obtain ⟨entry, hentry, hplace⟩ := exists_entry_of_get?_ne_none (by simp) hthere
    have haround := hwell.around entry hentry
    rwa [hplace, List.dropLast_concat] at haround
  working := hwell.working

/-- The names that a directory lists are plain. -/
theorem isPlain_of_mem_namesIn (hname : name ∈ tree.namesIn here) : isPlain name = true := by
  obtain ⟨entry, hentry, hplace⟩ :=
    exists_entry_of_get?_ne_none (by simp) (mem_namesIn.1 hname)
  exact hwell.plain entry hentry name (by simp [hplace])

/-- A directory lists no name twice. -/
theorem nodup_namesIn : (tree.namesIn here).Nodup := by
  have hmap : tree.namesIn here = (tree.entries.map Prod.fst).filterMap fun place =>
      if place.dropLast = here then place.getLast? else none := by
    rw [List.filterMap_map]
    rfl
  rw [hmap]
  refine hwell.distinct.filterMap fun place other name hname hother => ?_
  simp only [Option.mem_def, Option.ite_none_right_eq_some] at hname hother
  have hplace : ∀ place : Location, place.dropLast = here → place.getLast? = some name →
      place = here ++ [name] := by
    intro place hdrop hlast
    rw [← hdrop]
    exact (List.dropLast_append_getLast? name hlast).symm
  rw [hplace place hname.1 hname.2, hplace other hother.1 hother.2]

end WellFormed

/-! ### Walks along plain names -/

/-- A step along a plain name leads from a directory to the location behind it, unless the name is
too long. Nothing need be there. -/
theorem step_plain (hname : isPlain name = true) :
    tree.step here name = .ok place ↔ tree.get? here = some .directory
      ∧ name.utf8ByteSize ≤ nameLimit ∧ place = here ++ [name] := by
  obtain ⟨hvoid, hup, -⟩ := isPlain_iff.1 hname
  unfold step
  cases tree.get? here with
  | none => simp
  | some entry =>
      cases entry with
      | file bytes => simp
      | directory =>
          by_cases hlong : nameLimit < name.utf8ByteSize
          · simp only [hvoid, hup, hlong, Bool.false_eq_true, if_false, if_true, reduceCtorEq,
              true_and, false_iff]
            omega
          · simp [hvoid, hup, hlong, Nat.not_lt.1 hlong, eq_comm]

/-- A walk along plain names leads to the location that has these behind that of its start. -/
theorem walk_plain (hway : ∀ name ∈ way, isPlain name = true)
    (hwalk : tree.walk here way = .ok place) : place = here ++ way := by
  induction way generalizing here with
  | nil =>
      cases hwalk
      exact (List.append_nil _).symm
  | cons name rest ih =>
      rw [walk] at hwalk
      split at hwalk
      · cases hwalk
      · rename_i next hstep
        obtain ⟨-, -, rfl⟩ := (step_plain (hway name List.mem_cons_self)).1 hstep
        rw [ih (fun other hother => hway other (List.mem_cons_of_mem _ hother)) hwalk,
          List.append_assoc, List.singleton_append]

/-- What lies below a location makes it that of a directory. -/
theorem Grounded.directory_of_append (hground : tree.Grounded) (hway : way ≠ [])
    (hthere : tree.get? (here ++ way) ≠ none) : tree.get? here = some .directory := by
  induction way using List.reverseRecOn with
  | nil => exact absurd rfl hway
  | append_singleton front name ih =>
      rw [← List.append_assoc] at hthere
      have hfront := hground.around _ _ hthere
      by_cases hnil : front = []
      · rwa [hnil, List.append_nil] at hfront
      · exact ih hnil (by simp [hfront])

/-- A walk along plain names to something that was there before could be made before. -/
theorem Grounded.walk_plain {after : FileTree} (hground : tree.Grounded)
    (hplain : ∀ name ∈ way, isPlain name = true)
    (hthere : tree.get? (here ++ way) ≠ none) (hwalk : after.walk here way = .ok place) :
    tree.walk here way = .ok place := by
  induction way generalizing here with
  | nil => exact hwalk
  | cons name rest ih =>
      have hname := hplain name List.mem_cons_self
      rw [walk] at hwalk ⊢
      split at hwalk
      · cases hwalk
      rename_i next hstep
      obtain ⟨-, hshort, rfl⟩ := (step_plain hname).1 hstep
      have hhere := hground.directory_of_append (List.cons_ne_nil name rest) hthere
      rw [(step_plain hname).2 ⟨hhere, hshort, rfl⟩]
      refine ih (fun other hother => hplain other (List.mem_cons_of_mem _ hother)) ?_ hwalk
      rwa [List.append_assoc, List.singleton_append]

/-- A trail along plain names goes through the locations that have these behind that of its
start. -/
theorem mem_trail_plain (hway : ∀ name ∈ way, isPlain name = true)
    (hplace : place ∈ (tree.trail here way).1) :
    ∃ front, front ≠ [] ∧ front <+: way ∧ place = here ++ front := by
  induction way generalizing here with
  | nil => cases hplace
  | cons name rest ih =>
      obtain ⟨hvoid, hup, -⟩ := isPlain_iff.1 (hway name List.mem_cons_self)
      rw [trail, if_neg (by simp [hvoid]), if_neg hup] at hplace
      split at hplace
      · cases hplace
      · rcases List.mem_cons.1 hplace with rfl | hplace
        · exact ⟨[name], by simp, by simp, rfl⟩
        · obtain ⟨front, -, hfront, rfl⟩ :=
            ih (fun other hother => hway other (List.mem_cons_of_mem _ hother)) hplace
          exact ⟨name :: front, by simp, (List.prefix_cons_inj name).2 hfront, by simp⟩

/-- A trail along plain names ends at the location that has these behind that of its start. -/
theorem trail_plain (hway : ∀ name ∈ way, isPlain name = true) {last : Location}
    (hlast : (tree.trail here way).2 = some last) : last = here ++ way := by
  induction way generalizing here with
  | nil =>
      cases hlast
      exact (List.append_nil _).symm
  | cons name rest ih =>
      obtain ⟨hvoid, hup, -⟩ := isPlain_iff.1 (hway name List.mem_cons_self)
      rw [trail, if_neg (by simp [hvoid]), if_neg hup] at hlast
      split at hlast
      · cases hlast
      · rw [ih (fun other hother => hway other (List.mem_cons_of_mem _ hother)) hlast,
          List.append_assoc, List.singleton_append]

/-! ### Names behind the path of a directory -/

/-- Names behind the path of a directory lead from it. The walk to the directory is left out, which
lets all that lies below be told from one place. -/
theorem locate_join (hlocate : tree.locate path = .ok here) (hway : way ≠ [])
    (hnamed : ∀ name ∈ way, name ≠ "") (hfault : textFault? (path.join way) = none) :
    tree.locate (path.join way) = tree.walk here way := by
  have hempty : path.isEmpty = false := by
    by_contra hempty
    rw [locate, textFault?, if_pos (by simpa using hempty)] at hlocate
    cases hlocate
  obtain ⟨hsteps, habsolute⟩ := steps_join path hway hnamed
  have hwalk : tree.walk (tree.start path) path.steps = .ok here := by
    rw [locate] at hlocate
    split at hlocate
    · cases hlocate
    · exact hlocate
  have hbase : tree.walk (tree.start path) path.base = .ok here := by
    rcases steps_eq_base hempty with h | h
    · rwa [← h]
    · rw [h, walk_append] at hwalk
      split at hwalk
      · cases hwalk
      · rename_i last hlast
        -- A slash at the end leads to the directory that is there already.
        cases hget : tree.get? last with
        | none => simp [walk, step, hget] at hwalk
        | some entry =>
            cases entry with
            | file bytes => simp [walk, step, hget] at hwalk
            | directory =>
                simp [walk, step, hget, isVoid] at hwalk
                rw [hlast, hwalk]
  rw [locate, hfault, hsteps, start, habsolute, walk_append]
  rw [start] at hbase
  rw [hbase]

end FileTree

end ImageImports
