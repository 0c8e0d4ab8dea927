import ImageImports.Files.Tree
import Mathlib.Data.List.DropRight

/-!
# `ImageImports.Proofs.Files.Path`: paths and the paths around them

A path without pieces at its end that say nothing is trimmed (`Path.Trimmed`). Such a path has no
text, is the root of all files, or has a last step and a path around it that is trimmed again
(`Path.Splits`). Everything about the chain of paths around a path is proved along these three
cases.
-/

set_option autoImplicit false

namespace ImageImports.Path

/-- The pieces that say something. The others, empty ones and single dots, are passed over on a
walk. -/
def telling (pieces : List String) : List String := pieces.filter fun piece => !isVoid piece

/-- Of no pieces none says anything. -/
@[simp]
theorem telling_nil : telling [] = [] := rfl

/-- What two groups of pieces say is what each of them says. -/
theorem telling_append (pieces more : List String) :
    telling (pieces ++ more) = telling pieces ++ telling more :=
  List.filter_append _ _

/-- A piece that says something is kept. -/
theorem telling_singleton {name : String} (h : isVoid name = false) : telling [name] = [name] :=
  List.filter_cons_of_pos (by simp [h])

/-- A piece that says nothing is left out. -/
theorem telling_cons_void {piece : String} (h : isVoid piece = true) (pieces : List String) :
    telling (piece :: pieces) = telling pieces :=
  List.filter_cons_of_neg (by simp [h])

/-- A piece that says something is not empty. -/
theorem ne_empty_of_telling {name : String} (h : isVoid name = false) : name ≠ "" := by
  rintro rfl
  cases h

/-! ### Void ends -/

/-- Pieces that end in one that says something have no void end. -/
theorem withoutVoidEnd_concat {name : String} (h : isVoid name = false) (pieces : List String) :
    withoutVoidEnd (pieces ++ [name]) = pieces ++ [name] :=
  List.rdropWhile_concat_neg _ _ _ (by simp [h])

/-- Only the end is taken away. -/
theorem withoutVoidEnd_isPrefix (pieces : List String) : withoutVoidEnd pieces <+: pieces :=
  List.rdropWhile_prefix isVoid pieces

/-- What is left of some pieces ends in one that says something. -/
theorem withoutVoidEnd_cases (pieces : List String) :
    withoutVoidEnd pieces = []
      ∨ ∃ front name, withoutVoidEnd pieces = front ++ [name] ∧ isVoid name = false := by
  rcases (withoutVoidEnd pieces).eq_nil_or_concat' with hnil | ⟨front, name, hlast⟩
  · exact .inl hnil
  · have hne : List.rdropWhile isVoid pieces ≠ [] := by
      rw [show List.rdropWhile isVoid pieces = withoutVoidEnd pieces from rfl, hlast]
      simp
    have hvoid := List.rdropWhile_last_not isVoid pieces hne
    have hname : (List.rdropWhile isVoid pieces).getLast hne = name := by
      simp only [show List.rdropWhile isVoid pieces = withoutVoidEnd pieces from rfl, hlast,
        List.getLast_append_singleton]
    rw [hname] at hvoid
    exact .inr ⟨front, name, hlast, by simpa using hvoid⟩

/-- What is taken away says nothing. -/
theorem telling_withoutVoidEnd (pieces : List String) :
    telling (withoutVoidEnd pieces) = telling pieces := by
  induction pieces using List.reverseRecOn with
  | nil => rfl
  | append_singleton front name ih =>
      by_cases hvoid : isVoid name = true
      · have hdrop : withoutVoidEnd (front ++ [name]) = withoutVoidEnd front :=
          List.rdropWhile_concat_pos _ _ _ hvoid
        rw [hdrop, ih, telling_append, telling_cons_void hvoid, telling_nil, List.append_nil]
      · rw [withoutVoidEnd_concat (by simpa using hvoid)]

/-! ### Trimmed paths -/

/-- A path whose last piece says something, or one too short for that. The paths around a path are
of this kind, whatever the path itself is. -/
inductive Trimmed : Path → Prop where
  | empty : Trimmed ⟨[""]⟩
  | root : Trimmed ⟨["", ""]⟩
  | single {first : String} (hfirst : first ≠ "") : Trimmed ⟨[first]⟩
  | longer {first name : String} {front : List String} (hname : isVoid name = false) :
      Trimmed ⟨first :: (front ++ [name])⟩

/-- The number of paths in the chain of paths around a trimmed path. It goes down by one with each
step up, so the chain ends. -/
def weight (path : Path) : Nat :=
  if path.isEmpty then 0 else (telling (path.pieces.drop 1)).length + 1

/-- The chain of paths around a path is no longer than the path. -/
theorem weight_le_length (path : Path) : path.weight ≤ path.pieces.length := by
  unfold weight
  split
  · exact Nat.zero_le _
  · rename_i hempty
    have hpos : path.pieces.length ≠ 0 := fun h => hempty (by
      simp [isEmpty, List.length_eq_zero_iff.1 h])
    have hfilter : (telling (path.pieces.drop 1)).length ≤ (path.pieces.drop 1).length :=
      List.length_filter_le _ _
    rw [List.length_drop] at hfilter
    omega

/-- A path with a last step, and the path around it. All that is said of a path and its parent later
on is said of such a pair, so that absolute and relative paths need not be told apart. -/
structure Splits (path above : Path) (front : List String) (name : String) : Prop where
  /-- The path around it is its parent. -/
  parent : path.parent? = some above
  /-- The parent is trimmed. -/
  trimmed : above.Trimmed
  /-- The steps of the path are some steps in front of the last one. -/
  steps : path.steps = front ++ [name]
  /-- The last step is no slash at the end. -/
  named : name ≠ ""
  /-- The steps in front of the last one are those of the parent, as far as they say something. -/
  around : telling above.steps = telling front
  /-- Only a single step may say nothing. -/
  telling : isVoid name = true → front = []
  /-- Both paths start at the same place. -/
  absolute : above.isAbsolute = path.isAbsolute
  /-- The chain of the parent is shorter by one. -/
  weight : above.weight + 1 = path.weight
  /-- The text of the path starts with that of the parent. -/
  text : ∃ rest, path.text = above.text ++ rest

/-! ### Paths from the root and others -/

/-- A path of two pieces or more is absolute exactly if the first one is empty. -/
theorem isAbsolute_cons_cons {first second : String} {rest : List String} :
    isAbsolute ⟨first :: second :: rest⟩ = decide (first = "") := by
  unfold isAbsolute
  split
  · rename_i h
    simp [(List.cons.inj h).1]
  · rename_i h
    have hfirst : first ≠ "" := fun heq => h second rest (by rw [heq])
    simp [hfirst]

/-- A path whose first piece is not empty is relative. -/
theorem isAbsolute_of_ne {first : String} (h : first ≠ "") (rest : List String) :
    isAbsolute ⟨first :: rest⟩ = false := by
  cases rest with
  | nil =>
      unfold isAbsolute
      split
      · rename_i heq
        cases heq
      · rfl
  | cons second rest => rw [isAbsolute_cons_cons, decide_eq_false h]

/-- All pieces of a relative path are steps. -/
theorem steps_of_ne {first : String} (h : first ≠ "") (rest : List String) :
    steps ⟨first :: rest⟩ = first :: rest := by
  rw [steps, isAbsolute_of_ne h]
  rfl

/-- The steps of an absolute path are the pieces behind the first slash. -/
theorem steps_absolute (second : String) (rest : List String) :
    steps ⟨"" :: second :: rest⟩ = second :: rest := by
  rw [steps, isAbsolute_cons_cons]
  rfl

/-! The pieces of a path from the root that has a last step. -/

/-- The last piece of an absolute path is its last step. -/
theorem steps_absolute_concat (front : List String) (name : String) :
    steps ⟨"" :: (front ++ [name])⟩ = front ++ [name] := by
  cases front <;> exact steps_absolute _ _

/-- A path whose first piece is the empty one in front of a slash is absolute. -/
theorem isAbsolute_absolute_concat (front : List String) (name : String) :
    isAbsolute ⟨"" :: (front ++ [name])⟩ = true := by
  cases front <;> exact isAbsolute_cons_cons

/-- The chain of paths around an absolute path has one for each piece that says something, and one
for the root. -/
theorem weight_absolute_concat (front : List String) (name : String) :
    weight ⟨"" :: (front ++ [name])⟩ = (telling (front ++ [name])).length + 1 := by
  have hempty : isEmpty ⟨"" :: (front ++ [name])⟩ = false := by simp [isEmpty]
  rw [weight, hempty]
  rfl

/-- The path around a relative path is the path without its last piece, or the empty one if there is
no other piece. -/
theorem parent?_of_ne {first : String} (h : first ≠ "") (rest : List String) :
    parent? ⟨first :: rest⟩
      = match withoutVoidEnd rest with
        | [] => some ⟨[""]⟩
        | pieces => some ⟨first :: withoutVoidEnd pieces.dropLast⟩ := by
  unfold parent?
  split
  · rename_i heq
    exact absurd (List.cons.inj heq).1 h
  · rename_i heq
    exact absurd (List.cons.inj heq).1 h
  · rename_i heq
    obtain ⟨rfl, rfl⟩ := List.cons.inj heq
    rfl
  · rename_i heq
    cases heq

/-- The path around an absolute path is the path without its last piece, or the root; the root
itself has none. -/
theorem parent?_absolute (second : String) (rest : List String) :
    parent? ⟨"" :: second :: rest⟩
      = match withoutVoidEnd (second :: rest) with
        | [] => none
        | pieces =>
            match withoutVoidEnd pieces.dropLast with
            | [] => some ⟨["", ""]⟩
            | above => some ⟨"" :: above⟩ := rfl

/-- What is in front of a last piece that says something makes the path around it. -/
theorem parent?_concat_of_ne {first name : String} (h : first ≠ "") (front : List String)
    (hname : isVoid name = false) :
    parent? ⟨first :: (front ++ [name])⟩ = some ⟨first :: withoutVoidEnd front⟩ := by
  rw [parent?_of_ne h, withoutVoidEnd_concat hname]
  split
  · rename_i heq
    simp at heq
  · rw [List.dropLast_concat]

/-- What is in front of the last piece of an absolute path makes the path around it, which is the
root if nothing is left. -/
theorem parent?_concat_absolute (front : List String) {name : String}
    (hname : isVoid name = false) :
    parent? ⟨"" :: (front ++ [name])⟩
      = some (if withoutVoidEnd front = [] then ⟨["", ""]⟩ else ⟨"" :: withoutVoidEnd front⟩) := by
  obtain ⟨second, rest, hcons⟩ : ∃ second rest, front ++ [name] = second :: rest :=
    List.exists_cons_of_ne_nil (by simp)
  -- The definition asks for a second piece, whatever is in front of the last one.
  rw [hcons, parent?_absolute, ← hcons, withoutVoidEnd_concat hname]
  split
  · rename_i heq
    simp at heq
  · rw [List.dropLast_concat]
    split
    · rename_i hnil
      rw [if_pos hnil]
    · rename_i hne
      rw [if_neg hne]

/-- A path whose first piece is not empty has a text. -/
theorem isEmpty_cons_of_ne {first : String} (h : first ≠ "") (rest : List String) :
    isEmpty ⟨first :: rest⟩ = false := by
  simp [isEmpty, h]

/-- The path that some pieces make below another piece is trimmed if the pieces are. -/
theorem trimmed_withoutVoidEnd {first : String} (h : first ≠ "") (front : List String) :
    Trimmed ⟨first :: withoutVoidEnd front⟩ := by
  rcases withoutVoidEnd_cases front with hnil | ⟨before, name, hlast, hname⟩
  · rw [hnil]
    exact .single h
  · rw [hlast]
    exact .longer hname

/-- The text of a path goes on from the text of the pieces that it begins with. -/
theorem exists_text_append {pieces front : List String} (hfront : front ≠ [])
    (h : front <+: pieces) : ∃ rest, text ⟨pieces⟩ = text ⟨front⟩ ++ rest := by
  obtain ⟨more, rfl⟩ := h
  by_cases hmore : more = []
  · exact ⟨"", by simp [hmore]⟩
  · refine ⟨"/" ++ text ⟨more⟩, ?_⟩
    rw [text, String.intercalate_append_of_ne_nil hfront hmore, String.append_assoc]
    rfl

/-! ### One step up -/

/-- A relative path of one piece lies in the directory in which its way starts. -/
theorem splits_single {first : String} (h : first ≠ "") :
    Splits ⟨[first]⟩ ⟨[""]⟩ [] first where
  parent := by rw [parent?_of_ne h]; rfl
  trimmed := .empty
  steps := steps_of_ne h []
  named := h
  around := rfl
  telling _ := rfl
  absolute := (isAbsolute_of_ne h []).symm
  weight := by
    rw [weight, weight, isEmpty_cons_of_ne h]
    rfl
  text := ⟨first, by simp [text]⟩

/-- A relative path of several pieces lies in the path that the others make. -/
theorem splits_relative {first name : String} (h : first ≠ "") (front : List String)
    (hname : isVoid name = false) :
    Splits ⟨first :: (front ++ [name])⟩ ⟨first :: withoutVoidEnd front⟩ (first :: front) name where
  parent := parent?_concat_of_ne h front hname
  trimmed := trimmed_withoutVoidEnd h front
  steps := steps_of_ne h _
  named := ne_empty_of_telling hname
  around := by
    rw [steps_of_ne h, ← List.singleton_append, telling_append, telling_withoutVoidEnd,
      ← telling_append]
    rfl
  telling hvoid := by rw [hname] at hvoid; cases hvoid
  absolute := by rw [isAbsolute_of_ne h, isAbsolute_of_ne h]
  weight := by
    rw [weight, weight, isEmpty_cons_of_ne h, isEmpty_cons_of_ne h]
    simp [telling_append, telling_withoutVoidEnd, telling_singleton hname]
  text := exists_text_append (by simp)
    (List.prefix_cons_inj first |>.2
      ((withoutVoidEnd_isPrefix front).trans (List.prefix_append _ _)))

/-- An absolute path with a piece that says something lies in another absolute path. -/
theorem splits_absolute {name : String} (front : List String) (hname : isVoid name = false) :
    ∃ above, Splits ⟨"" :: (front ++ [name])⟩ above front name := by
  have hparent := parent?_concat_absolute front hname
  have hvoid : isVoid name = true → front = [] := fun h => by
    rw [hname] at h
    cases h
  have hsteps := steps_absolute_concat front name
  have habsolute := isAbsolute_absolute_concat front name
  have hweight : weight ⟨"" :: (front ++ [name])⟩ = (telling front).length + 2 := by
    rw [weight_absolute_concat, telling_append, telling_singleton hname, List.length_append]
    rfl
  rcases withoutVoidEnd_cases front with hnil | ⟨before, last, hlast, hlastName⟩
  · -- Nothing in front of the last step says anything, so the root is around the path.
    have hfront : telling front = [] := by rw [← telling_withoutVoidEnd, hnil, telling_nil]
    rw [if_pos hnil] at hparent
    refine ⟨_, hparent, .root, hsteps, ne_empty_of_telling hname, hfront.symm, hvoid,
      habsolute.symm, ?_, ?_⟩
    · rw [hweight, hfront]
      rfl
    · exact ⟨String.intercalate "/" (front ++ [name]), by
        rw [text, String.intercalate_cons_of_ne_nil (by simp)]
        rfl⟩
  · -- What is left of the pieces in front ends in one that says something and makes the path
    -- Around it, again from the root.
    rw [if_neg (by simp [hlast]), hlast] at hparent
    have htelling : telling (before ++ [last]) = telling front := by
      rw [← hlast, telling_withoutVoidEnd]
    have habove := isAbsolute_absolute_concat before last
    refine ⟨_, hparent, .longer hlastName, hsteps, ne_empty_of_telling hname,
      by rw [steps_absolute_concat, htelling], hvoid, habove.trans habsolute.symm, ?_, ?_⟩
    · rw [hweight, weight_absolute_concat, htelling]
    · exact exists_text_append (by simp) (List.prefix_cons_inj "" |>.2
        (hlast ▸ (withoutVoidEnd_isPrefix front).trans (List.prefix_append _ _)))

/-- A trimmed path has no text, is the root, or has a path around it. -/
theorem Trimmed.cases {path : Path} (h : path.Trimmed) :
    path = ⟨[""]⟩ ∨ path = ⟨["", ""]⟩
      ∨ path.isEmpty = false ∧ ∃ above front name, path.Splits above front name := by
  cases h with
  | empty => exact .inl rfl
  | root => exact .inr (.inl rfl)
  | @single first hfirst =>
      exact .inr (.inr ⟨isEmpty_cons_of_ne hfirst [], _, _, _, splits_single hfirst⟩)
  | @longer first name front hname =>
      refine .inr (.inr ?_)
      by_cases hfirst : first = ""
      · subst hfirst
        obtain ⟨above, hsplits⟩ := splits_absolute front hname
        exact ⟨by simp [isEmpty], above, front, name, hsplits⟩
      · exact ⟨isEmpty_cons_of_ne hfirst _, _, _, _, splits_relative hfirst front hname⟩

end ImageImports.Path
