import ImageImports.Proofs.Files.Below

/-!
# `ImageImports.Proofs.Files.WellFormed`: trees stay well-formed

The operations that change a tree put an entry into a directory, under a name that is a piece of a
path. If the pieces of the path hold no slash, which is so for every path that a text writes
(`Path.unslashed_ofText`), the tree is as well-formed afterwards as before
(`WellFormed.makeDirectory`, `WellFormed.write`).
-/

set_option autoImplicit false

namespace ImageImports

/-! ### Paths without slashes in their pieces -/

namespace Path

/-- No piece of a path holds a slash. Paths that are read from a text are of this kind, and so are
all that are made of them. -/
def Unslashed (path : Path) : Prop := ∀ piece ∈ path.pieces, '/' ∉ piece.toList

variable {path above : Path} {pieces : List String} {name : String}

/-- Splitting a text at its slashes leaves none in the pieces. -/
theorem slash_notMem_of_mem_splitAtSlashes {piece : List Char} :
    ∀ {text : List Char}, piece ∈ splitAtSlashes text → '/' ∉ piece := by
  intro text
  induction text generalizing piece with
  | nil =>
      intro hpiece
      rw [List.mem_singleton.1 hpiece]
      exact List.not_mem_nil
  | cons c rest ih =>
      intro hpiece
      rw [splitAtSlashes] at hpiece
      by_cases hc : c = '/'
      · rw [if_pos hc] at hpiece
        rcases List.mem_cons.1 hpiece with rfl | hpiece
        · exact List.not_mem_nil
        · exact ih hpiece
      rw [if_neg hc] at hpiece
      -- Any other character goes to the piece that the rest begins with.
      have hfirst {first : List Char} (hmem : '/' ∉ first) : '/' ∉ c :: first := by
        simpa [Ne.symm hc] using hmem
      cases hsplit : splitAtSlashes rest with
      | nil =>
          rw [hsplit] at hpiece
          rw [List.mem_singleton.1 hpiece]
          exact hfirst List.not_mem_nil
      | cons first others =>
          rw [hsplit] at hpiece ih
          rcases List.mem_cons.1 hpiece with rfl | hpiece
          · exact hfirst (ih List.mem_cons_self)
          · exact ih (List.mem_cons_of_mem _ hpiece)

/-- The pieces of a text between slashes hold none. -/
theorem unslashed_ofText (text : String) : (ofText text).Unslashed := by
  intro piece hpiece
  obtain ⟨chars, hchars, rfl⟩ := List.mem_map.1 hpiece
  rw [String.toList_ofList]
  exact slash_notMem_of_mem_splitAtSlashes hchars

/-- The path around a path has no other pieces, but for empty ones. -/
theorem mem_pieces_of_parent {piece : String} (hparent : path.parent? = some above)
    (hpiece : piece ∈ above.pieces) : piece ∈ path.pieces ∨ piece = "" := by
  have hback {pieces : List String}
      (h : piece ∈ withoutVoidEnd (withoutVoidEnd pieces).dropLast) : piece ∈ pieces :=
    (withoutVoidEnd_isPrefix _).subset
      (List.dropLast_subset _ ((withoutVoidEnd_isPrefix _).subset h))
  rcases path with ⟨_ | ⟨first, rest⟩⟩
  · cases hparent
  by_cases hfirst : first = ""
  · subst hfirst
    cases rest with
    | nil => cases hparent
    | cons second rest =>
        rw [parent?_absolute] at hparent
        split at hparent
        · cases hparent
        -- The root is around a path from the root that says no more than one step.
        split at hparent
        · obtain rfl := Option.some.inj hparent
          exact .inr (by simpa using hpiece)
        · obtain rfl := Option.some.inj hparent
          rcases List.mem_cons.1 hpiece with rfl | hpiece
          · exact .inr rfl
          · exact .inl (List.mem_cons_of_mem _ (hback hpiece))
  · rw [parent?_of_ne hfirst] at hparent
    split at hparent
    · obtain rfl := Option.some.inj hparent
      exact .inr (List.mem_singleton.1 hpiece)
    · obtain rfl := Option.some.inj hparent
      rcases List.mem_cons.1 hpiece with rfl | hpiece
      · exact .inl List.mem_cons_self
      · exact .inl (List.mem_cons_of_mem _ (hback hpiece))

/-- The path around a path without slashes in its pieces has none in them either. -/
theorem Unslashed.parent (h : path.Unslashed) (hparent : path.parent? = some above) :
    above.Unslashed := by
  intro piece hpiece
  rcases mem_pieces_of_parent hparent hpiece with hmem | rfl
  · exact h piece hmem
  · exact List.not_mem_nil

/-- The paths in the chain around a path without slashes in its pieces have none in them. -/
theorem unslashed_of_mem_go {other : Path} :
    ∀ (more : Nat) (path : Path), path.Unslashed → other ∈ ancestors.go more path →
      other.Unslashed := by
  intro more
  induction more with
  | zero =>
      intro path _ hother
      cases hother
  | succ more ih =>
      intro path h hother
      rw [ancestors.go] at hother
      split at hother
      · cases hother
      cases hparent : path.parent? with
      | none =>
          rw [hparent] at hother
          rwa [List.mem_singleton.1 hother]
      | some above =>
          rw [hparent] at hother
          rcases List.mem_cons.1 hother with rfl | hother
          · exact h
          · exact ih above (h.parent hparent) hother

/-- The paths around a path without slashes in its pieces have none in them. -/
theorem Unslashed.ancestors (h : path.Unslashed) {other : Path} (hother : other ∈ path.ancestors) :
    other.Unslashed :=
  unslashed_of_mem_go _ path h hother

/-- Names without slashes can be put behind a path without slashes in its pieces. -/
theorem Unslashed.join (h : path.Unslashed) {way : List String}
    (hway : ∀ name ∈ way, '/' ∉ name.toList) : (path.join way).Unslashed := by
  intro piece hpiece
  rw [Path.join] at hpiece
  split at hpiece
  · exact hway piece hpiece
  rcases List.mem_append.1 hpiece with hpiece | hpiece
  · rw [join.withoutEndSlash] at hpiece
    split at hpiece
    · exact h piece (List.dropLast_subset _ hpiece)
    · exact h piece hpiece
  · exact hway piece hpiece

/-- The steps of a path without slashes in its pieces hold none. -/
theorem Unslashed.steps (h : path.Unslashed) {piece : String} (hpiece : piece ∈ path.steps) :
    '/' ∉ piece.toList := by
  rw [Path.steps] at hpiece
  split at hpiece
  · exact h piece (List.drop_subset _ _ hpiece)
  · exact h piece hpiece

end Path

namespace FileTree

open ImageImports.Path

variable {tree after : FileTree} {front place : Location} {path : Path} {name : String}
variable {entry : Entry}

/-! ### What is put into a tree -/

/-- The entries after one was put are that one and old ones. -/
theorem mem_replace {entries : List (Location × Entry)} {other : Location × Entry}
    (h : other ∈ put.replace place entry entries) : other = (place, entry) ∨ other ∈ entries := by
  induction entries with
  | nil => exact .inl (List.mem_singleton.1 h)
  | cons first rest ih =>
      rw [put.replace] at h
      split at h
      · exact (List.mem_cons.1 h).imp_right (List.mem_cons_of_mem _)
      · rcases List.mem_cons.1 h with rfl | h
        · exact .inr List.mem_cons_self
        · exact (ih h).imp_right (List.mem_cons_of_mem _)

/-- No location is given twice after an entry was put at one. -/
theorem nodup_replace {entries : List (Location × Entry)} (h : (entries.map Prod.fst).Nodup) :
    ((put.replace place entry entries).map Prod.fst).Nodup := by
  induction entries with
  | nil => simp [put.replace]
  | cons first rest ih =>
      obtain ⟨hfirst, hrest⟩ := List.nodup_cons.1 h
      rw [put.replace]
      split
      · rename_i hplace
        exact List.nodup_cons.2 ⟨hplace ▸ hfirst, hrest⟩
      · rename_i hplace
        refine List.nodup_cons.2 ⟨fun hmem => ?_, ih hrest⟩
        obtain ⟨other, hother, hsame⟩ := List.mem_map.1 hmem
        rcases mem_replace hother with rfl | hother
        · exact hplace hsame.symm
        · exact hfirst (List.mem_map.2 ⟨other, hother, hsame⟩)

/-- What is put into a directory under a plain name leaves a tree well-formed, unless it takes the
place of a directory without being one. -/
theorem WellFormed.put (hwell : tree.WellFormed) (hfront : tree.get? front = some .directory)
    (hname : isPlain name = true)
    (hplace : tree.get? (front ++ [name]) ≠ some .directory ∨ entry = .directory) :
    (tree.put (front ++ [name]) entry).WellFormed where
  distinct := nodup_replace hwell.distinct
  plain other hother := by
    rcases mem_replace hother with rfl | hother
    -- The new entry lies in a directory of the tree, whose own way is plain already.
    · intro piece hpiece
      rcases List.mem_append.1 hpiece with hpiece | hpiece
      · by_cases hroot : front = []
        · rw [hroot] at hpiece
          cases hpiece
        · have hthere : tree.get? front ≠ none := by simp [hfront]
          obtain ⟨found, hfound, rfl⟩ := exists_entry_of_get?_ne_none hroot hthere
          exact hwell.plain found hfound piece hpiece
      · rwa [List.mem_singleton.1 hpiece]
    · exact hwell.plain other hother
  around other hother := by
    refine get?_put_directory (by simp) hplace ?_
    rcases mem_replace hother with rfl | hother
    · rwa [List.dropLast_concat]
    · exact hwell.around other hother
  working := get?_put_directory (by simp) hplace hwell.working

/-- A place for a new entry is in a directory, under a piece of the path that names it. -/
theorem locateNew_eq_some (hpath : path.Unslashed) (h : tree.locateNew path = .ok (some place)) :
    ∃ front name, place = front ++ [name] ∧ tree.get? front = some .directory
      ∧ isPlain name = true := by
  rw [locateNew] at h
  split at h
  · cases h
  simp only at h
  split at h
  · cases h
  rename_i location hwalk
  split at h
  · rename_i piece hlast
    split at h
    · cases h
    rename_i hnamed
    obtain rfl := Option.some.inj (Except.ok.inj h)
    rw [Bool.or_eq_true, decide_eq_true_eq, not_or, Bool.not_eq_true] at hnamed
    -- The walk ends with a step under the last piece, which is the name.
    have hpieces := List.dropLast_append_getLast? piece hlast
    have hplain : isPlain piece = true := by
      refine isPlain_iff.2 ⟨hnamed.1, hnamed.2, hpath.steps ?_⟩
      exact (List.rdropWhile_prefix _ _).subset (List.mem_of_getLast? hlast)
    rw [← hpieces, walk_append] at hwalk
    split at hwalk
    · cases hwalk
    rename_i front _
    rw [walk] at hwalk
    split at hwalk
    · cases hwalk
    rename_i next hstep
    obtain ⟨hfront, -, rfl⟩ := (step_plain hplain).1 hstep
    exact ⟨front, piece, (Except.ok.inj hwalk).symm, hfront, hplain⟩
  · cases h

/-- A tree is as well-formed with a new directory as without. -/
theorem WellFormed.makeDirectory (hwell : tree.WellFormed) (hpath : path.Unslashed)
    (h : tree.makeDirectory path = .ok after) : after.WellFormed := by
  rw [FileTree.makeDirectory] at h
  split at h
  · cases h
  · cases h
  rename_i place hnew
  obtain ⟨front, name, rfl, hfront, hname⟩ := locateNew_eq_some hpath hnew
  split at h
  · cases h
  · obtain rfl := Except.ok.inj h
    exact hwell.put hfront hname (.inr rfl)

/-- A tree is as well-formed after a file was written as before. -/
theorem WellFormed.write (hwell : tree.WellFormed) (hpath : path.Unslashed) {text : String}
    (h : tree.write path text = .ok after) : after.WellFormed := by
  rw [FileTree.write, writeBytes] at h
  split at h
  · cases h
  · cases h
  rename_i place hnew
  obtain ⟨front, name, rfl, hfront, hname⟩ := locateNew_eq_some hpath hnew
  split at h
  · cases h
  split at h
  · cases h
  · rename_i hfree
    obtain rfl := Except.ok.inj h
    exact hwell.put hfront hname (.inl fun hdirectory => hfree hdirectory)

end FileTree

end ImageImports
