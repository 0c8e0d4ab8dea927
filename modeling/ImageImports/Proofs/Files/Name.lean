import ImageImports.Files.Path
import Mathlib.Data.List.TakeWhile

/-!
# `ImageImports.Proofs.Files.Name`: names and their extensions

A name with an extension is a stem, a dot and the extension, which holds no further dot
(`Path.splitName_eq_some_iff`). With another extension it is the same stem with that behind it,
unless the stem is a single dot (`Path.renamed_append`).
-/

set_option autoImplicit false

namespace ImageImports.Path

variable {name stem found : String}

/-- The characters of a name up to its last dot, from the end. -/
theorem reverse_toList_append (stem found : String) :
    (stem ++ "." ++ found).toList.reverse
      = found.toList.reverse ++ '.' :: stem.toList.reverse := by
  simp

/-- A name that is put together is split where it was put together. -/
theorem splitName_append (hstem : stem ≠ "") (hfound : '.' ∉ found.toList)
    (hup : stem ++ "." ++ found ≠ "..") :
    splitName (stem ++ "." ++ found) = some (stem, found) := by
  -- Read from its end, the name is the extension, which has no dot, up to the first dot.
  have hno : ∀ c ∈ found.toList.reverse, decide (c ≠ '.') = true := by
    intro c hc
    rw [List.mem_reverse] at hc
    exact decide_eq_true fun heq => hfound (heq ▸ hc)
  have hafter : ((stem ++ "." ++ found).toList.reverse).takeWhile (· ≠ '.')
      = found.toList.reverse := by
    rw [reverse_toList_append, List.takeWhile_append_of_pos hno]
    simp
  have hbefore : ((stem ++ "." ++ found).toList.reverse).dropWhile (· ≠ '.')
      = '.' :: stem.toList.reverse := by
    rw [reverse_toList_append, List.dropWhile_append_of_pos hno]
    simp
  obtain ⟨c, before, hcons⟩ : ∃ c before, stem.toList.reverse = c :: before :=
    List.exists_cons_of_ne_nil (by simpa using hstem)
  have hback : (c :: before).reverse = stem.toList := by rw [← hcons, List.reverse_reverse]
  unfold splitName
  simp only [hafter, hbefore, hcons]
  rw [if_neg hup, hback]
  simp

/-- A name is split at its last dot, and there is a stem in front of it. The step up is no name with
an extension. -/
theorem splitName_eq_some_iff :
    splitName name = some (stem, found)
      ↔ name = stem ++ "." ++ found ∧ stem ≠ "" ∧ '.' ∉ found.toList ∧ name ≠ ".." := by
  constructor
  · intro h
    unfold splitName at h
    simp only at h
    split at h
    · rename_i dot c before hdrop
      split at h
      · cases h
      rename_i hup
      obtain ⟨rfl, rfl⟩ := Prod.mk.inj (Option.some.inj h)
      -- What is left after the extension starts with the dot that ended it.
      have hdot : dot = '.' := by
        have hne : name.toList.reverse.dropWhile (· ≠ '.') ≠ [] := by rw [hdrop]; simp
        have hhead := List.head_dropWhile_not (fun c => decide (c ≠ '.')) hne
        simp only [hdrop, List.head_cons] at hhead
        simpa using hhead
      have hsplit : name.toList.reverse
          = name.toList.reverse.takeWhile (· ≠ '.') ++ '.' :: c :: before := by
        have hwhole := List.takeWhile_append_dropWhile (p := fun c => decide (c ≠ '.'))
          (l := name.toList.reverse)
        rw [hdrop, hdot] at hwhole
        exact hwhole.symm
      refine ⟨?_, by simp, fun hmem => ?_, hup⟩
      · rw [← String.toList_inj, ← List.reverse_inj, reverse_toList_append, String.toList_ofList,
          String.toList_ofList, List.reverse_reverse, List.reverse_reverse]
        exact hsplit
      · simp only [String.toList_ofList, List.mem_reverse] at hmem
        simpa using List.mem_takeWhile_imp hmem
    · cases h
  · rintro ⟨rfl, hstem, hfound, hup⟩
    exact splitName_append hstem hfound hup

/-- A name gets another extension behind its stem. The stem that is a single dot cannot keep one:
what comes of it names the directory above. -/
theorem renamed_append (hstem : stem ≠ "") (hfound : '.' ∉ found.toList)
    (hup : stem ++ "." ++ found ≠ "..") (extension : String) :
    renamed (stem ++ "." ++ found) extension
      = if stem = "." then ".." else stem ++ "." ++ extension := by
  rw [renamed, splitName_append hstem hfound hup]

end ImageImports.Path
