import ImageImports.Image.Url

/-!
# `ImageImports.Proofs.Image.Url`: where images are imported from

The addresses fall into three classes by how they begin: absolute ones (`IsAbsolute`), ones that are
relative to the document (`IsRelative`), and bare ones, which are neither. What becomes of an
address depends on its class alone (`importTarget?_eq_some_iff`). The place of a bare address below
the directory of all content begins like a relative one, whatever the directory of the source and
the address itself are. So an address that was resolved is never taken for an absolute one and never
resolved again.

Main statement: `importTarget?_policy`.
-/

set_option autoImplicit false

namespace ImageImports

/-! ### Classes of addresses -/

/-- That an address starts at the root of a host, with or without its scheme. One slash behind the
scheme is enough. -/
def IsAbsolute (url : String) : Prop :=
  "/".toList <+: url.toList ∨ "http:/".toList <+: url.toList ∨ "https:/".toList <+: url.toList

/-- That an address starts at the directory of the document or the one above it. All other addresses
that are not absolute are bare. -/
def IsRelative (url : String) : Prop := "./".toList <+: url.toList ∨ "../".toList <+: url.toList

instance (url : String) : Decidable (IsAbsolute url) := inferInstanceAs (Decidable (_ ∨ _ ∨ _))

instance (url : String) : Decidable (IsRelative url) := inferInstanceAs (Decidable (_ ∨ _))

/-- Whether an address is absolute is computed correctly. -/
theorem isAbsoluteUrl_iff (url : String) : isAbsoluteUrl url = true ↔ IsAbsolute url := by
  simp only [isAbsoluteUrl, startsWith, Bool.or_eq_true, List.isPrefixOf_iff_prefix, IsAbsolute,
    or_assoc]

/-- Whether an address is relative is computed correctly. -/
theorem isRelativeUrl_iff (url : String) : isRelativeUrl url = true ↔ IsRelative url := by
  simp only [isRelativeUrl, startsWith, Bool.or_eq_true, List.isPrefixOf_iff_prefix, IsRelative]

/-- No address is absolute and relative: a relative one starts with a dot. -/
theorem IsRelative.not_isAbsolute {url : String} (h : IsRelative url) : ¬ IsAbsolute url := by
  have hdot : url.toList.head? = some '.' := by
    rcases h with ⟨rest, hrest⟩ | ⟨rest, hrest⟩
    · rw [← hrest]
      rfl
    · rw [← hrest]
      rfl
  rintro (⟨rest, hrest⟩ | ⟨rest, hrest⟩ | ⟨rest, hrest⟩)
  · rw [← hrest] at hdot
    exact absurd (Option.some.inj hdot) (by decide)
  · rw [← hrest] at hdot
    exact absurd (Option.some.inj hdot) (by decide)
  · rw [← hrest] at hdot
    exact absurd (Option.some.inj hdot) (by decide)

/-! ### Bare addresses -/

/-- The directory of the source file, followed by a slash; nothing if none is given or it is
empty. -/
def Metadata.directoryPart (metadata : Metadata) : String :=
  let directory := (metadata.rawDocumentData.bind SourceData.sourceFileDir).getD ""
  if directory = "" then "" else directory ++ "/"

/-- The place of a bare address below the directory of all content: that directory, the one of the
source file if it is known, and the address. -/
def bareTarget (metadata : Metadata) (url : String) : String :=
  "./data/" ++ metadata.directoryPart ++ url

/-- Joining the segments of a resolved address with slashes puts one behind the directory of the
source exactly if that is not empty. -/
theorem bareTarget_eq (metadata : Metadata) (url : String) :
    "./" ++ String.intercalate "/" (contentRoot :: (metadata.directory?.toList ++ [url]))
      = bareTarget metadata url := by
  unfold bareTarget Metadata.directoryPart Metadata.directory?
  show "./" ++ String.intercalate "/" (contentRoot
    :: (((metadata.rawDocumentData.bind SourceData.sourceFileDir).filter _).toList ++ [url])) = _
  have hfront : "./data/" = "./" ++ contentRoot ++ "/" := by decide +kernel
  rw [hfront]
  cases metadata.rawDocumentData.bind SourceData.sourceFileDir with
  | none =>
      show "./" ++ (contentRoot ++ "/" ++ url) = "./" ++ contentRoot ++ "/" ++ "" ++ url
      simp only [String.append_assoc, String.empty_append]
  | some directory =>
      by_cases hempty : directory = ""
      · rw [hempty]
        show "./" ++ (contentRoot ++ "/" ++ url) = "./" ++ contentRoot ++ "/" ++ "" ++ url
        simp only [String.append_assoc, String.empty_append]
      · simp only [Option.filter, hempty, Option.getD_some, if_false, not_false_eq_true, ne_eq,
          decide_true, if_true]
        show "./" ++ (contentRoot ++ "/" ++ directory ++ "/" ++ url) = _
        simp only [String.append_assoc]

/-- The place of a bare address begins like a relative one. -/
theorem isRelative_bareTarget (metadata : Metadata) (url : String) :
    IsRelative (bareTarget metadata url) := by
  have hsplit : (bareTarget metadata url).toList
      = "./".toList ++ ("data/".toList ++ metadata.directoryPart.toList ++ url.toList) := by
    simp [bareTarget]
  rw [IsRelative, hsplit]
  exact .inl (List.prefix_append _ _)

/-- Different bare addresses have different places, as long as the source of the document is the
same. -/
theorem bareTarget_injective (metadata : Metadata) : Function.Injective (bareTarget metadata) :=
  fun _ _ h => String.append_right_inj _ |>.1 h

/-! ### What becomes of an address -/

/-- An address is imported from itself if it is relative, and from its place if it is bare and bare
addresses are resolved. -/
theorem importTarget?_eq_some_iff (url target : String) (metadata : Metadata)
    (options : ImportOptions) :
    importTarget? url metadata options = some target
      ↔ IsRelative url ∧ target = url
        ∨ ¬ IsAbsolute url ∧ ¬ IsRelative url ∧ options.resolve = true
          ∧ target = bareTarget metadata url := by
  rw [importTarget?, bareTarget_eq]
  simp only [isAbsoluteUrl_iff, isRelativeUrl_iff]
  -- The program asks first whether the address is absolute. A relative one never is, so the case of
  -- a relative address can be taken before.
  by_cases hrelative : IsRelative url
  · rw [if_neg hrelative.not_isAbsolute, if_pos hrelative, Option.some.injEq]
    constructor
    · rintro rfl
      exact .inl ⟨hrelative, rfl⟩
    · rintro (⟨-, rfl⟩ | ⟨-, hbare, -⟩)
      · rfl
      · exact absurd hrelative hbare
  by_cases habsolute : IsAbsolute url
  · rw [if_pos habsolute]
    simp [hrelative, habsolute]
  · rw [if_neg habsolute, if_neg hrelative, Option.ite_none_right_eq_some, Option.some.injEq]
    constructor
    · rintro ⟨hresolve, rfl⟩
      exact .inr ⟨habsolute, hrelative, hresolve, rfl⟩
    · rintro (⟨hrel, -⟩ | ⟨-, -, hresolve, rfl⟩)
      · exact absurd hrel hrelative
      · exact ⟨hresolve, rfl⟩

/-- An address is left alone if it is absolute, or if it is not relative and bare addresses are not
resolved. -/
theorem importTarget?_eq_none_iff (url : String) (metadata : Metadata) (options : ImportOptions) :
    importTarget? url metadata options = none
      ↔ IsAbsolute url ∨ options.resolve = false ∧ ¬ IsRelative url := by
  rw [Option.eq_none_iff_forall_ne_some]
  simp only [Ne, importTarget?_eq_some_iff]
  constructor
  · intro hnone
    by_cases habsolute : IsAbsolute url
    · exact .inl habsolute
    by_cases hrelative : IsRelative url
    · exact absurd (.inl ⟨hrelative, rfl⟩) (hnone url)
    cases hresolve : options.resolve with
    | false => exact .inr ⟨rfl, hrelative⟩
    | true => exact absurd (.inr ⟨habsolute, hrelative, hresolve, rfl⟩) (hnone _)
  · rintro (habsolute | ⟨hresolve, hbare⟩) target (⟨hrelative, -⟩ | ⟨hnot, -, htrue, -⟩)
    · exact hrelative.not_isAbsolute habsolute
    · exact hnot habsolute
    · exact hbare hrelative
    · rw [hresolve] at htrue
      cases htrue

/-- Where images are imported from. An image is left alone if its address is absolute, or if it is
not relative and bare addresses are not resolved. Any other is imported from an address that is
relative and stays so whatever is known and asked for: a relative address stands for itself, and a
bare one for the path that leads from the directory of all content through that of the source. Two
addresses that come to the same one are the same, or one is bare and the other is the relative path
that it stands for. -/
theorem importTarget?_policy (url : String) (metadata : Metadata) (options : ImportOptions) :
    (importTarget? url metadata options = none
        ↔ IsAbsolute url ∨ options.resolve = false ∧ ¬ IsRelative url)
      ∧ ∀ target, importTarget? url metadata options = some target →
        IsRelative target
          ∧ (∀ otherMetadata otherOptions,
              importTarget? target otherMetadata otherOptions = some target)
          ∧ (IsRelative url → target = url)
          ∧ (¬ IsRelative url → target = "./data/" ++ metadata.directoryPart ++ url)
          ∧ ∀ other, importTarget? other metadata options = some target →
            ((IsRelative url ↔ IsRelative other) → url = other)
              ∧ (url ≠ other → IsRelative url ∧ target = url ∧ ¬ IsRelative other
                ∨ IsRelative other ∧ target = other ∧ ¬ IsRelative url) := by
  refine ⟨importTarget?_eq_none_iff url metadata options, fun target htarget => ?_⟩
  have hcases := (importTarget?_eq_some_iff _ _ _ _).1 htarget
  have hrelative : IsRelative target := by
    rcases hcases with ⟨hurl, rfl⟩ | ⟨-, -, -, rfl⟩
    · exact hurl
    · exact isRelative_bareTarget metadata url
  refine ⟨hrelative, fun _ _ => (importTarget?_eq_some_iff _ _ _ _).2 (.inl ⟨hrelative, rfl⟩),
    ?_, ?_, fun other hother => ?_⟩
  · intro hurl
    rcases hcases with ⟨-, heq⟩ | ⟨-, hbare, -⟩
    · exact heq
    · exact absurd hurl hbare
  · intro hbare
    rcases hcases with ⟨hurl, -⟩ | ⟨-, -, -, heq⟩
    · exact absurd hurl hbare
    · exact heq
  -- Within a class an address is told by its target, so different ones come from both classes.
  rcases hcases with ⟨hurl, rfl⟩ | ⟨-, hurl, -, heq⟩
  · rcases (importTarget?_eq_some_iff _ _ _ _).1 hother with ⟨-, rfl⟩ | ⟨-, hbare, -, -⟩
    · exact ⟨fun _ => rfl, fun hne => absurd rfl hne⟩
    · exact ⟨fun hsame => absurd (hsame.1 hurl) hbare, fun _ => .inl ⟨hurl, rfl, hbare⟩⟩
  · rcases (importTarget?_eq_some_iff _ _ _ _).1 hother with ⟨hrel, hsame⟩ | ⟨-, -, -, hsame⟩
    · exact ⟨fun hclass => absurd (hclass.2 hrel) hurl, fun _ => .inr ⟨hrel, hsame, hurl⟩⟩
    · have hequal := bareTarget_injective metadata (heq.symm.trans hsame)
      exact ⟨fun _ => hequal, fun hne => absurd hequal hne⟩

/-- A bare address in a directory and the relative path that it stands for come to the same one. -/
theorem importTarget?_policy_merge :
    let metadata := Metadata.inDirectory "blog"
    importTarget? "a.png" metadata {} = some "./data/blog/a.png"
      ∧ importTarget? "./data/blog/a.png" metadata {} = some "./data/blog/a.png"
      ∧ ¬ (IsRelative "a.png" ↔ IsRelative "./data/blog/a.png") := by
  intro metadata
  have hbare : importTarget? "a.png" metadata {} = some "./data/blog/a.png" := by decide +kernel
  have hpolicy := (importTarget?_policy "a.png" metadata {}).2 _ hbare
  have hfixed := hpolicy.2.1 metadata {}
  refine ⟨hbare, hfixed, fun hclass => ?_⟩
  exact absurd ((hpolicy.2.2.2.2 _ hfixed).1 hclass) (by decide +kernel)

end ImageImports
