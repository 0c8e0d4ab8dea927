import ImageImports.Proofs.Cli.Collection
import ImageImports.Proofs.Image.TwoPass

/-!
# `ImageImports.Proofs.Cli.Results`: where the results of documents go

The result of a document goes to the same way below the target directory, under a name with another
extension (`resultWay`). The results of two documents are in each other's way only if the way of one
begins with that of the other, and no result is ever in the way of a document: so the jobs for
documents whose results keep apart keep apart altogether (`apart_jobs`).
-/

set_option autoImplicit false

namespace ImageImports

open FileTree ImageImports.Path

/-! ### Files below a directory -/

namespace Path

variable {path : Path} {front : List String} {name : String}

/-- A path whose last piece says something has a path around it. -/
theorem exists_splits (path : Path) (front : List String)
    (hpieces : path.pieces = front ++ [name]) (hvoid : isVoid name = false) :
    ∃ above before, path.Splits above before name := by
  have htrimmed : path.Trimmed := by
    rw [show path = ⟨front ++ [name]⟩ by rw [← hpieces]]
    cases front with
    | nil => exact .single (ne_empty_of_telling hvoid)
    | cons first rest => exact .longer hvoid
  have hlast : path.pieces.getLast? = some name := by
    rw [hpieces, List.getLast?_append_cons, List.getLast?_singleton]
  -- The root and the path that says nothing end in a piece without a text, and this one does not.
  rcases htrimmed.cases with rfl | rfl | ⟨-, above, before, last, hsplits⟩
  · exact absurd (by simpa using hlast.symm) (ne_empty_of_telling hvoid)
  · exact absurd (by simpa using hlast.symm) (ne_empty_of_telling hvoid)
  · rw [getLast?_of_splits hsplits] at hlast
    obtain rfl := Option.some.inj hlast
    exact ⟨above, before, hsplits⟩

/-- The pieces of a path with names behind it end in these names. What stands in front of them
depends on the path alone. -/
theorem pieces_join (path : Path) : ∃ front, ∀ way, (path.join way).pieces = front ++ way := by
  cases hempty : path.isEmpty with
  | true => exact ⟨[], fun way => by rw [join, if_pos hempty]; rfl⟩
  | false =>
      exact ⟨join.withoutEndSlash path.pieces, fun way => by rw [join, if_neg (by simp [hempty])]⟩

/-- None of the names on the way to a file is empty. -/
theorem ne_empty_of_mem_concat {names : List String}
    (hnames : ∀ other ∈ names, isPlain other = true) (hvoid : isVoid name = false) :
    ∀ other ∈ names ++ [name], other ≠ "" := by
  intro other hother
  rcases List.mem_append.1 hother with hother | hother
  · exact ne_empty_of_isPlain (hnames other hother)
  · rw [List.mem_singleton.1 hother]
    exact ne_empty_of_telling hvoid

/-- The steps of a path with names behind it, in front of the last one: those of the path, and then
the other names. -/
theorem exists_splits_join (path : Path) {names : List String}
    (hnames : ∀ other ∈ names, isPlain other = true)
    (hvoid : isVoid name = false) :
    ∃ above, (path.join (names ++ [name])).Splits above (path.base ++ names) name := by
  obtain ⟨front, hpieces⟩ := pieces_join path
  obtain ⟨above, before, hsplits⟩ := exists_splits (path.join (names ++ [name])) (front ++ names)
    (by rw [hpieces, List.append_assoc]) hvoid
  have hnamed := ne_empty_of_mem_concat hnames hvoid
  have hsteps := (steps_join path (by simp) hnamed).1
  rw [hsplits.steps, ← List.append_assoc] at hsteps
  obtain ⟨rfl, -⟩ := List.append_inj' hsteps rfl
  exact ⟨above, hsplits⟩

end Path

namespace FileTree

variable {tree : FileTree} {target : Path} {names : List String} {name : String} {place : Location}

/-- Names behind a path do not change whether it starts at the root or at the working directory. -/
theorem start_join (hnames : ∀ other ∈ names, isPlain other = true) (hvoid : isVoid name = false) :
    tree.start (target.join (names ++ [name])) = tree.start target := by
  have hnamed := ne_empty_of_mem_concat hnames hvoid
  rw [start, start, (steps_join target (by simp) hnamed).2]

/-- The directories on the way to a file below a directory are those on the way to the directory and
those between. -/
theorem mem_around_join (hnames : ∀ other ∈ names, isPlain other = true)
    (hvoid : isVoid name = false)
    (hplace : place ∈ tree.around (target.join (names ++ [name]))) :
    place ∈ (tree.trail (tree.start target) target.base).1
      ∨ ∃ here front, (tree.trail (tree.start target) target.base).2 = some here
        ∧ front ≠ [] ∧ front <+: names ∧ place = here ++ front := by
  obtain ⟨above, hsplits⟩ := exists_splits_join target hnames hvoid
  rw [around_of_splits hsplits] at hplace
  have hmem := mem_trail_of_mem_route hsplits hplace
  rw [start_join hnames hvoid, trail_append] at hmem
  -- The trail goes on behind the target only if the trail of the target has an end.
  cases hlast : (tree.trail (tree.start target) target.base).2 with
  | none =>
      rw [hlast] at hmem
      exact .inl hmem
  | some here =>
      rw [hlast] at hmem
      rcases List.mem_append.1 hmem with hmem | hmem
      · exact .inl hmem
      · obtain ⟨front, hne, hfront, rfl⟩ := mem_trail_plain hnames hmem
        exact .inr ⟨here, front, rfl, hne, hfront, rfl⟩

/-- A file below a directory lands behind the location to which the way to the directory leads, and
not on that way. -/
theorem landing?_join (hnames : ∀ other ∈ names, isPlain other = true)
    (hvoid : isVoid name = false)
    (hplace : tree.landing? (target.join (names ++ [name])) = some place) :
    isName name = true
      ∧ place ∉ (tree.trail (tree.start target) target.base).1
      ∧ ∃ here, (tree.trail (tree.start target) target.base).2 = some here
        ∧ place = here ++ (names ++ [name]) := by
  obtain ⟨above, hsplits⟩ := exists_splits_join target hnames hvoid
  obtain ⟨last, hroute, rfl, hfault, hname, hnot, -⟩ := (landing?_eq_some_iff _ _ hsplits).1 hplace
  rw [around_of_splits hsplits, route_of_splits tree hsplits hfault, start_join hnames hvoid,
    trail_append] at hnot
  rw [route_of_splits tree hsplits hfault, start_join hnames hvoid, trail_append] at hroute
  cases hlast : (tree.trail (tree.start target) target.base).2 with
  | none =>
      rw [hlast] at hroute
      cases hroute
  | some here =>
      rw [hlast] at hroute hnot
      obtain rfl := trail_plain hnames hroute
      exact ⟨hname, fun hmem => hnot (List.mem_append_left _ hmem), here, rfl,
        List.append_assoc _ _ _⟩

end FileTree

namespace Cli

/-! ### Names of results -/

section
variable {extension name other : String}

/-- The name of the result of a document is the step up or ends as the names of results do. It is
the step up where the stem of the document is a single dot. -/
theorem renamed_cases (h : DocumentName extension name) :
    renamed name extension = ".."
      ∨ ∃ stem, stem ≠ "" ∧ renamed name extension = stem ++ "." ++ extension := by
  obtain ⟨stem, found, rfl, hstem, hjson⟩ := h.parts
  rw [renamed_append hstem (dot_notMem_of_map_toLower hjson) h.ne_up]
  split
  · exact .inl rfl
  · exact .inr ⟨stem, hstem, rfl⟩

/-- The name of the result of a document is no piece that is passed over. -/
theorem isVoid_renamed (h : DocumentName extension name) :
    isVoid (renamed name extension) = false := by
  rcases renamed_cases h with hup | ⟨stem, hstem, heq⟩
  · rw [hup]
    rfl
  · -- A void name has one character at most, and this one has a stem and a dot.
    rw [heq]
    have hlength : 2 ≤ (stem ++ "." ++ extension).length := by
      have hpos : stem.length ≠ 0 := by simpa using hstem
      simp only [String.length_append]
      have hdot : (".":String).length = 1 := rfl
      omega
    simp only [isVoid, Bool.or_eq_false_iff, decide_eq_false_iff_not]
    constructor <;> intro heq <;> rw [heq] at hlength <;> exact absurd hlength (by decide)

/-- No result takes the name of a document. A result ends in a dot and the extension of results, and
no document does. -/
theorem renamed_ne (h : DocumentName extension name) (hother : DocumentName extension other)
    (hname : isName (renamed name extension) = true) : renamed name extension ≠ other := by
  rintro rfl
  rcases renamed_cases h with hup | ⟨stem, -, heq⟩
  · rw [hup] at hname
    cases hname
  · exact hother.notResult ⟨stem.toList, by rw [heq]; simp⟩

end

/-! ### The jobs for documents -/

/-- The names on the way to the result of a document: those on the way to the document, with the
last one renamed. -/
def resultWay (extension : String) (way : List String) : List String :=
  match way.getLast? with
  | some name => way.dropLast ++ [renamed name extension]
  | none => way

/-- What is done about a document in a directory. It is the job that `jobFor` gives where there is
one. -/
def jobOf (run : RunSettings) (directory target : Path) (way : List String) : Job where
  input := directory.join way
  output := target.join (resultWay run.extension way)
  metadata := run.metadata.getD (directoryMetadata way)

section
variable {run : RunSettings} {directory target : Path} {recursive : Bool} {way other : List String}
variable {tree : FileTree} {place : Location}

/-- The way to a document ends in its name. -/
theorem IsDocument.exists_concat (h : IsDocument tree run.extension recursive directory way) :
    ∃ names name, way = names ++ [name] ∧ (∀ other ∈ names, isPlain other = true)
      ∧ DocumentName run.extension name
      ∧ resultWay run.extension way = names ++ [renamed name run.extension] := by
  obtain ⟨name, hlast, hdocument⟩ := h.name
  have hway : way = way.dropLast ++ [name] := (List.dropLast_append_getLast? name hlast).symm
  refine ⟨way.dropLast, name, hway, fun other hother => ?_, hdocument, by rw [resultWay, hlast]⟩
  exact h.plain other (by rw [hway]; exact List.mem_append_left _ hother)

/-- The file of a document lies where the way to it leads, under the name of a document. A step up
is not among the names of a way, so the last name is that of the file. -/
theorem IsDocument.exists_place
    (h : IsDocument tree run.extension recursive directory way)
    (hdirectory : tree.isDirectory directory = true) :
    ∃ place bytes, tree.locate (directory.join way) = .ok place
      ∧ tree.get? place = some (.file bytes)
      ∧ ∃ name, place.getLast? = some name ∧ DocumentName run.extension name := by
  obtain ⟨here, hlocate, -⟩ := isDirectory_iff.1 hdirectory
  obtain ⟨hfault, hwalk, hfile⟩ := (isFile_join_iff hlocate h.ne_nil h.plain).1 h.file
  obtain ⟨bytes, hbytes⟩ := isFileAt_iff.1 hfile
  obtain ⟨name, hlast, hname⟩ := h.name
  have hnamed : ∀ name ∈ way, name ≠ "" :=
    fun name hname => ne_empty_of_isPlain (h.plain name hname)
  refine ⟨here ++ way, bytes, ?_, hbytes, name, ?_, hname⟩
  · rw [locate_join hlocate h.ne_nil hnamed hfault, hwalk]
  · rw [List.getLast?_append, hlast, Option.some_or]

/-- Every document that was found has a job, unless results cannot be named. -/
theorem jobFor_eq (hextension : isExtension run.extension = true)
    (h : IsDocument tree run.extension recursive directory way) :
    jobFor run directory target way = .ok (jobOf run directory target way) := by
  obtain ⟨names, name, rfl, -, -, hresult⟩ := h.exists_concat
  obtain ⟨front, hpieces⟩ := pieces_join target
  have houtput : (target.join (names ++ [name])).withExtension? run.extension
      = some (target.join (resultWay run.extension (names ++ [name]))) := by
    rw [withExtension?, if_pos hextension, hpieces, ← List.append_assoc, List.getLast?_append_cons,
      List.getLast?_singleton]
    simp only [List.dropLast_concat, hresult]
    rw [List.append_assoc, ← hpieces]
  rw [jobFor, resultPath, houtput]
  rfl

/-- All documents that were found have jobs, unless results cannot be named. -/
theorem mapM_jobFor (hextension : isExtension run.extension = true) {documents : List (List String)}
    (h : ∀ way ∈ documents, IsDocument tree run.extension recursive directory way) :
    documents.mapM (jobFor run directory target)
      = .ok (documents.map (jobOf run directory target)) := by
  induction documents with
  | nil => rfl
  | cons way rest ih =>
      rw [List.mapM_cons, jobFor_eq hextension (h way List.mem_cons_self),
        ih fun other hother => h other (List.mem_cons_of_mem _ hother)]
      rfl

/-- No path has a result beside it if the extension holds a slash. -/
theorem resultPath_of_slash {extension : String} (h : isExtension extension = false) (path : Path) :
    resultPath extension path = .error (.slashInExtension extension) := by
  rw [resultPath, withExtension?, if_neg (by simp [h])]

/-- If the extension holds a slash, then no document has a job. -/
theorem mapM_jobFor_of_slash {documents : List (List String)}
    (h : isExtension run.extension = false) (directory target : Path)
    (hdocuments : documents ≠ []) :
    documents.mapM (jobFor run directory target) = .error (.slashInExtension run.extension) := by
  obtain ⟨way, rest, rfl⟩ := List.exists_cons_of_ne_nil hdocuments
  rw [List.mapM_cons, jobFor, resultPath_of_slash h]
  rfl

/-- Where the documents have jobs, these are the ones. -/
theorem eq_map_jobOf {documents : List (List String)} {jobs : List Job}
    (h : ∀ way ∈ documents, IsDocument tree run.extension recursive directory way)
    (hjobs : documents.mapM (jobFor run directory target) = .ok jobs) :
    jobs = documents.map (jobOf run directory target) := by
  cases hextension : isExtension run.extension with
  | true =>
      rw [mapM_jobFor hextension h] at hjobs
      exact (Except.ok.inj hjobs).symm
  | false =>
      by_cases hnone : documents = []
      · subst hnone
        cases hjobs
        rfl
      · rw [mapM_jobFor_of_slash hextension directory target hnone] at hjobs
        cases hjobs

/-- Different documents have different jobs, as they are read from different paths. So a list of
jobs repeats none if the list of documents does not. -/
theorem jobOf_injective (run : RunSettings) (directory target : Path) :
    Function.Injective (jobOf run directory target) := by
  intro way other heq
  obtain ⟨front, hpieces⟩ := pieces_join directory
  have hinput : directory.join way = directory.join other := congrArg Job.input heq
  have hsame := congrArg Path.pieces hinput
  rw [hpieces, hpieces] at hsame
  exact List.append_cancel_left hsame

/-- The path of a result ends in a name that can be given to a file. -/
theorem named_jobOf (target : Path)
    (h : IsDocument tree run.extension recursive directory way) :
    Named (jobOf run directory target way).output := by
  obtain ⟨names, name, -, hplain, hdocument, hresult⟩ := h.exists_concat
  have hvoid := isVoid_renamed hdocument
  obtain ⟨above, hsplits⟩ := exists_splits_join target hplain hvoid
  exact ⟨above, _, _, by rw [jobOf, hresult]; exact hsplits, hvoid⟩

/-- A result lands behind the location to which the way to the target directory leads, under a name
that no document has. -/
theorem landing?_jobOf (h : IsDocument tree run.extension recursive directory way)
    (hplace : tree.landing? (jobOf run directory target way).output = some place) :
    place ∉ (tree.trail (tree.start target) target.base).1
      ∧ (∃ here, (tree.trail (tree.start target) target.base).2 = some here
        ∧ place = here ++ resultWay run.extension way)
      ∧ ∀ other, DocumentName run.extension other → place.getLast? ≠ some other := by
  obtain ⟨names, name, -, hplain, hdocument, hresult⟩ := h.exists_concat
  rw [jobOf, hresult] at hplace
  obtain ⟨hname, hnot, here, hhere, rfl⟩ := landing?_join hplain (isVoid_renamed hdocument) hplace
  refine ⟨hnot, ⟨here, hhere, by rw [hresult]⟩, fun other hother hlast => ?_⟩
  rw [← List.append_assoc, List.getLast?_append_cons, List.getLast?_singleton] at hlast
  exact renamed_ne hdocument hother hname (Option.some.inj hlast)

/-- The directories made for a result are on the way to the target directory, or they are those on
the way of the result below it. -/
theorem mem_around_jobOf (h : IsDocument tree run.extension recursive directory way)
    (hplace : place ∈ tree.around (jobOf run directory target way).output) :
    place ∈ (tree.trail (tree.start target) target.base).1
      ∨ ∃ here front, (tree.trail (tree.start target) target.base).2 = some here
        ∧ front <+: resultWay run.extension way ∧ place = here ++ front := by
  obtain ⟨names, name, -, hplain, hdocument, hresult⟩ := h.exists_concat
  rw [jobOf, hresult] at hplace
  rcases mem_around_join hplain (isVoid_renamed hdocument) hplace with
    hmem | ⟨here, front, hhere, -, hfront, rfl⟩
  · exact .inl hmem
  · exact .inr ⟨here, front, hhere, hresult ▸ hfront.trans (List.prefix_append _ _), rfl⟩

/-- A result keeps away from another one whose way does not begin with its own: they land at
different places, and none lands where a directory is made for the other. -/
theorem landing?_jobOf_apart (h : IsDocument tree run.extension recursive directory way)
    (hother : IsDocument tree run.extension recursive directory other)
    (hkept : ¬ resultWay run.extension way <+: resultWay run.extension other)
    (hplace : tree.landing? (jobOf run directory target way).output = some place) :
    tree.landing? (jobOf run directory target other).output ≠ some place
      ∧ place ∉ tree.around (jobOf run directory target other).output := by
  obtain ⟨hnot, ⟨here, hhere, rfl⟩, -⟩ := landing?_jobOf h hplace
  refine ⟨fun hplaceOther => hkept ?_, fun hmem => ?_⟩
  · obtain ⟨-, ⟨here', hhere', hsame⟩, -⟩ := landing?_jobOf hother hplaceOther
    obtain rfl := Option.some.inj (hhere.symm.trans hhere')
    exact List.append_cancel_left hsame ▸ List.prefix_rfl
  · rcases mem_around_jobOf hother hmem with hway | ⟨here', front, hhere', hfront, hsame⟩
    · exact hnot hway
    · obtain rfl := Option.some.inj (hhere.symm.trans hhere')
      exact hkept (List.append_cancel_left hsame ▸ hfront)

/-- Whether the file at a path holds a document. A file that is missing, that is not valid UTF-8 or
that `parse_document` refuses does not. -/
def isReadable (tree : FileTree) (path : Path) : Bool :=
  match tree.read path with
  | .ok content => (Document.parse content).isOk
  | .error _ => false

/-- A job has a result if its document can be read. -/
theorem result_isOk (job : Job) (run : RunSettings) (tree : FileTree) :
    (job.result run tree).isOk = isReadable tree job.input := by
  unfold Job.result isReadable
  cases tree.read job.input with
  | error cause => rfl
  | ok content =>
      cases hparse : Document.parse content with
      | error cause => simp [hparse, Except.isOk, Except.toBool]
      | ok root => simp [hparse, Except.isOk, Except.toBool]

/-- A job with a result has a document that can be read. -/
theorem isReadable_of_result {job : Job} {text : String} (h : job.result run tree = .ok text) :
    isReadable tree job.input = true := by
  rw [← result_isOk job run, h]
  rfl

/-- The jobs for documents keep apart if no way to the result of a readable one begins with that of
another. Documents that cannot be read write nothing and cannot get in the way. -/
theorem apart_jobs (target : Path) (hdirectory : tree.isDirectory directory = true)
    {documents : List (List String)}
    (hdocuments : ∀ way ∈ documents, IsDocument tree run.extension recursive directory way)
    (hseparate : ∀ way ∈ documents, ∀ other ∈ documents, way ≠ other →
      isReadable tree (directory.join way) = true → isReadable tree (directory.join other) = true →
      ¬ resultWay run.extension way <+: resultWay run.extension other) :
    Apart run tree (documents.map (jobOf run directory target)) where
  input job hjob := by
    obtain ⟨way, hway, rfl⟩ := List.mem_map.1 hjob
    obtain ⟨place, bytes, hlocate, hbytes, name, hlast, hname⟩ :=
      (hdocuments way hway).exists_place hdirectory
    refine ⟨place, bytes, hlocate, hbytes, fun other hother hplace => ?_⟩
    obtain ⟨otherWay, hotherWay, rfl⟩ := List.mem_map.1 hother
    -- The place has the name of a document, and no result lands under such a name.
    exact (landing?_jobOf (hdocuments otherWay hotherWay) hplace).2.2 name hname hlast
  named job hjob := by
    obtain ⟨way, hway, rfl⟩ := List.mem_map.1 hjob
    exact named_jobOf target (hdocuments way hway)
  output job hjob other hother hne file hfile := by
    obtain ⟨way, hway, rfl⟩ := List.mem_map.1 hjob
    obtain ⟨otherWay, hotherWay, rfl⟩ := List.mem_map.1 hother
    have hways : way ≠ otherWay := fun heq => hne (by rw [heq])
    -- A job that writes or makes a directory has a result, so both documents can be read.
    obtain ⟨text, hresult, hplace, -⟩ := mem_files.1 hfile
    have hkept {otherText : String}
        (hresultOther : (jobOf run directory target otherWay).result run tree = .ok otherText) :=
      landing?_jobOf_apart (hdocuments way hway) (hdocuments otherWay hotherWay)
        (hseparate way hway otherWay hotherWay hways (isReadable_of_result hresult)
          (isReadable_of_result hresultOther)) hplace
    refine ⟨fun written hwritten heq => ?_, fun hmem => ?_⟩
    · obtain ⟨otherText, hresultOther, hplaceOther, -⟩ := mem_files.1 hwritten
      exact (hkept hresultOther).1 (heq ▸ hplaceOther)
    · obtain ⟨otherText, hresultOther, haround⟩ := mem_places.1 hmem
      exact (hkept hresultOther).2 haround

end

end Cli

end ImageImports
