import ImageImports.Cli.Collection
import ImageImports.Proofs.Cli.Job
import ImageImports.Proofs.Files.Below
import ImageImports.Proofs.Files.Name

/-!
# `ImageImports.Proofs.Cli.Collection`: which documents are collected

A document below a directory is a file whose name says so (`IsDocument`). In a well-formed tree the
collection finds each of them once and nothing else, at the top of the directory or at every depth
(`collect_run`). The limit on the depth is never reached: every step down makes the path longer, and
a path that is too long leads nowhere.
-/

set_option autoImplicit false

namespace ImageImports.Cli

open FileTree ImageImports.Path

/-- A name is that of a document: behind a dot it has the extension `json`, in any case, and it does
not end as the names of results do. It says of the name as a whole what `isDocumentName` computes
from its parts. -/
structure DocumentName (extension name : String) : Prop where
  /-- The name is a stem with the extension behind it. -/
  parts : ∃ stem found, name = stem ++ "." ++ found ∧ stem ≠ ""
    ∧ found.toList.map Char.toLower = "json".toList
  /-- It does not end in a dot and the extension of results. -/
  notResult : ¬ ("." ++ extension).toList <:+ name.toList

/-- No dot is in an extension that is `json` in any case. So the dot in front of it is the last one
of the name. -/
theorem dot_notMem_of_map_toLower {found : String}
    (h : found.toList.map Char.toLower = "json".toList) : '.' ∉ found.toList := by
  intro hdot
  have hlower : '.' ∈ found.toList.map Char.toLower := List.mem_map.2 ⟨'.', hdot, by decide⟩
  rw [h] at hlower
  exact absurd hlower (by decide)

/-- The name of a document is not that of the directory above. Such a name has no extension, as its
dots are all there is of it. -/
theorem DocumentName.ne_up {extension name : String} (h : DocumentName extension name) :
    name ≠ ".." := by
  rintro rfl
  obtain ⟨stem, found, hname, -, hjson⟩ := h.parts
  have hwhole := congrArg (fun text => text.toList.length) hname
  have hfound := congrArg List.length hjson
  simp at hwhole hfound
  omega

/-- Whether a name is that of a document is computed correctly. The name is split at its last dot,
and splitting is the inverse of putting a dot between two parts. -/
theorem isDocumentName_iff {extension name : String} :
    isDocumentName extension name = true ↔ DocumentName extension name := by
  unfold isDocumentName extension?
  constructor
  · -- The stem and the extension are those that the name is split into.
    intro h
    cases hsplit : splitName name with
    | none => simp [hsplit] at h
    | some parts =>
        rw [hsplit] at h
        simp only [Option.map_some, Bool.and_eq_true, decide_eq_true_eq, Bool.not_eq_true'] at h
        obtain ⟨hname, hstem, -, -⟩ := splitName_eq_some_iff.1 hsplit
        refine ⟨⟨parts.1, parts.2, hname, hstem, h.1⟩, fun hsuffix => ?_⟩
        rw [List.isSuffixOf_iff_suffix.2 hsuffix] at h
        cases h.2
  · -- As no dot is in the extension, a name made of these parts is split into them.
    intro h
    obtain ⟨stem, found, rfl, hstem, hjson⟩ := h.parts
    rw [splitName_append hstem (dot_notMem_of_map_toLower hjson) h.ne_up]
    simp only [Option.map_some, Bool.and_eq_true, decide_eq_true_eq, Bool.not_eq_true']
    refine ⟨hjson, ?_⟩
    by_contra hsuffix
    exact h.notResult (List.isSuffixOf_iff_suffix.1 (by simpa using hsuffix))

/-- A way of names below a directory leads to a document, which is to be found at the top of the
directory or wherever directories are gone through. This is what a collection is to find, said
without going through anything. -/
structure IsDocument (tree : FileTree) (extension : String) (recursive : Bool) (directory : Path)
    (way : List String) : Prop where
  /-- The way is given by plain names. -/
  plain : ∀ name ∈ way, isPlain name = true
  /-- It leads to a file. -/
  file : tree.isFile (directory.join way) = true
  /-- The name of the file is that of a document. -/
  name : ∃ name, way.getLast? = some name ∧ DocumentName extension name
  /-- Only where directories are gone through the way goes through one. -/
  top : recursive = true ∨ way.length = 1

namespace IsDocument

variable {tree : FileTree} {extension : String} {recursive : Bool} {directory : Path}
variable {way : List String}

/-- A way to a document is not empty, because it ends in the name of the document. -/
theorem ne_nil (h : IsDocument tree extension recursive directory way) : way ≠ [] := by
  rintro rfl
  obtain ⟨name, hname, -⟩ := h.name
  cases hname

end IsDocument

section
variable {tree : FileTree} {extension : String} {recursive : Bool} {directory : Path}
variable {way rest : List String} {name : String} {here : Location}

/-- A path that leads to a place has a text that the system takes. -/
theorem textFault?_of_locate (h : tree.locate directory = .ok here) :
    textFault? directory = none := by
  rw [locate] at h
  split at h
  · cases h
  · assumption

/-- A path that leads to a place has a text at all. -/
theorem isEmpty_of_locate (h : tree.locate directory = .ok here) : directory.isEmpty = false := by
  have hfault := textFault?_of_locate h
  rw [textFault?] at hfault
  split at hfault
  · cases hfault
  · simp_all

/-- A path with plain names behind that of a directory leads to a file if these names do. The names
are followed one by one from the place of the directory, so this place can be used for all paths
below it. -/
theorem isFile_join_iff (hlocate : tree.locate directory = .ok here) (hway : way ≠ [])
    (hplain : ∀ name ∈ way, isPlain name = true) :
    tree.isFile (directory.join way) = true
      ↔ textFault? (directory.join way) = none ∧ tree.walk here way = .ok (here ++ way)
        ∧ tree.isFileAt (here ++ way) = true := by
  have hnamed : ∀ name ∈ way, name ≠ "" := fun name hname => ne_empty_of_isPlain (hplain name hname)
  rw [isFile_iff]
  constructor
  · rintro ⟨place, hplace, hfile⟩
    have hfault := textFault?_of_locate hplace
    rw [locate_join hlocate hway hnamed hfault] at hplace
    obtain rfl := walk_plain hplain hplace
    exact ⟨hfault, hplace, hfile⟩
  · rintro ⟨hfault, hwalk, hfile⟩
    exact ⟨here ++ way, by rw [locate_join hlocate hway hnamed hfault, hwalk], hfile⟩

/-- On the way to a file below a directory there are directories. The first of them is an entry of
the directory itself, where a collection finds it. -/
theorem isDirectory_of_isFile_join (hlocate : tree.locate directory = .ok here)
    (hrest : rest ≠ []) (hplain : ∀ other ∈ name :: rest, isPlain other = true)
    (hfile : tree.isFile (directory.join (name :: rest)) = true) :
    tree.isDirectory (directory.join [name]) = true
      ∧ tree.get? (here ++ [name]) = some .directory := by
  have hname : ∀ other ∈ [name], other ≠ "" := by
    simpa using ne_empty_of_isPlain (hplain name List.mem_cons_self)
  obtain ⟨hfault, hwalk, -⟩ := (isFile_join_iff hlocate (by simp) hplain).1 hfile
  have htext := text_join_append directory (show [name] ≠ [] by simp) hrest
  have hfaultName : textFault? (directory.join [name]) = none :=
    textFault?_eq_none_of_text htext (isEmpty_join (by simp) hname) hfault
  rw [walk] at hwalk
  cases hstep : tree.step here name with
  | error cause => simp [hstep] at hwalk
  | ok next =>
      simp only [hstep] at hwalk
      obtain ⟨-, -, rfl⟩ := (step_plain (hplain name List.mem_cons_self)).1 hstep
      -- The walk goes on from the first name, and only from a directory can it go on.
      have hdirectory : tree.get? (here ++ [name]) = some .directory := by
        obtain ⟨second, others, rfl⟩ := List.exists_cons_of_ne_nil hrest
        rw [walk] at hwalk
        cases hnext : tree.step (here ++ [name]) second with
        | error cause => simp [hnext] at hwalk
        | ok last => exact ((step_plain (hplain second (by simp))).1 hnext).1
      refine ⟨isDirectory_iff.2 ⟨here ++ [name], ?_, hdirectory⟩, hdirectory⟩
      rw [locate_join hlocate (by simp) hname hfaultName]
      simp [walk, hstep]

end

/-! ### Going through directories -/

section
variable {extension : String} {recursive : Bool} {directory : Path} {above : List String}
variable {state : HostState} {here : Location}

/-- A request finds the documents below a directory whose ways begin with one of some names: it
finds each of them once and nothing else, and it leaves the state alone. -/
def Finds (request : ExceptT Failure InMemory (List (List String))) (state : HostState)
    (above : List String) (IsWay : List String → Prop) : Prop :=
  ∃ found, request.run state = (.ok found, state) ∧ found.Nodup
    ∧ ∀ way, way ∈ found ↔ ∃ below, way = above ++ below ∧ IsWay below

/-- A document that is not at the top of a directory is a document of the directory whose name comes
first on its way, and is looked for if directories are gone through. -/
theorem isDocument_cons_iff {name : String} {rest : List String}
    (hname : isPlain name = true) (hrest : rest ≠ []) :
    IsDocument state.tree extension recursive directory (name :: rest)
      ↔ recursive = true
        ∧ IsDocument state.tree extension recursive (directory.join [name]) rest := by
  have hjoin : (directory.join [name]).join rest = directory.join (name :: rest) :=
    join_join (by simp) (by simpa using ne_empty_of_isPlain hname)
  have hlast : (name :: rest).getLast? = rest.getLast? := by
    obtain ⟨second, others, rfl⟩ := List.exists_cons_of_ne_nil hrest
    rfl
  have hlength : (name :: rest).length ≠ 1 := by simpa using hrest
  constructor
  · intro h
    have hrecursive := h.top.resolve_right hlength
    exact ⟨hrecursive, fun other hother => h.plain other (List.mem_cons_of_mem _ hother),
      hjoin ▸ h.file, hlast ▸ h.name, .inl hrecursive⟩
  · rintro ⟨hrecursive, h⟩
    refine ⟨fun other hother => ?_, hjoin ▸ h.file, hlast.symm ▸ h.name, .inl hrecursive⟩
    rcases List.mem_cons.1 hother with rfl | hother
    · exact hname
    · exact h.plain other hother

/-- Nothing lies below a file, and it is a document if its name is that of one. -/
theorem isDocument_cons_iff_of_isFile (hlocate : state.tree.locate directory = .ok here)
    {name : String} {rest : List String} (hname : isPlain name = true)
    (hfile : state.tree.isFile (directory.join [name]) = true) :
    IsDocument state.tree extension recursive directory (name :: rest)
      ↔ rest = [] ∧ isDocumentName extension name = true := by
  constructor
  · intro h
    obtain rfl : rest = [] := by
      by_contra hrest
      -- A way that goes on has a directory where the file is.
      have hthere := (isFile_join_iff hlocate (by simp) (by simpa using hname)).1 hfile
      rw [isFileAt_iff] at hthere
      obtain ⟨-, -, bytes, hbytes⟩ := hthere
      rw [(isDirectory_of_isFile_join hlocate hrest h.plain h.file).2] at hbytes
      cases hbytes
    obtain ⟨last, hlast, hdocument⟩ := h.name
    rw [← Option.some.inj hlast] at hdocument
    exact ⟨rfl, isDocumentName_iff.2 hdocument⟩
  · rintro ⟨rfl, hdocument⟩
    exact ⟨by simpa using hname, hfile, ⟨name, rfl, isDocumentName_iff.1 hdocument⟩, .inr rfl⟩

/-- What an entry of a directory adds to the documents in it: itself if it is a document, and the
documents in it if it is a directory that is gone through. -/
def foundAt (extension : String) (recursive : Bool) (depth : Nat) (path : Path) (name : String)
    (way : List String) : ExceptT Failure InMemory (List (List String)) := do
  if ← Host.isFile (m := InMemory) path then
    pure (if isDocumentName extension name then [way] else [])
  else if recursive then
    if ← Host.isDirectory (m := InMemory) path then
      collectIn extension recursive depth path way
    else pure []
  else pure []

/-- An entry adds what the tree says of its path. The two questions to the host change nothing, so
they can be told apart before the documents below are collected. -/
theorem foundAt_run (depth : Nat) (path : Path) (name : String) (way : List String) :
    (foundAt extension recursive depth path name way).run state
      = if state.tree.isFile path then
          (.ok (if isDocumentName extension name then [way] else []), state)
        else if recursive = true ∧ state.tree.isDirectory path = true then
          (collectIn extension recursive depth path way : ExceptT Failure InMemory _).run state
        else (.ok [], state) := by
  unfold foundAt
  rw [ite_isFile_run]
  split
  · rfl
  cases recursive with
  | false => rfl
  | true =>
      rw [if_pos rfl, ite_isDirectory_run]
      simp only [true_and]
      rfl

/-- The entries of a directory are looked at one after the other. This is the step of the induction
on the entries. -/
theorem collectNames_cons (depth : Nat) (name : String) (rest : List String) :
    collectNames extension recursive depth directory above (name :: rest)
      = do
        let found ← foundAt extension recursive depth (directory.join [name]) name (above ++ [name])
        let others ← collectNames extension recursive depth directory above rest
        return found ++ others := by
  rw [collectNames]
  unfold foundAt
  rw [bind_assoc]
  refine bind_congr fun isFile => ?_
  split
  · rfl
  split
  · rw [bind_assoc]
    refine bind_congr fun isDirectory => ?_
    split <;> rfl
  · rfl

/-- An entry of a directory adds the documents whose ways begin with its name, provided that the
directory with that name, if there is one, is gone through correctly. -/
theorem foundAt_finds (hlocate : state.tree.locate directory = .ok here) {depth : Nat}
    {name : String} (hname : isPlain name = true)
    (ih : state.tree.isDirectory (directory.join [name]) = true →
      Finds (collectIn extension recursive depth (directory.join [name]) (above ++ [name])) state
        (above ++ [name]) (IsDocument state.tree extension recursive (directory.join [name]))) :
    Finds (foundAt extension recursive depth (directory.join [name]) name (above ++ [name])) state
      above fun below => ∃ rest, below = name :: rest
        ∧ IsDocument state.tree extension recursive directory (name :: rest) := by
  unfold Finds
  rw [foundAt_run]
  cases hfile : state.tree.isFile (directory.join [name]) with
  | true =>
      -- A file: the only way that can begin here is the name alone.
      refine ⟨_, rfl, by split <;> simp, fun way => ?_⟩
      constructor
      · intro hway
        split at hway
        · rename_i hdocument
          exact ⟨[name], by simpa using hway, [], rfl,
            (isDocument_cons_iff_of_isFile hlocate hname hfile).2 ⟨rfl, hdocument⟩⟩
        · cases hway
      · rintro ⟨below, rfl, rest, rfl, h⟩
        obtain ⟨rfl, hdocument⟩ := (isDocument_cons_iff_of_isFile hlocate hname hfile).1 h
        simp [hdocument]
  | false =>
      -- No file: a way that begins here goes on, and its rest is a way below the entry.
      have hlonger (rest : List String)
          (h : IsDocument state.tree extension recursive directory (name :: rest)) : rest ≠ [] := by
        rintro rfl
        rw [h.file] at hfile
        cases hfile
      simp only [Bool.false_eq_true, if_false]
      by_cases hgone : recursive = true ∧ state.tree.isDirectory (directory.join [name]) = true
      · rw [if_pos hgone]
        obtain ⟨found, hrun, hnodup, hfound⟩ := ih hgone.2
        refine ⟨found, hrun, hnodup, fun way => (hfound way).trans ?_⟩
        constructor
        · rintro ⟨rest, rfl, h⟩
          exact ⟨name :: rest, by simp, rest, rfl,
            (isDocument_cons_iff hname h.ne_nil).2 ⟨hgone.1, h⟩⟩
        · rintro ⟨below, rfl, rest, rfl, h⟩
          exact ⟨rest, by simp, ((isDocument_cons_iff hname (hlonger rest h)).1 h).2⟩
      · -- A way that goes on would ask for the directory on it to be gone through.
        rw [if_neg hgone]
        refine ⟨[], rfl, List.nodup_nil, fun way => ⟨fun h => (by cases h), ?_⟩⟩
        rintro ⟨below, rfl, rest, rfl, h⟩
        have hrest := hlonger rest h
        exact absurd ⟨((isDocument_cons_iff hname hrest).1 h).1,
          (isDirectory_of_isFile_join hlocate hrest h.plain h.file).1⟩ hgone

/-- The entries of a directory add the documents whose ways begin with one of their names. Ways that
begin with different names differ, so none is found twice. -/
theorem collectNames_finds (extension : String) (recursive : Bool) (above : List String)
    (depth : Nat) (hlocate : state.tree.locate directory = .ok here) (names : List String)
    (hnodup : names.Nodup) (hnames : ∀ name ∈ names, isPlain name = true)
    (ih : ∀ name ∈ names, state.tree.isDirectory (directory.join [name]) = true →
      Finds (collectIn extension recursive depth (directory.join [name]) (above ++ [name])) state
        (above ++ [name]) (IsDocument state.tree extension recursive (directory.join [name]))) :
    Finds (collectNames extension recursive depth directory above names) state above fun below =>
      ∃ name ∈ names, ∃ rest, below = name :: rest
        ∧ IsDocument state.tree extension recursive directory (name :: rest) := by
  induction names with
  | nil =>
      refine ⟨[], ?_, List.nodup_nil, by simp⟩
      rw [collectNames]
      rfl
  | cons name rest ihNames =>
      obtain ⟨found, hrun, hfoundNodup, hfound⟩ :=
        foundAt_finds hlocate (hnames name List.mem_cons_self) (ih name List.mem_cons_self)
      obtain ⟨others, hrunRest, hothersNodup, hothers⟩ := ihNames (List.nodup_cons.1 hnodup).2
        (fun other hother => hnames other (List.mem_cons_of_mem _ hother))
        fun other hother => ih other (List.mem_cons_of_mem _ hother)
      have hrunAll : (collectNames extension recursive depth directory above (name :: rest) :
          ExceptT Failure InMemory _).run state = (.ok (found ++ others), state) := by
        rw [collectNames_cons, bind_run, hrun]
        simp only [bind_run, hrunRest]
        rfl
      refine ⟨found ++ others, hrunAll, ?_, fun way => ?_⟩
      · -- A way found at two entries would begin with both of their names.
        refine List.nodup_append.2 ⟨hfoundNodup, hothersNodup, fun way hway other hother heq => ?_⟩
        subst heq
        obtain ⟨below, rfl, tail, rfl, -⟩ := (hfound way).1 hway
        obtain ⟨below, hbelow, second, hsecond, tail', rfl, -⟩ := (hothers _).1 hother
        obtain ⟨rfl, -⟩ := List.cons.inj (List.append_cancel_left hbelow)
        exact (List.nodup_cons.1 hnodup).1 hsecond
      · rw [List.mem_append, hfound, hothers]
        simp only [List.mem_cons, exists_eq_or_imp]
        constructor
        · rintro (⟨below, rfl, h⟩ | ⟨below, rfl, h⟩)
          · exact ⟨below, rfl, .inl h⟩
          · exact ⟨below, rfl, .inr h⟩
        · rintro ⟨below, rfl, h | h⟩
          · exact .inl ⟨below, rfl, h⟩
          · exact .inr ⟨below, rfl, h⟩

/-- The documents below a directory are found. The induction is on the depth that is left; paths
grow with each directory, so the depth is not used up before the paths are too long for the
system. -/
theorem collectIn_finds (extension : String) (recursive : Bool) (hwell : state.tree.WellFormed) :
    ∀ (depth : Nat) (directory : Path) (above : List String),
      state.tree.isDirectory directory = true →
      pathLimit ≤ directory.text.utf8ByteSize + depth →
      Finds (collectIn extension recursive depth directory above) state above
        (IsDocument state.tree extension recursive directory) := by
  -- The induction is on the steps down that are left: with each of them the text of the path grows
  -- by a byte at least, so the bytes of the path and the steps left never sum to less than the
  -- limit.
  intro depth
  induction depth with
  | zero =>
      -- No step is left only where the path is too long to lead anywhere.
      intro directory above hdirectory hdepth
      obtain ⟨here, hlocate, -⟩ := isDirectory_iff.1 hdirectory
      have hfault := textFault?_of_locate hlocate
      simp only [textFault?] at hfault
      split at hfault
      · cases hfault
      split at hfault
      · cases hfault
      rw [if_pos (by simpa using hdepth)] at hfault
      cases hfault
  | succ depth ih =>
      intro directory above hdirectory hdepth
      obtain ⟨here, hlocate, hhere⟩ := isDirectory_iff.1 hdirectory
      have hplain := fun name (hname : name ∈ state.tree.namesIn here) =>
        hwell.isPlain_of_mem_namesIn hname
      obtain ⟨found, hrun, hnodup, hfound⟩ := collectNames_finds extension recursive above depth
        hlocate (state.tree.namesIn here) hwell.nodup_namesIn hplain fun name hname hbelow => by
          have hlonger := utf8ByteSize_text_lt_join (isEmpty_of_locate hlocate)
            (ne_empty_of_isPlain (hplain name hname))
          exact ih (directory.join [name]) (above ++ [name]) hbelow (by omega)
      refine ⟨found, ?_, hnodup, fun way => (hfound way).trans (exists_congr fun below =>
        and_congr_right fun _ => ?_)⟩
      · rw [collectIn, bind_run, attempt_run]
        have hlist : (Host.list directory : InMemory _) state
            = (.ok (state.tree.namesIn here), state) := by
          show (state.tree.list directory, state) = _
          rw [list, hlocate]
          simp only [hhere]
        rw [hlist]
        exact hrun
      · constructor
        · rintro ⟨name, -, rest, rfl, h⟩
          exact h
        · -- The first name of a way is listed: its file is there, or a directory on the way to it.
          intro h
          obtain ⟨name, rest, rfl⟩ := List.exists_cons_of_ne_nil h.ne_nil
          refine ⟨name, mem_namesIn.2 ?_, rest, rfl, h⟩
          by_cases hrest : rest = []
          · subst hrest
            obtain ⟨-, -, hfile⟩ := (isFile_join_iff hlocate (by simp) h.plain).1 h.file
            obtain ⟨bytes, hbytes⟩ := isFileAt_iff.1 hfile
            simp [hbytes]
          · simp [(isDirectory_of_isFile_join hlocate hrest h.plain h.file).2]

/-- In a well-formed tree the collection finds every document in a directory once. Putting the
documents in the order of their names changes none of that. -/
theorem collect_run (extension : String) (recursive : Bool) (hwell : state.tree.WellFormed)
    (hdirectory : state.tree.isDirectory directory = true) :
    ∃ documents, (collect extension recursive directory : ExceptT Failure InMemory _).run state
        = (.ok documents, state)
      ∧ documents.Nodup
      ∧ ∀ way, way ∈ documents ↔ IsDocument state.tree extension recursive directory way := by
  obtain ⟨found, hrun, hnodup, hfound⟩ := collectIn_finds extension recursive hwell depthLimit
    directory [] hdirectory (Nat.le_add_left _ _)
  refine ⟨found.mergeSort fun a b => !decide (b < a), ?_, ?_, fun way => ?_⟩
  · rw [collect, bind_run, hrun]
    rfl
  · exact (List.mergeSort_perm found _).nodup_iff.2 hnodup
  · rw [(List.mergeSort_perm found _).mem_iff, hfound]
    simp

end

end ImageImports.Cli
