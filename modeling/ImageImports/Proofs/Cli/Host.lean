import ImageImports.Cli.Host
import ImageImports.Proofs.Files.Directories

/-!
# `ImageImports.Proofs.Cli.Host`: making the directories around a file

The request for a directory and those around it goes up the chain of paths until one of them can be
made or is there, and comes down again. What it leaves is told by the route of the path alone
(`creates_createDirectories`): directories wherever the route goes, and success if it has an end.
-/

set_option autoImplicit false

namespace ImageImports.Cli

open FileTree ImageImports.Path

namespace InMemory

/-- Two steps in a row pass the state on from the first to the second. -/
theorem bind_apply {α β : Type} (first : InMemory α) (next : α → InMemory β) (state : HostState) :
    (first >>= next) state = next (first state).1 (first state).2 := rfl

/-- A step that only gives a value leaves the state as it is. -/
theorem pure_apply {α : Type} (a : α) (state : HostState) :
    (pure a : InMemory α) state = (a, state) := rfl

/-- How a request that may change the tree ends. A request that fails leaves the tree as it was. -/
def ending (state : HostState) : Except FileError FileTree → Except FileError Unit × HostState
  | .ok tree => (.ok (), { state with tree })
  | .error cause => (.error cause, state)

/-- A change of the tree ends as the function that makes the change says. -/
theorem change_apply (f : FileTree → Except FileError FileTree) (state : HostState) :
    change f state = ending state (f state.tree) := by
  unfold change
  cases f state.tree <;> rfl

/-- Making a directory does to the state what it does to the tree. -/
theorem makeDirectory_apply (path : Path) (state : HostState) :
    (Host.makeDirectory path : InMemory _) state
      = ending state (state.tree.makeDirectory path) :=
  change_apply _ state

/-- Writing a file does to the state what it does to the tree. -/
theorem write_apply (path : Path) (text : String) (state : HostState) :
    (Host.write path text : InMemory _) state = ending state (state.tree.write path text) :=
  change_apply _ state

/-- Asking whether a path leads to a directory is answered by the tree and changes nothing. -/
theorem isDirectory_apply (path : Path) (state : HostState) :
    (Host.isDirectory path : InMemory _) state = (state.tree.isDirectory path, state) := rfl

/-- Asking whether a path leads to a file is answered by the tree and changes nothing. -/
theorem isFile_apply (path : Path) (state : HostState) :
    (Host.isFile path : InMemory _) state = (state.tree.isFile path, state) := rfl

/-- Reading a file is answered by the tree and changes nothing. -/
theorem read_apply (path : Path) (state : HostState) :
    (Host.read path : InMemory _) state = (state.tree.read path, state) := rfl

/-- Where a directory could not be made because something is there, the outcome depends on whether
that is a directory. -/
theorem accepting_apply (path : Path) (state : HostState) :
    (accepting path (.error .alreadyExists) : InMemory _) state
      = (if state.tree.isDirectory path then .ok () else .error .alreadyExists, state) := by
  show (if state.tree.isDirectory path then pure (.ok ())
    else pure (.error .alreadyExists) : InMemory (Except FileError Unit)) state = _
  split <;> rfl

/-- Makes one directory that may be there already. -/
def enter (path : Path) : InMemory (Except FileError Unit) := do
  accepting path (← Host.makeDirectory path)

/-- Making a directory that may be there already is one request to the tree. The three questions to
the host that it takes come down to `FileTree.enter`. -/
theorem enter_apply (path : Path) (state : HostState) :
    enter path state = ending state (state.tree.enter path) := by
  rw [enter, bind_apply, makeDirectory_apply, FileTree.enter]
  cases state.tree.makeDirectory path with
  | ok tree => rfl
  | error cause =>
      cases cause with
      | alreadyExists =>
          show (accepting path (.error .alreadyExists) : InMemory _) state = _
          rw [accepting_apply]
          cases state.tree.isDirectory path <;> rfl
      | _ => rfl

/-- If a directory can be made, or cannot for another reason than that those around it are missing,
then no other one is made. -/
theorem createAll_cons_of_ne {path : Path} {state : HostState}
    (h : state.tree.makeDirectory path ≠ .error .notFound) (around : List Path) :
    (createAll (path :: around) : InMemory _) state = enter path state := by
  rw [createAll, enter, bind_apply, bind_apply, makeDirectory_apply]
  cases hmake : state.tree.makeDirectory path with
  | ok tree => rfl
  | error cause =>
      cases cause with
      | notFound => exact absurd hmake h
      | _ => rfl

/-- If a directory is not refused for want of those around it, no other one is made. This is the
case in which the search upwards ends. -/
theorem createAll_cons_of_enter {path : Path} {state : HostState}
    (h : state.tree.enter path ≠ .error .notFound) (around : List Path) :
    (createAll (path :: around) : InMemory _) state = ending state (state.tree.enter path) := by
  rw [createAll_cons_of_ne (fun hmake => h (by rw [FileTree.enter, hmake])), enter_apply]

/-- If a directory is refused for want of those around it, these are made first, and then the
directory if that succeeded. -/
theorem createAll_cons_of_notFound {path : Path} {state : HostState}
    (h : state.tree.makeDirectory path = .error .notFound) (around : List Path) :
    (createAll (path :: around) : InMemory _) state
      = match (createAll around : InMemory _) state with
        | (.ok (), after) => enter path after
        | (.error cause, after) => (.error cause, after) := by
  rw [createAll, bind_apply, makeDirectory_apply, h]
  simp only [ending, bind_apply]
  cases (createAll around : InMemory _) state with
  | mk outcome after => cases outcome <;> rfl

end InMemory

/-! ### The directories around a path -/

/-- A request for directories leaves the tree as the route of a path says. It changes nothing else
in the state, and it succeeds exactly if nothing is in the way on the route. -/
def Creates (request : InMemory (Except FileError Unit)) (path : Path) (state : HostState) : Prop :=
  ∃ outcome after, request state = (outcome, { state with tree := after })
    ∧ state.tree.Entered path outcome.isOk after

variable {state : HostState} {path : Path}

/-- A path without any names asks for nothing, and nothing is made. -/
theorem creates_nothing (hempty : path.isEmpty = true) (hground : state.tree.Grounded) :
    Creates (createAll []) path state := by
  -- A path without a text is the directory in which its way starts.
  have hvoid : ∀ piece ∈ path.steps, isVoid piece = true := by
    simp only [Path.isEmpty, Bool.or_eq_true, decide_eq_true_eq] at hempty
    rcases hempty with h | h <;> simp [Path.steps, Path.isAbsolute, h, isVoid]
  have hroute : state.tree.route path = ([], some (state.tree.start path)) := by
    rw [route, hempty, ← trail_filter, List.filter_eq_nil_iff.2 (by simpa using hvoid)]
    rfl
  refine ⟨.ok (), state.tree, rfl, Made.refl (by simp [hroute]), hground, by rw [hroute]; rfl⟩

/-- The root of the file system is there already, so nothing is made for it. -/
theorem creates_root (hground : state.tree.Grounded) :
    Creates (createAll [⟨["", ""]⟩]) ⟨["", ""]⟩ state := by
  have hmake : state.tree.makeDirectory ⟨["", ""]⟩ = .error .alreadyExists := rfl
  have hdirectory : state.tree.isDirectory ⟨["", ""]⟩ = true := rfl
  refine ⟨.ok (), state.tree, ?_, Made.refl ?_, hground, rfl⟩
  · rw [InMemory.createAll_cons_of_ne (by simp [hmake]), InMemory.enter_apply, FileTree.enter,
      hmake]
    simp only [hdirectory]
    rfl
  · exact fun place hplace => by cases hplace

/-- A path that the system refuses for its text is refused at once, and the directories around it
are not made. -/
theorem creates_of_textFault {cause : FileError} (hempty : path.isEmpty = false)
    (hfault : textFault? path = some cause) (hground : state.tree.Grounded) (around : List Path) :
    Creates (createAll (path :: around)) path state := by
  have hmake : state.tree.makeDirectory path = .error cause := by
    rw [makeDirectory, locateNew, hfault]
  have hcause : cause = .zeroInPath ∨ cause = .nameTooLong := by
    rw [textFault?, if_neg (by simp [hempty])] at hfault
    split at hfault
    · exact .inl (by simpa using hfault.symm)
    split at hfault
    · exact .inr (by simpa using hfault.symm)
    · cases hfault
  have hroute : state.tree.route path = ([], none) := by
    rw [route, hempty, hfault]
    rfl
  refine ⟨.error cause, state.tree, ?_, Made.refl (by simp [hroute]), hground, by rw [hroute]; rfl⟩
  rw [InMemory.createAll_cons_of_ne (by rcases hcause with rfl | rfl <;> simp [hmake]),
    InMemory.enter_apply, FileTree.enter, hmake]
  rcases hcause with rfl | rfl <;> rfl

section
variable {above : Path} {front : List String} {name : String} {around : List Path}
  (hground : state.tree.Grounded) (hsplits : path.Splits above front name)
  (hfault : textFault? path = none)
include hground hsplits hfault

/-- Where nothing is missing on the way to a path, only the path itself is made. -/
theorem creates_of_there
    (hthere : ∀ place ∈ (state.tree.trail (state.tree.start path) front).1,
      state.tree.get? place ≠ none) :
    Creates (createAll (path :: around)) path state := by
  rcases enter_of_there hground hsplits hfault hthere with
    ⟨after, henter, hentered⟩ | ⟨cause, henter, hcause, hentered⟩
  · refine ⟨.ok (), after, ?_, hentered⟩
    rw [InMemory.createAll_cons_of_enter (by simp [henter]), henter]
    rfl
  · refine ⟨.error cause, state.tree, ?_, hentered⟩
    rw [InMemory.createAll_cons_of_enter (by simp [henter, hcause]), henter]
    rfl

/-- Where something is missing on the way to a path, that is made first. What is made for the path
above decides whether the path itself can be made. -/
theorem creates_of_missing
    (hmissing : ∃ place ∈ (state.tree.trail (state.tree.start path) front).1,
      state.tree.get? place = none)
    (habove : Creates (createAll around) above state) :
    Creates (createAll (path :: around)) path state := by
  have hrun := InMemory.createAll_cons_of_notFound
    (makeDirectory_of_missing hground hsplits hfault hmissing) around
  obtain ⟨outcome, mid, hmid, hmade, hgroundMid, hsuccess⟩ := habove
  rw [hmid] at hrun
  rw [route_of_splits _ hsplits hfault] at hmade hsuccess
  cases hlast : (state.tree.trail (state.tree.start path) front).2 with
  | none =>
      -- The way ends before the path, so the request for its parent has failed already.
      have hroute := route_of_blocked hsplits hfault hlast
      cases outcome with
      | ok => simp [Except.isOk, Except.toBool, hlast] at hsuccess
      | error cause =>
          exact ⟨.error cause, mid, hrun, by rwa [hroute], hgroundMid, by rw [hroute]; rfl⟩
  | some here =>
      -- In the tree that the request for the parent leaves, nothing is missing on the way any more,
      -- and the way is the same, because directories do not count for it.
      have hroute := route_of_last hsplits hfault hlast
      have htrail : mid.trail (mid.start path) front
          = state.tree.trail (state.tree.start path) front := by
        rw [hmade.start, hmade.trail]
      have hthere : ∀ place ∈ (mid.trail (mid.start path) front).1, mid.get? place ≠ none := by
        rw [htrail]
        exact hmade.there
      have hrouteMid : mid.route path = state.tree.route path := by
        rw [route_of_fault hfault, route_of_fault hfault, hmade.start, hmade.trail]
      have hsub : ∀ place ∈ (state.tree.trail (state.tree.start path) front).1,
          place ∈ (state.tree.route path).1 := by
        rw [hroute]
        exact fun place hplace => List.mem_append_left _ hplace
      have hjoin {success : Bool} {after : FileTree} (h : mid.Entered path success after) :
          state.tree.Entered path success after :=
        ⟨hmade.trans (hrouteMid ▸ h.made) hsub, h.grounded, hrouteMid ▸ h.success_eq⟩
      cases outcome with
      | error cause => simp [Except.isOk, Except.toBool, hlast] at hsuccess
      | ok =>
          rcases enter_of_there hgroundMid hsplits hfault hthere with
            ⟨after, henter, hentered⟩ | ⟨cause, henter, -, hentered⟩
          · refine ⟨.ok (), after, ?_, hjoin hentered⟩
            rw [hrun]
            simp only [InMemory.enter_apply, henter]
            rfl
          · refine ⟨.error cause, mid, ?_, hjoin hentered⟩
            rw [hrun]
            simp only [InMemory.enter_apply, henter]
            rfl

end

/-- The directories around a path are made as its route says, given enough paths of the chain. The
induction is on that number, which the length of the path bounds. -/
theorem creates_go (hground : state.tree.Grounded) :
    ∀ (more : Nat) (path : Path), path.Trimmed → path.weight ≤ more →
      Creates (createAll (ancestors.go more path)) path state := by
  -- Each path of the chain weighs one less than the one before, so as many of them as the path
  -- weighs are all of them.
  intro more
  induction more with
  | zero =>
      intro path _ hweight
      refine creates_nothing ?_ hground
      by_contra hempty
      rw [weight, if_neg hempty] at hweight
      omega
  | succ more ih =>
      intro path htrimmed hweight
      rcases htrimmed.cases with rfl | rfl | ⟨hempty, above, front, name, hsplits⟩
      · exact creates_nothing rfl hground
      · exact creates_root hground
      rw [ancestors.go, if_neg (by simp [hempty]), hsplits.parent]
      cases hfault : textFault? path with
      | some cause => exact creates_of_textFault hempty hfault hground _
      | none =>
          by_cases hmissing : ∃ place ∈ (state.tree.trail (state.tree.start path) front).1,
              state.tree.get? place = none
          · have hshorter := hsplits.weight
            exact creates_of_missing hground hsplits hfault hmissing
              (ih above hsplits.trimmed (by omega))
          · exact creates_of_there hground hsplits hfault
              fun place hplace hnone => hmissing ⟨place, hplace, hnone⟩

/-- Making a directory with all those around it does what the route of its path says: the missing
ones are made from the outermost on, and the first thing in the way that is no directory stops
it. -/
theorem creates_createDirectories (hground : state.tree.Grounded) (htrimmed : path.Trimmed) :
    Creates (createDirectories path) path state :=
  creates_go hground _ path htrimmed (weight_le_length path)

end ImageImports.Cli
