import IncludeDeps.Workspace.Locate

/-!
# Operations on files

Reading, writing and removing what a path leads to.  Single changes either happen or fail and
leave the workspace as it is; operations that are made of several changes run in `WorkspaceM`,
in which the changes before a failure stay.

* `Workspace.isFile`, `Workspace.isDirectory`, `Workspace.read`: asking;
* `Workspace.write`, `makeDirectory`, `makeLink`, `unlink`, `removeTree`, `rename`: single changes;
* `createDirectories`: several changes in order.
-/

namespace IncludeDeps

namespace Workspace

/-! ## Asking -/

/-- What there is at the end of a path, links followed. -/
def find (w : Workspace) (p : Path) : Except Fault (Place × Entry) := do
  match ← w.resolve .follow p with
  | .entry place entry => return (place, entry)
  | .vacancy _ _ => throw .notFound

/-- Whether a path leads to a file. -/
def isFile (w : Workspace) (p : Path) : Bool :=
  match w.find p with
  | .ok (_, .file _) => true
  | _ => false

/-- A path that leads to a file is not longer than paths may be. -/
theorem byteSize_lt_of_isFile {w : Workspace} {p : Path} (h : w.isFile p) :
    p.byteSize < pathLimit := by
  refine Nat.lt_of_not_le fun hlong => ?_
  have hstart : ∃ e, w.start p = .error e := by
    unfold start
    split
    · exact ⟨_, rfl⟩
    split
    · exact ⟨_, rfl⟩
    exact ⟨_, rfl⟩
  obtain ⟨e, he⟩ := hstart
  have hentry : w.find p = .error e := by
    simp only [find, resolve, he]
    rfl
  simp [isFile, hentry] at h

/-- Whether a path leads to a directory. -/
def isDirectory (w : Workspace) (p : Path) : Bool :=
  match w.find p with
  | .ok (_, .directory) => true
  | _ => false

/-- Whether a path leads to something. -/
def pathExists (w : Workspace) (p : Path) : Bool := (w.find p).toOption.isSome

/-- The content of a file. -/
def read (w : Workspace) (p : Path) : Except Fault Bytes := do
  match ← w.find p with
  | (_, .file content) => return content
  | _ => throw .isADirectory

/-- The content of a file as a text. -/
def readText (w : Workspace) (p : Path) : Except Fault String := do
  match Bytes.text? (← w.read p) with
  | some s => return s
  | none => throw .notUtf8

/-- The path of the current directory. -/
def currentDirectory (w : Workspace) : Except Fault Path :=
  if w.at? w.cwd = some .directory then
    .ok (Path.ofComponents (.root :: w.cwd.map .name))
  else .error .notFound

/-- A path seen from the current directory. -/
def absolute (w : Workspace) (p : Path) : Except Fault Path :=
  if p.text = "" then .error .emptyPath
  else if p.isAbsolute then .ok ((p.absolute? ⟨""⟩).getD p)
  else do
    let cwd ← w.currentDirectory
    return (p.absolute? cwd).getD p

/-! ## Single changes -/

/-- Writes a file, which is made unless it is there. -/
def write (w : Workspace) (p : Path) (content : Bytes) : Except Fault Workspace := do
  match ← w.resolve .write p with
  | .entry place (.file _) => return w.put place.dropLast (place.getLastD "") (.file content)
  | .entry _ _ => throw .isADirectory
  | .vacancy dir name => return w.put dir name (.file content)

/-- Makes a directory. -/
def makeDirectory (w : Workspace) (p : Path) : Except Fault Workspace := do
  match ← w.locate p with
  | .name dir name _ =>
    if (w.at? (dir ++ [name])).isSome then throw .alreadyExists
    else return w.put dir name .directory
  | .step => throw .alreadyExists

/-- Makes a symbolic link. -/
def makeLink (w : Workspace) (p : Path) (target : String) : Except Fault Workspace := do
  if target = "" then throw .notFound
  match ← w.locate p with
  | .name dir name slash =>
    if (w.at? (dir ++ [name])).isSome then throw .alreadyExists
    else if slash then throw .notFound
    else return w.put dir name (.link target)
  | .step => throw .alreadyExists

/-- Removes a file, or a link itself. -/
def unlink (w : Workspace) (p : Path) : Except Fault Workspace := do
  match ← w.locate p with
  | .name dir name slash =>
    match w.at? (dir ++ [name]) with
    | none => throw .notFound
    | some .directory => throw .isADirectory
    | some _ => if slash then throw .notADirectory else return w.remove (dir ++ [name])
  | .step => throw .isADirectory

/-- Removes a directory and all that is below it, or a link itself. -/
def removeTree (w : Workspace) (p : Path) : Except Fault Workspace := do
  match ← w.resolve .keepLink p with
  | .vacancy _ _ => throw .notFound
  | .entry _ (.file _) => throw .notADirectory
  | .entry place _ => return w.remove place

/-- Gives the file at `source` the name `target`.  A file or a link by that name is replaced, in
one step; directories are neither renamed nor replaced. -/
def rename (w : Workspace) (source target : Path) : Except Fault Workspace := do
  match ← w.locate source, ← w.locate target with
  | .name fromDir fromName _, .name dir name slash =>
    match w.at? (fromDir ++ [fromName]) with
    | none => throw .notFound
    | some .directory => throw .isADirectory
    | some entry =>
      if slash then throw .notADirectory
      else if w.at? (dir ++ [name]) = some .directory then throw .isADirectory
      -- links at the ends of both paths are renamed and replaced, not followed
      else return (w.remove (fromDir ++ [fromName])).put dir name entry
  | _, _ => throw .busy

end Workspace

/-! ## Several changes -/

/-- A computation over a workspace that may fail; what it changed before it failed stays. -/
abbrev WorkspaceM (ε : Type) := ExceptT ε (StateM Workspace)

namespace WorkspaceM

variable {ε α : Type}

/-- Runs a single change. -/
def change (f : Workspace → Except Fault Workspace) : WorkspaceM Fault Unit := do
  match f (← get) with
  | .ok w => set w
  | .error e => throw e

/-- Asks something that may fail. -/
def ask (f : Workspace → Except ε α) : WorkspaceM ε α := do
  match f (← get) with
  | .ok a => return a
  | .error e => throw e

/-- Tells a failure of a part in the words of the whole. -/
def mapError {δ : Type} (f : δ → ε) (x : WorkspaceM δ α) : WorkspaceM ε α :=
  ExceptT.mk do
    match ← x.run with
    | .ok a => return .ok a
    | .error e => return .error (f e)

/-- Runs `handler` after a failure of `x`, and fails all the same, with the failure of `x`. -/
def onFailure (x : WorkspaceM ε α) (handler : Workspace → Workspace) : WorkspaceM ε α :=
  ExceptT.mk do
    match ← x.run with
    | .ok a => return .ok a
    | .error e =>
      modify handler
      return .error e

end WorkspaceM

/-- Makes directories, each of which lies in the next one.  Those that are there are left alone. -/
def createEach : List Path → WorkspaceM Fault Unit
  | [] => pure ()
  | p :: outer => do
    let w ← get
    match w.makeDirectory p with
    | .ok w => set w
    | .error .notFound =>
      -- the directory around it is missing, and so may be the next one
      createEach outer
      let w ← get
      match w.makeDirectory p with
      | .ok w => set w
      | .error e => if w.isDirectory p then pure () else throw e
    | .error e => if w.isDirectory p then pure () else throw e

/-- The path and the directories around it, as far as its text names them. -/
def Path.around (p : Path) : List Path :=
  let rec go : Nat → Path → List Path
    | 0, _ => []
    | n + 1, p => if p.text = "" then [] else p :: (p.parent?.map (go n)).getD []
  go (p.text.length + 1) p

/-- Makes a directory and those around it, as far as they are missing.  What was made before a
failure stays. -/
def createDirectories (p : Path) : WorkspaceM Fault Unit := createEach p.around

end IncludeDeps
