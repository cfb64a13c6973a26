import IncludeDeps.TaskState.Encoding
import IncludeDeps.Workspace.Operations

/-!
# Stored task states

A `StateStore` keeps the states of tasks in files, one for each key.  The name of the file is the
digest of the key.  A state that is missing or not to be trusted is empty, so loading never fails;
a new state takes the place of the old one at once, when its file is complete.

* `StateStore.load`, `StateStore.save` and `StateStore.remove` work on one key;
* `StateCache` is the state of one task, in a store or in memory.
-/

namespace IncludeDeps

/-- A directory with states, and the version of the tool that they have to be from. -/
structure StateStore where
  /-- The directory. -/
  directory : Path
  /-- The version. -/
  tool : String
deriving DecidableEq

/-- The failure of an operation on the file of a state. -/
inductive StoreError where
  /-- The file, or the directory, cannot be worked on. -/
  | io (path : Path) (fault : Fault)
  /-- There is no content for the file. -/
  | encoding (error : TaskState.EncodeError)
deriving DecidableEq

/-- How the failure is told. -/
def StoreError.message : StoreError → String
  | io path fault => "state I/O error at " ++ path.text ++ ": " ++ fault.message
  | encoding error => error.message

namespace StateStore

/-- The directory that holds the files. -/
def folder (s : StateStore) : Path := s.directory.join ⟨"state"⟩

/-- The file of a key. -/
def path (s : StateStore) (key : String) : Path :=
  s.folder.join ⟨(Digest.ofText key).hex ++ ".state"⟩

/-- The state under a key; empty if there is none that can be used, for whatever reason. -/
def load (s : StateStore) (w : Workspace) (key : String) : TaskState :=
  match w.read (s.path key) with
  | .ok content => (TaskState.decode s.tool content).toOption.getD ∅
  | .error _ => ∅

/-- The file to which a state is written before it takes the place of the old one. -/
def scratch (s : StateStore) (w : Workspace) (key : String) : Path :=
  ⟨(s.path key).text ++ ".tmp." ++ w.processId.repr⟩

/-- Stores a state under a key.  The directories are made first, whether there is a content for the
file or not; then a scratch file is written, and renamed.  It is removed if it cannot be renamed. -/
def save (s : StateStore) (key : String) (state : TaskState) : WorkspaceM StoreError Unit := do
  let path := s.path key
  let scratch := s.scratch (← get) key
  WorkspaceM.mapError (.io s.folder) (createDirectories s.folder)
  let content ← WorkspaceM.mapError .encoding (WorkspaceM.ask fun _ => state.fileContent s.tool)
  WorkspaceM.mapError (.io scratch) (WorkspaceM.change (·.write scratch content))
  -- in one step, so that a reader finds either the old file or the new one
  WorkspaceM.onFailure
    (WorkspaceM.mapError (.io path) (WorkspaceM.change (·.rename scratch path)))
    fun w => (w.unlink scratch).toOption.getD w

/-- Removes the state under a key.  The answer is whether there was one. -/
def remove (s : StateStore) (key : String) : WorkspaceM StoreError Bool := do
  let w ← get
  match w.unlink (s.path key) with
  | .ok w =>
    set w
    return true
  | .error .notFound => return false
  | .error e => throw (.io (s.path key) e)

end StateStore

/-- Where the state of a task is kept between runs.  In memory, nothing that happens to files can
touch it. -/
inductive StateCache where
  /-- In memory, if a state was kept yet. -/
  | memory (held : Option TaskState)
  /-- In a store, under a key. -/
  | stored (store : StateStore) (key : String)
deriving DecidableEq

namespace StateCache

/-- The state that is kept; empty if there is none. -/
def get (c : StateCache) (w : Workspace) : TaskState :=
  match c with
  | memory held => held.getD ∅
  | stored store key => store.load w key

/-- Keeps a state, in the place of the one before. -/
def set (c : StateCache) (state : TaskState) : WorkspaceM StoreError StateCache :=
  match c with
  | memory _ => pure (memory (some state))
  | stored store key => do
    store.save key state
    return c

end StateCache

end IncludeDeps
