import IncludeDeps.Headers.Collection
import IncludeDeps.Run
import IncludeDeps.TaskState.Store

/-!
# Tasks

A task is a set of sources with the settings under which they are compiled.

* `Task.analyse` tells what has changed since the state that a cache holds;
* `Task.detect` does so, publishes the headers of the task, and keeps the new state.

Nothing is kept unless all that comes before has succeeded.
-/

namespace IncludeDeps

/-- Sources that are compiled together. -/
structure Task where
  /-- The name by which the task is known. -/
  name : String
  /-- The sources. -/
  sources : List Path
  /-- The include roots in the order of the search, as they were given. -/
  roots : List Path
  /-- Whether imports are includes. -/
  imports : Bool
  /-- The macros that are defined everywhere. -/
  macros : OrderedMap String String
  /-- The header dependencies file, if one is wanted. -/
  headerFile : Option Path
deriving DecidableEq

/-- Why a task fails. -/
inductive TaskError where
  /-- A source cannot be read. -/
  | source (task : String) (path : Path) (fault : Fault)
  /-- The include roots cannot be listed. -/
  | rootScan (error : RootScanError)
  /-- The header dependencies file cannot be written. -/
  | headerFile (error : HeaderFileError)
  /-- The new state cannot be kept. -/
  | state (task : String) (error : StoreError)
deriving DecidableEq

/-- How a failure is told. -/
def TaskError.message : TaskError → String
  | source task path fault =>
    "task " ++ task ++ ": cannot read source file " ++ path.text ++ ": " ++ fault.message
  | rootScan e => e.message
  | headerFile e => e.message
  | state task e => "task " ++ task ++ ": failed to store compilation state: " ++ e.message

/-- What a task found out. -/
structure Outcome where
  /-- The sources that have to be compiled. -/
  recompile : OrderedSet Path
  /-- The sources that are gone. -/
  removed : OrderedSet Path
  /-- The headers that the task depends on. -/
  headers : OrderedSet Path
  /-- Whether these are all files under the include roots. -/
  isIncomplete : Bool
deriving DecidableEq

/-- How files are digested. -/
abbrev Hasher := Workspace → Path → Except Fault Digest

namespace Task

variable (t : Task)

/-- What shapes the resolution of includes.  The roots are normalised here, for the search; where
they are listed they are taken as they were given. -/
def settings : Settings := ⟨t.roots.map Path.normalize, t.imports, t.macros⟩

/-- Analyses the sources against a state, with the lookups that are remembered. -/
def analyseAgainst (hasher : Hasher) (previous : TaskState) : RunM TaskError Analysis :=
  ExceptT.mk do
    match ← (RunM.analyse t.settings hasher previous t.sources).run with
    | .ok a => return .ok a
    | .error (p, e) => return .error (.source t.name p e)

/-- Analyses the sources against the state that the cache holds, with fresh lookups: files may have
come and gone since the last task. -/
def analyse (hasher : Hasher) (cache : StateCache) : RunM TaskError Analysis := do
  RunM.clearLookup
  let previous := cache.get (← get).files
  t.analyseAgainst hasher previous

/-- Analyses the sources, writes the header dependencies file, and keeps the new state.  Each of
the three may fail, and then the next one is not begun; what was done before stays done. -/
def detect (hasher : Hasher) (cache : StateCache) : RunM TaskError (Outcome × StateCache) := do
  -- the state is kept last: after a failure the next run is against the old one and does all of
  -- this again
  let a ← t.analyse hasher cache
  let headers ← RunM.onFiles .rootScan (WorkspaceM.ask fun w => HeaderMap.collect w t.roots a)
  if let some path := t.headerFile then
    RunM.onFiles .headerFile (headers.write path fun w => a.state.hasher (hasher w))
  let cache ← RunM.onFiles (.state t.name) (cache.set a.state)
  return (⟨a.recompile, a.removed, headers.headers, a.isIncomplete⟩, cache)

end Task

end IncludeDeps
