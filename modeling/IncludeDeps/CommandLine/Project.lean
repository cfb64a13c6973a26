import IncludeDeps.CommandLine.Help
import IncludeDeps.Config.Reading
import IncludeDeps.Config.Sources

/-!
# Projects

A project is a directory and the configuration that belongs to it.  It is found by the path of its
directory or of its configuration; without either, it is the innermost one around the current
directory.

* `Project.find` finds a project;
* `Project.task`, `Project.taskNames` and `Project.store` are what commands need of it.
-/

namespace IncludeDeps

/-- Why a command fails. -/
inductive CommandError where
  /-- Something cannot be read. -/
  | file (fault : Fault)
  /-- There is no project around a directory. -/
  | noProject (start : Path)
  /-- The configuration is of no use. -/
  | config (error : ConfigError)
  /-- A task fails. -/
  | task (error : TaskError)
  /-- A state cannot be removed. -/
  | state (error : StoreError)
deriving DecidableEq

/-- How the failure is told. -/
def CommandError.message : CommandError → String
  | file e => e.message
  | noProject start =>
    "could not find " ++ Config.fileName ++ " in " ++ start.text ++ " or any parent directory"
  | config e => e.message
  | task e => e.message
  | state e => e.message

/-- A project. -/
structure Project where
  /-- Its directory. -/
  directory : Path
  /-- Its configuration. -/
  config : Config
deriving DecidableEq

namespace Project

/-- The directory of a path to a file, as far as its text names it. -/
def directoryOf (p : Path) : Path :=
  match p.parent? with
  | some dir => if dir.text = "" then ⟨"."⟩ else dir
  | none => ⟨"."⟩

/-- The innermost directory around a directory in which there is a configuration. -/
def around (w : Workspace) (start : Path) : Except CommandError Path :=
  match start.around.find? fun dir => w.pathExists (Config.within dir Config.fileName) with
  | some dir => .ok dir
  | none => .error (.noProject start)

/-- The project with the given path, or the one around the current directory; its directory seen
from there. -/
def locate (w : Workspace) : Option Path → Except CommandError Project
  | some p =>
    -- the path may be that of the configuration or that of its directory
    if w.isFile p then do
      let text ← (w.readText p).mapError .file
      return ⟨directoryOf p, ← (Config.parse text).mapError .config⟩
    else do
      return ⟨p, ← (Config.load w p).mapError .config⟩
  | none => do
    let dir ← around w (← w.currentDirectory.mapError .file)
    return ⟨dir, ← (Config.load w dir).mapError .config⟩

/-- The project with the given path, or the one around the current directory. -/
def find (w : Workspace) (path : Option Path) : Except CommandError Project := do
  let p ← locate w path
  return { p with directory := ← (w.absolute p.directory).mapError .file }

variable (p : Project)

/-- The store of its states. -/
def store : StateStore := ⟨p.config.cacheDirectory p.directory, programVersion⟩

/-- The task with a name. -/
def task (w : Workspace) (name : String) : Except CommandError Task :=
  (p.config.task w p.directory name).mapError .config

/-- The tasks to work on: the given ones, or all of them. -/
def taskNames (given : List String) : List String :=
  if given.isEmpty then p.config.tasks.keys else given

end Project

end IncludeDeps
