import IncludeDeps.Config
import IncludeDeps.Task

/-!
# The tasks of a project

A task as its project gives it, in a workspace: its sources are looked up, and where a directory is
given, all sources in and below it count.

* `Path.isSource` tells a source by its name;
* `Workspace.sourcesBelow` lists the sources in and below a directory;
* `Config.task` is the task with a given name.
-/

namespace IncludeDeps

/-- What the names of sources end in. -/
def sourceExtensions : List String := ["c", "cc", "cpp", "cxx", "c++", "m", "mm"]

/-- Whether the name of a path is that of a source. -/
def Path.isSource (p : Path) : Bool := p.extension?.any sourceExtensions.contains

namespace Workspace

/-- The paths of all that a directory holds. -/
def children (w : Workspace) (dir : Path) : List Path :=
  match w.find dir with
  | .ok (place, .directory) => (w.names place).map fun name => dir.join ⟨name⟩
  | _ => []

/-- The sources in a directory and in those below it, links to directories being followed.  The
number bounds how deep directories lie. -/
def sourcesWithin (w : Workspace) : (depth : Nat) → Path → List Path
  | 0, _ => []
  | depth + 1, dir =>
    (w.children dir).flatMap fun p =>
      if w.isDirectory p then sourcesWithin w depth p
      else if p.isSource then [p]
      else []

/-- The sources in and below a directory.  Every step down makes the path longer, and a path that is
too long leads to no directory. -/
def sourcesBelow (w : Workspace) (dir : Path) : List Path := w.sourcesWithin pathLimit dir

/-- The sources that a path stands for, if there is anything. -/
def sourcesAt? (w : Workspace) (p : Path) : Option (List Path) :=
  if w.isDirectory p then some (w.sourcesBelow p)
  else if w.isFile p then some [p]
  else none

end Workspace

namespace Config

/-- The sources of a task of the project in a directory, or the first path that stands for none.
Sources in a directory are told by their names, and a file that is named is a source whatever its
name. -/
def sourcesOf (w : Workspace) (dir : Path) (t : TaskConfig) :
    Except ConfigError (OrderedSet Path) := do
  let found ← t.sources.mapM fun text =>
    let p := within dir text
    match w.sourcesAt? p with
    | some sources => .ok sources
    | none => .error (.missingSource p)
  -- by their paths, and each once, however often it was listed
  return OrderedSet.insertAll ∅ found.flatten

/-- The task with a name, for the project in a directory.  The include roots are put after the
directory and are not looked at. -/
def task (c : Config) (w : Workspace) (dir : Path) (name : String) : Except ConfigError Task := do
  match c.tasks.get? name with
  | none => throw (.unknownTask name)
  | some t =>
    return {
      name := c.taskName name
      sources := (← sourcesOf w dir t).toList
      roots := t.roots.map (within dir)
      imports := t.imports
      macros := t.macros
      headerFile := t.headerFile.map (within dir) }

end Config

end IncludeDeps
