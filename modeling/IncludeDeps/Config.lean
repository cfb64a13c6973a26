import IncludeDeps.Fault
import IncludeDeps.MacroTable.Expansion
import IncludeDeps.Path

/-!
# Configurations

What a project says about its tasks.  A configuration names the project, the directory in which
states are kept, and for every task its sources and the settings under which they are compiled.

* `Config.check` tells what a configuration lacks;
* `ConfigError.message` is how that is told.
-/

namespace IncludeDeps

/-- What a project says about a task.  Relative paths are seen from the project. -/
structure TaskConfig where
  /-- The sources, and the directories in which sources are looked for. -/
  sources : List String
  /-- The include roots, in the order of the search. -/
  roots : List String
  /-- Whether imports are includes. -/
  imports : Bool
  /-- The header dependencies file, if one is wanted. -/
  headerFile : Option String
  /-- The macros that are defined everywhere. -/
  macros : OrderedMap String String
deriving DecidableEq

/-- What a project says about itself. -/
structure Config where
  /-- The name of the project. -/
  project : String
  /-- The directory in which states are kept. -/
  cache : String
  /-- The tasks, by their names. -/
  tasks : OrderedMap String TaskConfig
deriving DecidableEq

/-- Why a configuration is of no use. -/
inductive ConfigError where
  /-- Its file cannot be read. -/
  | unreadable (fault : Fault)
  /-- Its text is not that of a configuration. -/
  | malformed
  /-- The project has no name. -/
  | noProjectName
  /-- There is no task. -/
  | noTasks
  /-- A task has no sources. -/
  | noSources (task : String)
  /-- A task defines a macro by a name that no macro can have. -/
  | badMacroName (task name : String)
  /-- There is no task by that name. -/
  | unknownTask (name : String)
  /-- There is nothing where a source should be. -/
  | missingSource (path : Path)
deriving DecidableEq

/-- How the failure is told. -/
def ConfigError.message : ConfigError → String
  | unreadable e => "failed to read configuration: " ++ e.message
  | malformed => "failed to parse configuration:"
  | noProjectName => "missing required field: project.name"
  | noTasks => "validation error: at least one [tasks.<name>] table is required"
  | noSources task => "missing required field: tasks." ++ task ++ ".sources"
  | badMacroName task name =>
    "validation error: tasks." ++ task ++ ".macros: '" ++ name ++ "' is not a valid macro name"
  | unknownTask name => "unknown task '" ++ name ++ "'"
  | missingSource p => "source path does not exist: " ++ p.text

/-- What a task lacks: sources, or the first macro by a name that no macro can have. -/
def TaskConfig.check (name : String) (t : TaskConfig) : Except ConfigError Unit :=
  if t.sources.isEmpty then .error (.noSources name)
  else
    match t.macros.keys.find? fun m => !isIdentifier m with
    | some bad => .error (.badMacroName name bad)
    | none => .ok ()

namespace Config

/-- What a configuration lacks: a name, a task, or something in the first task that lacks it. -/
def check (c : Config) : Except ConfigError Unit :=
  if c.project = "" then .error .noProjectName
  else if c.tasks.isEmpty then .error .noTasks
  -- by the names of the tasks, whatever their order in the file
  else c.tasks.toList.forM fun e => e.2.check e.1

/-- The name of the file that holds a configuration. -/
def fileName : String := "cdep.toml"

/-- The name by which a task is known beyond its project.  Neither name is escaped, so a colon in
one of them is not told from the one between them. -/
def taskName (c : Config) (task : String) : String := ":" ++ c.project ++ ":" ++ task

/-- A path that the project in a directory gives. -/
def within (dir : Path) (text : String) : Path := dir.join ⟨text⟩

/-- The directory in which states are kept. -/
def cacheDirectory (c : Config) (dir : Path) : Path := within dir c.cache

end Config

end IncludeDeps
