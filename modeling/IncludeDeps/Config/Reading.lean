import IncludeDeps.Config
import IncludeDeps.Toml.Document
import IncludeDeps.Toml.Record
import IncludeDeps.Workspace.Operations

/-!
# Reading configurations

The configuration of a project is a TOML document:

```text
[project]
name = "app"

[cache]                                  # may be left out
dir = ".cdep"

[tasks.main]
sources = ["src", "extra/util.c"]
include_paths = ["include"]              # and the following may be left out
imports_are_includes = false
header_dependencies_file = "build/main.deps"
macros = { CONFIG_HEADER = '"config.h"' }
```

* `Config.parse` reads a text, `Config.load` the file in the directory of a project.
-/

namespace IncludeDeps

open Toml

/-- The configuration of a task that a value holds. -/
def TaskConfig.ofToml? (v : Value) : Option TaskConfig := do
  let r ← Record.ofValue? v
  return {
    sources := ← r.readOr 0 "sources" [] Value.strings?
    roots := ← r.readOr 1 "include_paths" [] Value.strings?
    imports := ← r.readOr 2 "imports_are_includes" false Value.boolean?
    headerFile := ← r.readOr 3 "header_dependencies_file" none fun v => v.string?.map some
    macros := ← r.readOr 4 "macros" ∅ (Value.map? Value.string?) }

namespace Config

/-- The directory in which states are kept unless another is named. -/
def defaultCache : String := ".cdep"

/-- The configuration that a document holds. -/
def ofToml? (document : Entries) : Option Config := do
  let r := Record.named document
  return {
    project := ← r.read 0 "project" fun v => do
      (← Record.ofValue? v).read 0 "name" Value.string?
    cache := ← r.readOr 1 "cache" defaultCache fun v => do
      (← Record.ofValue? v).readOr 0 "dir" defaultCache Value.string?
    tasks := ← r.readOr 2 "tasks" ∅ (Value.map? TaskConfig.ofToml?) }

/-- The configuration that a text is. -/
def parse (text : String) : Except ConfigError Config := do
  match (Toml.parse? text).bind ofToml? with
  | some c =>
    c.check
    return c
  | none => throw .malformed

/-- The configuration of the project in a directory. -/
def load (w : Workspace) (dir : Path) : Except ConfigError Config := do
  parse (← (w.readText (within dir fileName)).mapError .unreadable)

end Config

end IncludeDeps
