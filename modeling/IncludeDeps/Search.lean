import IncludeDeps.MacroTable.Expansion
import IncludeDeps.TaskState

/-!
# Searching for headers

An include in quotes is searched in the directory of the including file and then in the include
roots, one in angle brackets in the roots alone.  The first directory in which the path leads to a
file wins.  An expression is expanded first, and everything that it may stand for is searched.

* `Search.find?` searches one path in a list of directories;
* `Search.resolveAll` does so for all includes of a file;
* `Search.probesAll` lists the paths that were looked at on the way.
-/

namespace IncludeDeps

/-- Where and how headers are searched. -/
structure Search where
  /-- The include roots in the order of the search, in canonical form. -/
  roots : List Path
  /-- Whether a path leads to a file. -/
  isFile : Path → Bool

/-- What became of the includes of a file. -/
structure Resolution where
  /-- What became of each include, in order. -/
  resolved : List ResolvedInclude
  /-- Whether every expression could be expanded completely. -/
  isComplete : Bool

namespace Search

/-! ## One path -/

/-- The directories in which a path is searched for the file `file`. -/
def directories (s : Search) (file : Path) : IncludeKind → List Path
  | .quoted => file.parent?.toList ++ s.roots
  | _ => s.roots

/-- The file that a path stands for in a directory. -/
def candidate (target : String) (dir : Path) : Path := (dir.join ⟨target⟩).normalize

/-- The first of the directories in which the path leads to a file. -/
def find? (s : Search) (dirs : List Path) (target : String) : Option Location :=
  (dirs.find? fun dir => s.isFile (candidate target dir)).map fun dir =>
    ⟨candidate target dir, dir⟩

/-- The files that are looked at in a search: all up to the first that is there. -/
def probes (s : Search) (dirs : List Path) (target : String) : List Path :=
  let candidates := dirs.map (candidate target)
  candidates.takeWhile (!s.isFile ·) ++ (candidates.find? s.isFile).toList

/-! ## The includes of a file -/

/-- The paths that an include stands for, and whether they are all. -/
def targets (macros : MacroTable) (i : Include) : MacroTable.Expansion :=
  if i.isComputed then macros.expand i.target else ⟨[(i.kind, i.target)], true⟩

/-- What became of one include of `file`.  An expansion that is not complete leaves a mark behind
the paths that were found: an empty path that was not found. -/
def resolve (s : Search) (macros : MacroTable) (file : Path) (i : Include) :
    List ResolvedInclude :=
  let expansion := targets macros i
  (expansion.paths.map fun (kind, target) =>
      ⟨i, target, s.find? (s.directories file kind) target⟩) ++
    if expansion.isComplete then [] else [⟨i, "", none⟩]

/-- What became of the includes of `file`. -/
def resolveAll (s : Search) (macros : MacroTable) (file : Path) (d : Directives) : Resolution :=
  ⟨d.includes.flatMap (s.resolve macros file),
    d.includes.all fun i => (targets macros i).isComplete⟩

/-- The files that are looked at for the includes of `file`. -/
def probesAll (s : Search) (macros : MacroTable) (file : Path) (d : Directives) : List Path :=
  d.includes.flatMap fun i =>
    (targets macros i).paths.flatMap fun (kind, target) =>
      s.probes (s.directories file kind) target

end Search

/-- The headers that were found. -/
def Resolution.files (r : Resolution) : List Path := r.resolved.filterMap ResolvedInclude.file?

end IncludeDeps
