/-!
# Directives

What a source file says about its dependencies: the files it includes and the macros it defines.
The target of an `Include` is a path in quotes, a path in angle brackets, or an expression that
has to be expanded first.

* `Include`, `MacroDefinition` and `Directives` are the data, in the order of the source;
* `Directives.withoutImports` is the view in which imports are no includes.
-/

namespace IncludeDeps

/-- How the target of an include is written. -/
inductive IncludeKind where
  /-- In quotes: searched beside the including file first. -/
  | quoted
  /-- In angle brackets: searched in the include roots alone. -/
  | system
  /-- As an expression that stands for one of the other forms after macro expansion. -/
  | computed
deriving DecidableEq, Inhabited

/-- An include or import directive. -/
structure Include where
  /-- How the target is written. -/
  kind : IncludeKind
  /-- The path, or the text of the expression. -/
  target : String
  /-- Whether the directive is an import. -/
  isImport : Bool
  /-- The number of the line it starts on, if known. -/
  line : Option UInt32
deriving DecidableEq, Inhabited

/-- Whether the target has to be expanded. -/
def Include.isComputed (i : Include) : Bool := i.kind = .computed

/-- The definition of a macro without parameters. -/
structure MacroDefinition where
  /-- The name. -/
  name : String
  /-- The replacement text, without blanks at its ends. -/
  value : String
deriving DecidableEq, Inhabited

/-- The directives of a file, in the order of the source. -/
structure Directives where
  /-- Includes and imports. -/
  includes : List Include := []
  /-- Macro definitions. -/
  macros : List MacroDefinition := []
deriving DecidableEq, Inhabited

namespace Directives

/-- The directives without the imports. -/
def withoutImports (d : Directives) : Directives :=
  { d with includes := d.includes.filter (!·.isImport) }

/-- Whether some target has to be expanded. -/
def hasComputedIncludes (d : Directives) : Bool := d.includes.any Include.isComputed

/-- Whether there is no directive at all. -/
def isEmpty (d : Directives) : Bool := d.includes.isEmpty && d.macros.isEmpty

end Directives

end IncludeDeps
