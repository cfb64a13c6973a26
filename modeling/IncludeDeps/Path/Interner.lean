import IncludeDeps.Path

/-!
# Interned paths

Small numbers that stand for paths.  A path is known by its text, so two spellings of one path get
two numbers.  Numbers are given out in order, from zero.
-/

namespace IncludeDeps.Path

/-- The paths that have a number. -/
structure Interner where
  /-- The texts, each at the place of its number. -/
  texts : List String := []

namespace Interner

/-- The number of a path, given to it now if it has none. -/
def intern (i : Interner) (p : Path) : Nat × Interner :=
  match i.texts.findIdx? (· = p.text) with
  | some n => (n, i)
  | none => (i.texts.length, ⟨i.texts ++ [p.text]⟩)

/-- The path with a number. -/
def path? (i : Interner) (n : Nat) : Option Path := i.texts[n]?.map Path.mk

/-- How many paths have a number. -/
def size (i : Interner) : Nat := i.texts.length

/-- Whether no path has a number. -/
def isEmpty (i : Interner) : Bool := i.texts.isEmpty

/-- A short description. -/
def summary (i : Interner) : String := "PathInterner \x7b len: " ++ i.size.repr ++ " \x7d"

end Interner

end IncludeDeps.Path
