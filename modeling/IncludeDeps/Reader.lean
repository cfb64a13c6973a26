import IncludeDeps.Digest
import IncludeDeps.Fault
import IncludeDeps.Path

/-!
# Readers

What an analysis may ask about the files while it runs.  The answers do not change meanwhile, so a
reader is a triple of functions.

Files have paths of bounded length.  There are finitely many of those, and `Reader.budget` is more
than their number; this is why following includes from file to file comes to an end.
-/

namespace IncludeDeps

/-- A view of the files of a machine at one time. -/
structure Reader where
  /-- Whether a path leads to a file. -/
  isFile : Path → Bool
  /-- The digest that stands for the content of a file. -/
  digest : Path → Except Fault Digest
  /-- The content of a file. -/
  content : Path → Except Fault Bytes
  /-- A number of bytes. -/
  pathLimit : Nat
  /-- The path of a file has fewer bytes than that. -/
  byteSize_lt_of_isFile : ∀ p, isFile p → p.byteSize < pathLimit

/-- More than the number of paths that lead to a file. -/
def Reader.budget (r : Reader) : Nat := Nat.pow 256 r.pathLimit

end IncludeDeps
