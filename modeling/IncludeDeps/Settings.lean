import IncludeDeps.MacroTable
import IncludeDeps.Path
import IncludeDeps.Digest

/-!
# Settings

What a task is told about its includes besides the files: the include roots, the macros that the
compiler is called with, and whether imports count.  All of it shapes what includes resolve to, so
a state is good only under the settings that it was made with; `Settings.fingerprint` is how a
state remembers them.
-/

namespace IncludeDeps

/-- What shapes the resolution of includes. -/
structure Settings where
  /-- The include roots in the order of the search. -/
  roots : List Path
  /-- Whether imports are includes. -/
  imports : Bool
  /-- The macros that are defined everywhere, with their values. -/
  macros : OrderedMap String String
deriving DecidableEq

namespace Settings

/-- A text and a zero byte after it. -/
def field (s : String) : Bytes := Bytes.ofText s ++ [0]

/-- The bytes of which the fingerprint is the digest: the parts one after another, each with a
zero byte after it.  The text of a root is taken as it is, since roots are Unicode text (`Path`);
replacement characters, for what is not text, are not represented. -/
def encode (s : Settings) : Bytes :=
  field "roots" ++ s.roots.flatMap (fun r => field r.text) ++
    field "imports" ++ [if s.imports then 1 else 0, 0] ++
    field "macros" ++ s.macros.toList.flatMap fun (name, value) => field (name ++ "=" ++ value)

/-- The digest that stands for the settings. -/
def fingerprint (s : Settings) : Digest := Digest.ofBytes s.encode

end Settings

end IncludeDeps
