import IncludeDeps.Reader
import IncludeDeps.Workspace.Operations

/-!
# Remembered lookups

Whether a path leads to a file is asked over and over, so the answers are remembered until they
are cleared.  An answer belongs to the text of a path; another spelling of the path is asked
again.  A path that is not Unicode text would be asked for every time; there are no such paths here
(`Path`).

* `Lookup.isFile` answers from memory, or else from the workspace;
* `Lookup.remember` is the memory after a question;
* `Lookup.reader` is the view of a workspace through the memory.
-/

namespace IncludeDeps

/-- The answers that are remembered, by the texts of the paths.  A text that was asked for keeps
its first answer until all are forgotten. -/
structure Lookup where
  /-- Whether each text was the path of a file when it was asked for first. -/
  answers : OrderedMap String Bool := ∅
deriving Inhabited

namespace Lookup

/-- The answer for a path. -/
def isFile (l : Lookup) (w : Workspace) (p : Path) : Bool :=
  (l.answers.get? p.text).getD (w.isFile p)

/-- The memory after a path was asked for; the answer is looked up only if the text is new. -/
def remember (l : Lookup) (w : Workspace) (p : Path) : Lookup :=
  if l.answers.contains p.text then l else ⟨l.answers.insert p.text (w.isFile p)⟩

/-- The memory after paths were asked for one after another. -/
def rememberAll (l : Lookup) (w : Workspace) (ps : List Path) : Lookup :=
  ps.foldl (fun l p => l.remember w p) l

/-- The memory without answers. -/
def clear (_ : Lookup) : Lookup := {}

/-- The number of answers that are remembered. -/
def size (l : Lookup) : Nat := l.answers.size

/-- Whether no answer is remembered. -/
def isEmpty (l : Lookup) : Bool := l.answers.isEmpty

/-! ## As a reader -/

/-- The number of bytes of the longest text that is remembered. -/
def longest (l : Lookup) : Nat := l.answers.keys.foldr (fun s n => max s.utf8ByteSize n) 0

theorem byteSize_le_longest {l : Lookup} {s : String} (h : s ∈ l.answers.keys) :
    s.utf8ByteSize ≤ l.longest := by
  unfold longest
  generalize l.answers.keys = texts at h
  induction texts with
  | nil => cases h
  | cons t ts ih =>
    rw [List.foldr_cons]
    rcases List.mem_cons.1 h with rfl | h
    · exact Nat.le_max_left _ _
    · exact Nat.le_trans (ih h) (Nat.le_max_right _ _)

/-- The view of a workspace through the memory.  Digests come from `hasher`. -/
def reader (l : Lookup) (w : Workspace) (hasher : Path → Except Fault Digest) : Reader where
  isFile := l.isFile w
  digest := hasher
  content := w.read
  pathLimit := max Workspace.pathLimit (l.longest + 1)
  byteSize_lt_of_isFile p h := by
    unfold isFile at h
    cases ha : l.answers.get? p.text with
    | none =>
      rw [ha] at h
      exact Nat.lt_of_lt_of_le (Workspace.byteSize_lt_of_isFile h) (Nat.le_max_left _ _)
    | some b =>
      have hmem : p.text ∈ l.answers.keys :=
        List.mem_map.2 ⟨_, OrderedMap.mem_of_get?_eq_some ha, rfl⟩
      exact Nat.lt_of_le_of_lt (byteSize_le_longest hmem)
        (Nat.lt_of_lt_of_le (Nat.lt_succ_self _) (Nat.le_max_right _ _))

end Lookup

end IncludeDeps
