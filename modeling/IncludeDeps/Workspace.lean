import IncludeDeps.Bytes
import IncludeDeps.OrderedMap

/-!
# Workspaces

The files that a run works on.  A file tree is kept as a map from *places* to entries; a place is
the list of names that leads from the root to the entry, with no link on the way.  Every entry but
those of the root lies in a directory of the tree, and this is part of the type, so no operation
can leave an entry that cannot be reached.

* `Workspace.at?` is the view of a tree: what there is at a place;
* `Workspace.put` and `Workspace.remove` are the changes that all others are made of;
* `Workspace.names` and `Workspace.below` list directories.

How a path leads to a place is the matter of `IncludeDeps.Workspace.Locate`.
-/

namespace IncludeDeps

/-- The names on the way from the root to an entry.  A name is Unicode text; a tree with other names
is not represented. -/
abbrev Place := List String

/-- What there may be at a place. -/
inductive Entry where
  /-- A file with its content. -/
  | file (content : Bytes)
  /-- A directory. -/
  | directory
  /-- A symbolic link with the text of the path that it stands for. -/
  | link (target : String)
deriving DecidableEq, Inhabited

/-- The files of a machine, as one process sees them.  There are files, directories and symbolic
links, all with Unicode names.  Nothing is said about permissions, so no operation fails for want of
one. -/
structure Workspace where
  /-- The entries, by their places.  The root has none. -/
  entries : OrderedMap Place Entry
  /-- The current directory. -/
  cwd : Place
  /-- The number of the process. -/
  processId : Nat
  /-- Every entry lies in the root or in a directory. -/
  grounded : ∀ e ∈ entries.toList,
    ∃ dir name, e.1 = dir ++ [name] ∧ (dir = [] ∨ (dir, Entry.directory) ∈ entries.toList)

namespace Workspace

/-! ## Reading -/

/-- What there is at a place.  The root is a directory. -/
def at? (w : Workspace) (place : Place) : Option Entry :=
  if place.isEmpty then some .directory else w.entries.get? place

/-- The entries below a place, each with the names that lead to it from there, in the order of
these names. -/
def below (w : Workspace) (place : Place) : List (List String × Entry) :=
  w.entries.toList.filterMap fun e =>
    if place.isPrefixOf e.1 && place.length < e.1.length then some (e.1.drop place.length, e.2)
    else none

/-- The names of the entries of a directory, in order. -/
def names (w : Workspace) (dir : Place) : List String :=
  (w.below dir).filterMap fun
    | ([name], _) => some name
    | _ => none

/-! ## Changing -/

/-- Puts an entry into a directory, in the place of one that is no directory.  Nothing happens if
`dir` is no directory, or if the entry would take the place of one. -/
def put (w : Workspace) (dir : Place) (name : String) (entry : Entry) : Workspace :=
  if h : (dir = [] ∨ w.entries.get? dir = some .directory) ∧
      w.entries.get? (dir ++ [name]) ≠ some .directory then
    { w with
      entries := w.entries.insert (dir ++ [name]) entry
      grounded := by
        have held : ∀ d : Place, (d, Entry.directory) ∈ w.entries.toList →
            (d, Entry.directory) ∈ (w.entries.insert (dir ++ [name]) entry).toList := fun d hd =>
          OrderedMap.mem_insertEntry_of_ne hd fun heq =>
            h.2 (heq ▸ OrderedMap.get?_eq_some_of_mem hd)
        intro e he
        rcases OrderedMap.eq_or_mem_of_mem_insertEntry he with rfl | he
        · exact ⟨dir, name, rfl, h.1.imp_right fun hd => held _ (OrderedMap.mem_of_get?_eq_some hd)⟩
        · obtain ⟨d, n, hn, hd⟩ := w.grounded e he
          exact ⟨d, n, hn, hd.imp_right (held d)⟩ }
  else w

/-- Removes a place and all that is below it. -/
def remove (w : Workspace) (place : Place) : Workspace :=
  { w with
    entries := w.entries.filter fun p _ => !place.isPrefixOf p
    grounded := by
      intro e he
      obtain ⟨he, hp⟩ := List.mem_filter.1 he
      obtain ⟨d, n, hn, hd⟩ := w.grounded e he
      refine ⟨d, n, hn, hd.imp_right fun hd => List.mem_filter.2 ⟨hd, ?_⟩⟩
      simp only [Bool.not_eq_true', hn] at hp ⊢
      refine Bool.eq_false_iff.2 fun h => Bool.eq_false_iff.1 hp ?_
      rw [ List.isPrefixOf_iff_prefix] at h ⊢
      exact h.trans (List.prefix_append d [n]) }

/-- A machine without files, seen from the given directory, which is made. -/
def bare (cwd : Place) (processId : Nat) : Workspace :=
  (List.range cwd.length).foldl
    (fun w n => w.put (cwd.take n) (cwd.getD n "") .directory)
    ⟨∅, cwd, processId, fun _ he => nomatch he⟩

end Workspace

end IncludeDeps
