import IncludeDeps.MacroTable
import IncludeDeps.Source.Reader

/-!
# Expanding include targets

What an expression may stand for as the target of an include.  The expression has to be the name
of a macro; each of its values is a path in quotes or brackets, or an expression again.  As a
macro may have several values, the possibilities form a tree, and its leaves are collected from
left to right.

* `MacroTable.leaves` lists the leaves, a missing one where a branch comes to nothing;
* `MacroTable.expand` is the set of paths at the leaves, and whether no branch came to nothing.

A branch comes to nothing at a name without values, at a name that is being expanded already, at a
value that is no target, and after sixteen names.
-/

namespace IncludeDeps

/-- Whether a text is a name that a macro can have. -/
def isIdentifier (s : String) : Bool :=
  match s.toList with
  | [] => false
  | c :: rest => Source.isNameStart c && rest.all Text.isAsciiWord

/-- A name holds only letters, digits and underscores. -/
theorem notMem_of_isIdentifier {name : String} {c : Char} (hstart : Source.isNameStart c = false)
    (hword : Text.isAsciiWord c = false) (h : isIdentifier name) : c ∉ name.toList := by
  unfold isIdentifier at h
  intro hc
  split at h
  · cases h
  · next d rest heq =>
    rw [Bool.and_eq_true, List.all_eq_true] at h
    rw [heq] at hc
    rcases List.mem_cons.1 hc with rfl | hc
    · rw [hstart] at h
      cases h.1
    · have hrest := h.2 c hc
      rw [hword] at hrest
      cases hrest

namespace MacroTable

/-- The number of names on a branch, at most. -/
def depthLimit : Nat := 16

/-- The leaves of an expression, of which `depth` more names may be expanded while those in
`within` are being expanded.  A leaf without a path is where the expansion does not go on. -/
def leaves (t : MacroTable) :
    (depth : Nat) → (within : List String) → String → List (Option (IncludeKind × String))
  | 0, _, _ => [none]
  | depth + 1, within, name =>
    let values := t.values name
    if isIdentifier name && !within.contains name && !values.isEmpty then
      values.flatMap fun value =>
        match Source.includeTarget? value.toList with
        -- the value is an expression in its turn
        | some (.computed, next) => leaves t depth (name :: within) next
        | leaf => [leaf]
    else [none]

/-- What an expression stands for. -/
structure Expansion where
  /-- The paths with their kinds, each once, in the order of the leaves. -/
  paths : List (IncludeKind × String)
  /-- Whether every branch ends in a path. -/
  isComplete : Bool

/-- What an expression stands for with the macros of the table. -/
def expand (t : MacroTable) (expression : String) : Expansion :=
  -- a path may be reached on several branches, and its first place counts
  let found := t.leaves depthLimit [] expression
  ⟨(found.filterMap id).eraseDups, found.all Option.isSome⟩

end MacroTable

end IncludeDeps
