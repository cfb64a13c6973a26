import IncludeDeps.Text.Lines

/-!
# Logical lines

A backslash at the end of a line joins it to the next one.  A logical line is such a run of
physical lines put together, under the number of the first of them.
-/

namespace IncludeDeps.Source

/-- A run of joined lines. -/
structure LogicalLine where
  /-- The number of its first physical line, counted from one. -/
  number : Nat
  /-- The text, without the backslashes that join. -/
  text : List Char
deriving DecidableEq

/-- Joins physical lines, the first of which has the given number and goes on with `pending`.  A
carriage return at the end of a line is dropped before a backslash is looked for. -/
def joinLines : (pending : Option LogicalLine) → Nat → List (List Char) → List LogicalLine
  | none, _, [] => []
  | some line, _, [] => [line]
  | pending, number, physical :: rest =>
    let physical := (Text.dropLast? '\r' physical).getD physical
    let line := pending.getD ⟨number, []⟩
    match Text.dropLast? '\\' physical with
    | some head => joinLines (some { line with text := line.text ++ head }) (number + 1) rest
    | none => { line with text := line.text ++ physical } :: joinLines none (number + 1) rest

/-- The logical lines of a text.  A run that the text ends in the middle of counts. -/
def logicalLines (text : List Char) : List LogicalLine := joinLines none 1 (Text.lines text)

end IncludeDeps.Source
