import IncludeDeps.Toml.Text

/-!
# TOML keys

A key is one or several parts with dots between them.  A part is bare, of letters, digits, `_` and
`-`, or a string on one line; blanks may stand around it.
-/

namespace IncludeDeps.Toml

/-- The depth to which brackets, braces and the parts of a key may go. -/
def maxDepth : Nat := 79

/-- Whether a character may stand in a bare part of a key. -/
def isBare (c : Char) : Bool := c.isAlphanum || c == '_' || c == '-'

/-- A part of a key. -/
def keyPart : List Char → Reading String
  | [] => none
  | c :: cs =>
    if c = '"' ∨ c = '\'' then lineString (c :: cs)
    else if isBare c then
      some (String.ofList (c :: cs.takeWhile isBare), cs.dropWhile isBare)
    else none

/-- The parts of a key, at most `limit` of them, and the text after the blanks behind it. -/
def keyParts : (limit : Nat) → List Char → Option (List String × List Char)
  | 0, _ => none
  | limit + 1, cs => do
    let (part, rest) ← keyPart (skipBlank cs)
    match skipBlank rest with
    | '.' :: rest =>
      let (parts, rest) ← keyParts limit rest
      return (part :: parts, rest)
    | rest => return ([part], rest)

/-- A key. -/
def key (cs : List Char) : Reading (List String) := keyParts maxDepth cs

end IncludeDeps.Toml
