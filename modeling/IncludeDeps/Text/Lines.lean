/-!
# Lines

`Text.lines` cuts a text at its line feeds.  A carriage return directly before a line feed belongs
to the line break, and a line feed at the end of the text starts no further line.
-/

namespace IncludeDeps.Text

/-- The lines of a text, without their line breaks. -/
def lines : List Char → List (List Char)
  | [] => []
  | '\n' :: rest => [] :: lines rest
  | '\r' :: '\n' :: rest => [] :: lines rest
  | c :: rest =>
    match lines rest with
    | [] => [[c]]
    | l :: ls => (c :: l) :: ls

/-- A text without the character `c` at its end. -/
def dropLast? (c : Char) (cs : List Char) : Option (List Char) :=
  if cs.getLast? = some c then some cs.dropLast else none

end IncludeDeps.Text
