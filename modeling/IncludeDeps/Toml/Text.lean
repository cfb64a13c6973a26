import IncludeDeps.Text.Hex

/-!
# TOML text

White space, comments and strings.  Each function reads from the front of a text and answers with
what it read and the text after it; it fails on a text that TOML does not allow there.

Strings come in four forms: between quotes or apostrophes, single or tripled.  Quotes allow
escapes, and tripled marks allow line breaks.  A run of three or more tripled marks closes a string,
up to two of them being part of it.
-/

namespace IncludeDeps.Toml

/-- What is read from the front of a text, and the text after it. -/
abbrev Reading (α : Type) := Option (α × List Char)

/-! ## White space and comments -/

/-- Whether a character may stand in a comment, or unescaped in a string, as far as quotes do not
forbid it: a tab, or no control character of ASCII. -/
def isPlain (c : Char) : Bool := c == '\t' || (0x20 ≤ c.toNat && c.toNat != 0x7f)

/-- The text after blanks and tabs. -/
def skipBlank (cs : List Char) : List Char := cs.dropWhile fun c => c == ' ' || c == '\t'

/-- The text after a line break. -/
def skipNewline? : List Char → Option (List Char)
  | '\n' :: rest => some rest
  | '\r' :: '\n' :: rest => some rest
  | _ => none

/-- The text after a comment, if there is one, up to the end of the line. -/
def skipComment : List Char → List Char
  | '#' :: rest => rest.dropWhile isPlain
  | cs => cs

/-- The text after the rest of a line in which nothing may come but a comment. -/
def endLine? (cs : List Char) : Option (List Char) :=
  match skipComment (skipBlank cs) with
  | [] => some []
  | cs => skipNewline? cs

/-- The text after blanks, comments and line breaks; `fuel` bounds the number of lines. -/
def skipLines : (fuel : Nat) → List Char → Option (List Char)
  | 0, cs => some cs
  | fuel + 1, cs =>
    match skipBlank cs with
    | '#' :: rest => do skipLines fuel (← skipNewline? (skipComment ('#' :: rest)))
    | '\n' :: rest => skipLines fuel rest
    | '\r' :: rest => do skipLines fuel (← skipNewline? ('\r' :: rest))
    | cs => some cs

/-- The text after blanks, comments and line breaks. -/
def skipSpace? (cs : List Char) : Option (List Char) := skipLines (cs.length + 1) cs

/-! ## Escapes -/

/-- The character with a number, if there is one. -/
def charOf? (n : Nat) : Option Char := if n.isValidChar then some (Char.ofNat n) else none

/-- The character of an escape by a letter. -/
def unescape? : Char → Option Char
  | 'b' => some '\x08'
  | 't' => some '\t'
  | 'n' => some '\n'
  | 'f' => some '\x0c'
  | 'r' => some '\r'
  | '"' => some '"'
  | '\\' => some '\\'
  | _ => none

/-- A character before what is read. -/
def prepend (c : Char) : Reading (List Char) → Reading (List Char)
  | some (cs, rest) => some (c :: cs, rest)
  | none => none

/-! ## Strings on one line -/

/-- The rest of a string in quotes. -/
def basicString : List Char → Reading (List Char)
  | [] => none
  | '"' :: rest => some ([], rest)
  | '\\' :: 'u' :: a :: b :: c :: d :: rest =>
    match (Text.hexNumber? [a, b, c, d]).bind charOf? with
    | some e => prepend e (basicString rest)
    | none => none
  | '\\' :: 'U' :: a :: b :: c :: d :: e :: f :: g :: h :: rest =>
    match (Text.hexNumber? [a, b, c, d, e, f, g, h]).bind charOf? with
    | some e => prepend e (basicString rest)
    | none => none
  | '\\' :: c :: rest =>
    match unescape? c with
    | some e => prepend e (basicString rest)
    | none => none
  | c :: rest => if isPlain c then prepend c (basicString rest) else none

/-- The rest of a string in apostrophes. -/
def literalString : List Char → Reading (List Char)
  | [] => none
  | '\'' :: rest => some ([], rest)
  | c :: rest => if isPlain c then prepend c (literalString rest) else none

/-! ## Strings on several lines -/

/-- What a run of marks at the front of a text closes: the marks that belong to the string and the
text after the closing ones, if there are at least three. -/
def closing? (mark : Char) : List Char → Reading (List Char)
  | a :: b :: c :: d :: e :: rest =>
    if a = mark ∧ b = mark ∧ c = mark then
      if d = mark then
        if e = mark then some ([mark, mark], rest) else some ([mark], e :: rest)
      else some ([], d :: e :: rest)
    else none
  | [a, b, c, d] =>
    if a = mark ∧ b = mark ∧ c = mark then
      if d = mark then some ([mark], []) else some ([], [d])
    else none
  | [a, b, c] => if a = mark ∧ b = mark ∧ c = mark then some ([], []) else none
  | _ => none

/-- The text after the blanks, tabs and line breaks of a line that an escape ends. -/
def skipEscapedLines (cs : List Char) : Option (List Char) := do
  let rest ← skipNewline? (skipBlank cs)
  let isSpace (c : Char) : Bool := c == ' ' || c == '\t' || c == '\n'
  -- A carriage return is passed over only together with its line feed.
  let rec go : Nat → List Char → List Char
    | 0, cs => cs
    | fuel + 1, cs =>
      match cs.dropWhile isSpace with
      | '\r' :: '\n' :: rest => go fuel rest
      | rest => rest
  return go (rest.length + 1) rest

/-- The rest of a string in tripled quotes; `fuel` bounds the number of characters. -/
def basicLines : (fuel : Nat) → List Char → Reading (List Char)
  | 0, _ => none
  | fuel + 1, cs =>
    match closing? '"' cs with
    | some closed => some closed
    | none =>
      match cs with
      | [] => none
      | '\n' :: rest => prepend '\n' (basicLines fuel rest)
      | '\r' :: '\n' :: rest => prepend '\n' (basicLines fuel rest)
      | '\\' :: 'u' :: a :: b :: c :: d :: rest =>
        match (Text.hexNumber? [a, b, c, d]).bind charOf? with
        | some e => prepend e (basicLines fuel rest)
        | none => none
      | '\\' :: 'U' :: a :: b :: c :: d :: e :: f :: g :: h :: rest =>
        match (Text.hexNumber? [a, b, c, d, e, f, g, h]).bind charOf? with
        | some e => prepend e (basicLines fuel rest)
        | none => none
      | '\\' :: c :: rest =>
        match unescape? c with
        | some e => prepend e (basicLines fuel rest)
        | none =>
          match skipEscapedLines (c :: rest) with
          | some rest => basicLines fuel rest
          | none => none
      | c :: rest => if isPlain c && c != '\\' then prepend c (basicLines fuel rest) else none

/-- The rest of a string in tripled apostrophes; `fuel` bounds the number of characters. -/
def literalLines : (fuel : Nat) → List Char → Reading (List Char)
  | 0, _ => none
  | fuel + 1, cs =>
    match closing? '\'' cs with
    | some closed => some closed
    | none =>
      match cs with
      | [] => none
      | '\n' :: rest => prepend '\n' (literalLines fuel rest)
      | '\r' :: '\n' :: rest => prepend '\n' (literalLines fuel rest)
      | c :: rest => if isPlain c then prepend c (literalLines fuel rest) else none

/-- A text without the line break at its front. -/
def dropNewline (cs : List Char) : List Char := (skipNewline? cs).getD cs

/-! ## Any string -/

/-- A string on one line. -/
def lineString : List Char → Reading String
  | '"' :: rest => (basicString rest).map fun (s, rest) => (String.ofList s, rest)
  | '\'' :: rest => (literalString rest).map fun (s, rest) => (String.ofList s, rest)
  | _ => none

/-- A string in any of the four forms. -/
def anyString : List Char → Reading String
  | '"' :: '"' :: '"' :: rest =>
    (basicLines (rest.length + 1) (dropNewline rest)).map fun (s, rest) => (String.ofList s, rest)
  | '\'' :: '\'' :: '\'' :: rest =>
    (literalLines (rest.length + 1) (dropNewline rest)).map fun (s, rest) => (String.ofList s, rest)
  | cs => lineString cs

end IncludeDeps.Toml
