import IncludeDeps.Text.Word

/-!
# Comments

`Source.stripComments` takes the comments out of a logical line and leaves string and character
literals alone.  A block comment may go on over several lines, so whether one is open is handed
from line to line; everything else starts afresh.

An apostrophe does not open a character literal where it separates the digits of a number, as in
`1'000`.  To tell, the scan keeps whether it is inside a word and whether that word is a number;
the second flag is not cleared by a comment or a literal.
-/

namespace IncludeDeps.Source

/-- Where in a line the scan is. -/
inductive Scan where
  /-- In plain code: inside a word or not, and whether the last word is a number. -/
  | code (word number : Bool)
  /-- In a block comment. -/
  | comment (number : Bool)
  /-- In a literal that ends at the given character. -/
  | literal (quote : Char) (number : Bool)
deriving DecidableEq

/-- The scan at the start of a line, in a block comment or not. -/
def Scan.start (open_ : Bool) : Scan := if open_ then .comment false else .code false false

/-- Whether a block comment is open. -/
def Scan.isOpen : Scan → Bool
  | comment _ => true
  | _ => false

/-- The scan after a character of code that starts neither a comment nor a literal. -/
def Scan.afterCode (word number : Bool) (c : Char) : Scan :=
  let continues := word && (Text.isAsciiWord c || c == '.')
  .code (continues || Text.isAsciiWord c) (if continues then number else c.isDigit)

/-- Whether the next character is an ASCII letter or digit. -/
def startsAlphanumeric : List Char → Bool
  | [] => false
  | c :: _ => c.isAlphanum

/-- The rest of a line without its comments, and whether a block comment is open at its end.  One
blank stands where a block comment ends. -/
def scanLine : Scan → List Char → List Char × Bool
  | scan, [] => ([], scan.isOpen)
  | .comment number, c :: rest =>
    match c, rest with
    | '*', '/' :: rest =>
      let (out, isOpen) := scanLine (.code false number) rest
      (' ' :: out, isOpen)
    | _, rest => scanLine (.comment number) rest
  | .literal quote number, c :: rest =>
    match c, rest with
    | '\\', escaped :: rest =>
      let (out, isOpen) := scanLine (.literal quote number) rest
      ('\\' :: escaped :: out, isOpen)
    | c, rest =>
      let next := if c = quote then .code false number else .literal quote number
      let (out, isOpen) := scanLine next rest
      (c :: out, isOpen)
  | .code word number, c :: rest =>
    match c, rest with
    | '/', '*' :: rest => scanLine (.comment number) rest
    | '/', '/' :: _ => ([], false)
    | c, rest =>
      let next :=
        -- a quote between the digits of a number is no literal
        if c = '\'' && number && startsAlphanumeric rest then .code word number
        else if c = '"' || c = '\'' then .literal c number
        else Scan.afterCode word number c
      let (out, isOpen) := scanLine next rest
      (c :: out, isOpen)

/-- A line without its comments, and whether a block comment is open after it. -/
def stripComments (isOpen : Bool) (line : List Char) : List Char × Bool :=
  scanLine (Scan.start isOpen) line

end IncludeDeps.Source
