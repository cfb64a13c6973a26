import IncludeDeps.Bytes
import IncludeDeps.Directive
import IncludeDeps.Source.Comment
import IncludeDeps.Source.LogicalLine

/-!
# Reading directives

The directives of a source text, read line by line.  This is no preprocessor: conditionals are
not evaluated, so every branch counts, and a line that is not understood is skipped.

* `Source.includeTarget?` tells what the text after an include, or the value of a macro, stands for;
* `Source.readLine?` reads one line without comments;
* `Source.read` reads a whole text, `Source.readBytes` the content of a file.
-/

namespace IncludeDeps.Source

/-! ## Targets -/

/-- The text up to the first `close`, unless it is empty or `close` is missing. -/
def upTo? (close : Char) (cs : List Char) : Option String :=
  if close ∈ cs then
    match cs.takeWhile (· != close) with
    | [] => none
    | path => some (String.ofList path)
  else none

/-- What a text stands for as the target of an include.  Absent for a blank text and for an empty
or unclosed path. -/
def includeTarget? (text : List Char) : Option (IncludeKind × String) :=
  match Text.trim text with
  | [] => none
  | '"' :: rest => (upTo? '"' rest).map fun path => (.quoted, path)
  | '<' :: rest => (upTo? '>' rest).map fun path => (.system, path)
  | expression => some (.computed, String.ofList expression)

/-! ## One line -/

/-- The directives that are read. -/
inductive Keyword where
  | includeFile
  | importFile
  | defineMacro
deriving DecidableEq

/-- How a keyword is written. -/
def Keyword.chars : Keyword → List Char
  | includeFile => ['i', 'n', 'c', 'l', 'u', 'd', 'e']
  | importFile => ['i', 'm', 'p', 'o', 'r', 't']
  | defineMacro => ['d', 'e', 'f', 'i', 'n', 'e']

/-- The text after `front`, if `cs` starts with it. -/
def after? (front cs : List Char) : Option (List Char) :=
  if front.isPrefixOf cs then some (cs.drop front.length) else none

/-- The keyword of a directive and the text after it.  The keyword is a whole word. -/
def keyword? (line : List Char) : Option (Keyword × List Char) := do
  let rest ← after? ['#'] (Text.trimStart line)
  let rest := Text.trimStart rest
  -- no keyword is the beginning of another one, so their order does not matter
  let (keyword, body) ← [Keyword.includeFile, .importFile, .defineMacro].findSome? fun k =>
    (after? k.chars rest).map fun body => (k, body)
  match body with
  | c :: _ => if Text.isWord c then none else some (keyword, body)
  | [] => some (keyword, body)

/-- Whether a character may start the name of a macro. -/
def isNameStart (c : Char) : Bool := c.isAlpha || c == '_'

/-- Whether a text is empty or starts with a blank. -/
def startsBlank : List Char → Bool
  | [] => true
  | c :: _ => Text.isBlank c

/-- The definition after the keyword: a name between blanks, then its value.  A parenthesis
directly after the name makes a macro with parameters, which is skipped. -/
def definition? (body : List Char) : Option MacroDefinition :=
  match Text.trimStart body with
  | [] => none
  | c :: rest =>
    let value := rest.dropWhile Text.isAsciiWord
    -- `define` in front of the name and the value behind it are set off by blanks
    if startsBlank body && isNameStart c && startsBlank value then
      some ⟨String.ofList (c :: rest.takeWhile Text.isAsciiWord), String.ofList (Text.trim value)⟩
    else none

/-- What one line says, if it is a directive.  The line is without comments and has the given
number; greater numbers than can be held count as the greatest. -/
def readLine? (number : Nat) (line : List Char) : Option (Include ⊕ MacroDefinition) := do
  let (keyword, body) ← keyword? line
  match keyword with
  | .defineMacro => (definition? body).map .inr
  | keyword =>
    let (kind, target) ← includeTarget? body
    return .inl ⟨kind, target, keyword = .importFile, some (UInt32.ofNatClamp number)⟩

/-! ## A whole text -/

/-- What each logical line says, in order. -/
def readLines : (isOpen : Bool) → List LogicalLine → List (Include ⊕ MacroDefinition)
  | _, [] => []
  | isOpen, line :: rest =>
    let (code, isOpen) := stripComments isOpen line.text
    (readLine? line.number code).toList ++ readLines isOpen rest

/-- The directives of a source text, the includes and the macros each in the order of their lines.
-/
def read (text : List Char) : Directives :=
  let found := readLines false (logicalLines text)
  ⟨found.filterMap Sum.getLeft?, found.filterMap Sum.getRight?⟩

/-- The directives of the content of a file, whose broken characters are replaced.  Without
`imports`, imports are no includes. -/
def readBytes (imports : Bool) (content : Bytes) : Directives :=
  let all := read (Bytes.lossyText content).toList
  if imports then all else all.withoutImports

end IncludeDeps.Source
