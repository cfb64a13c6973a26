import IncludeDeps.Text.Hex

/-!
# Scanning JSON

Reading JSON from the front of a text.  What is scanned is either turned into a text or passed
over; a failure tells whether the text ended too early or is wrong where it is.

* `Json.scanString` reads the rest of a string after its opening quote;
* `Json.skipValue` passes over any value;
* `Json.refuse` is the failure for a value that should have been a string.

Passing over is more lenient than reading: it takes an escaped half of a surrogate pair, and it
does not notice that a number ended too early.
-/

namespace IncludeDeps.Json

/-- Why a text is not read. -/
inductive ScanError where
  /-- It ends too early. -/
  | ended
  /-- It is wrong. -/
  | invalid
deriving DecidableEq

/-- Something read from the front of a text, and the text after it. -/
abbrev Scanned (α : Type) := Except ScanError (α × List Char)

/-- The text after white space. -/
def skipBlank (cs : List Char) : List Char :=
  cs.dropWhile fun c => c == ' ' || c == '\t' || c == '\n' || c == '\r'

/-! ## Strings -/

/-- The failure of a text that does not start with four digits: it ended if it has fewer than four
bytes. -/
def noDigits (cs : List Char) : ScanError :=
  if cs.foldl (fun n c => n + c.utf8Size) 0 < 4 then .ended else .invalid

/-- The character of an escape by a letter. -/
def unescape? : Char → Option Char
  | '"' => some '"'
  | '\\' => some '\\'
  | '/' => some '/'
  | 'b' => some '\x08'
  | 'f' => some '\x0c'
  | 'n' => some '\n'
  | 'r' => some '\r'
  | 't' => some '\t'
  | _ => none

/-- Puts a character before what is read. -/
def prepend (c : Char) : Scanned (List Char) → Scanned (List Char)
  | .ok (cs, rest) => .ok (c :: cs, rest)
  | .error e => .error e

/-- The rest of a string.  After the first half of a surrogate pair the second has to follow; the
first one is `pending` then. -/
def scanString : (pending : Option Nat) → List Char → Scanned (List Char)
  | _, [] => .error .ended
  | pending, '\\' :: rest =>
    match rest with
    | [] => .error .ended
    | 'u' :: a :: b :: c :: d :: rest =>
      match Text.hexNumber? [a, b, c, d], pending with
      | none, _ => .error .invalid
      | some n, none =>
        if 0xDC00 ≤ n ∧ n ≤ 0xDFFF then .error .invalid
        else if 0xD800 ≤ n ∧ n ≤ 0xDBFF then scanString (some n) rest
        else prepend (Char.ofNat n) (scanString none rest)
      | some n, some high =>
        if 0xDC00 ≤ n ∧ n ≤ 0xDFFF then
          prepend (Char.ofNat (0x10000 + (high - 0xD800) * 0x400 + (n - 0xDC00)))
            (scanString none rest)
        else .error .invalid
    | 'u' :: rest => .error (noDigits rest)
    | e :: rest =>
      match unescape? e, pending with
      | some c, none => prepend c (scanString none rest)
      | _, _ => .error .invalid
  | some _, _ :: _ => .error .invalid
  | none, c :: rest =>
    if c = '"' then .ok ([], rest)
    else if c.toNat < 0x20 then .error .invalid
    else prepend c (scanString none rest)

/-- The text after the rest of a string that is passed over. -/
def skipString : List Char → Except ScanError (List Char)
  | [] => .error .ended
  | '\\' :: rest =>
    match rest with
    | [] => .error .ended
    | 'u' :: a :: b :: c :: d :: rest =>
      if (Text.hexNumber? [a, b, c, d]).isSome then skipString rest else .error .invalid
    | 'u' :: rest => .error (noDigits rest)
    | e :: rest => if (unescape? e).isSome then skipString rest else .error .invalid
  | c :: rest =>
    if c = '"' then .ok rest
    else if c.toNat < 0x20 then .error .invalid
    else skipString rest

/-! ## Other values -/

/-- The text after a word that has to be there. -/
def skipWord : (word : List Char) → List Char → Except ScanError (List Char)
  | [], cs => .ok cs
  | _ :: _, [] => .error .ended
  | w :: word, c :: cs => if w = c then skipWord word cs else .error .invalid

/-- The text after digits. -/
def skipDigits (cs : List Char) : List Char := cs.dropWhile Char.isDigit

/-- What goes wrong where a digit has to be. -/
def digitMissing (cs : List Char) : Option ScanError :=
  match cs with
  | [] => some .ended
  | c :: _ => if c.isDigit then none else some .invalid

/-- The text after the exponent of a number, if there is one. -/
def skipExponent (cs : List Char) : Except ScanError (List Char) :=
  match cs with
  | [] => .ok []
  | e :: rest =>
    if e = 'e' ∨ e = 'E' then
      let rest := match rest with
        | '+' :: rest => rest
        | '-' :: rest => rest
        | rest => rest
      match digitMissing rest with
      | some e => .error e
      | none => .ok (skipDigits rest)
    else .ok (e :: rest)

/-- The text after the fraction and the exponent of a number, as far as they are there. -/
def skipFraction (cs : List Char) : Except ScanError (List Char) :=
  match cs with
  | '.' :: rest =>
    match digitMissing rest with
    | some e => .error e
    | none => skipExponent (skipDigits rest)
  | cs => skipExponent cs

/-- The text after a number without a sign. -/
def skipNumber (cs : List Char) : Except ScanError (List Char) :=
  match cs with
  | '0' :: rest =>
    match rest with
    | c :: _ => if c.isDigit then .error .invalid else skipFraction rest
    | [] => .ok []
  | cs =>
    match digitMissing cs with
    | some e => .error e
    | none => skipFraction (skipDigits cs)

/-- Takes every failure for one of a wrong text. -/
def asInvalid {α : Type} : Except ScanError α → Except ScanError α
  | .ok a => .ok a
  | .error _ => .error .invalid

/-- The text after a value that is neither an array nor an object and starts with `c`. -/
def skipScalar (c : Char) (rest : List Char) : Except ScanError (List Char) :=
  if c = '"' then skipString rest
  else if c = 'n' then skipWord ['u', 'l', 'l'] rest
  else if c = 't' then skipWord ['r', 'u', 'e'] rest
  else if c = 'f' then skipWord ['a', 'l', 's', 'e'] rest
  else if c = '-' then asInvalid (skipNumber rest)
  else if c.isDigit then asInvalid (skipNumber (c :: rest))
  else .error .invalid

mutual

/-- The text after a value; `fuel` bounds the number of steps. -/
def skipValueFuel : (fuel : Nat) → List Char → Except ScanError (List Char)
  | 0, _ => .error .invalid
  | fuel + 1, cs =>
    match skipBlank cs with
    | [] => .error .ended
    | '[' :: rest => skipItems fuel true rest
    | '\x7b' :: rest => skipMembers fuel true rest
    | c :: rest => skipScalar c rest

/-- The text after the items of an array, from the first one or from one after another. -/
def skipItems : (fuel : Nat) → (isFirst : Bool) → List Char → Except ScanError (List Char)
  | 0, _, _ => .error .invalid
  | fuel + 1, isFirst, cs =>
    match skipBlank cs with
    | [] => .error .ended
    | ']' :: rest => .ok rest
    | c :: rest =>
      if isFirst then do
        skipItems fuel false (← skipValueFuel fuel (c :: rest))
      else if c = ',' then do
        skipItems fuel false (← skipValueFuel fuel rest)
      else .error .invalid

/-- The text after the members of an object, from the first one or from one after another. -/
def skipMembers : (fuel : Nat) → (isFirst : Bool) → List Char → Except ScanError (List Char)
  | 0, _, _ => .error .invalid
  | fuel + 1, isFirst, cs =>
    match skipBlank cs with
    | [] => .error .ended
    | '\x7d' :: rest => .ok rest
    | c :: rest =>
      if isFirst || c = ',' then
        match skipBlank (if isFirst then c :: rest else rest) with
        | [] => .error .ended
        | '"' :: rest => do
          match skipBlank (← skipString rest) with
          | [] => .error .ended
          | ':' :: rest => skipMembers fuel false (← skipValueFuel fuel rest)
          | _ => .error .invalid
        | _ => .error .invalid
      else .error .invalid

end

/-- The text after a value. -/
def skipValue (cs : List Char) : Except ScanError (List Char) :=
  skipValueFuel (2 * cs.length + 2) cs

/-- The failure for something that was read and should have been something else. -/
def mismatch {α : Type} : Except ScanError α → ScanError
  | .ok _ => .invalid
  | .error e => e

/-- The failure for a value that starts with `c` and should have been something else.  A string, a
word or a number is read first, and may end too early. -/
def refuse (c : Char) (rest : List Char) : ScanError :=
  if c = '"' then mismatch (scanString none rest)
  else if c = '-' then mismatch (skipNumber rest)
  else if c.isDigit then mismatch (skipNumber (c :: rest))
  else mismatch (skipScalar c rest)

/-- A string, after white space. -/
def scanStringValue (cs : List Char) : Scanned String :=
  match skipBlank cs with
  | [] => .error .ended
  | '"' :: rest => (scanString none rest).map fun (s, rest) => (String.ofList s, rest)
  | c :: rest => .error (refuse c rest)

end IncludeDeps.Json
