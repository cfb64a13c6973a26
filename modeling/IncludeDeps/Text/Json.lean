import IncludeDeps.Text.Hex

/-!
# Text in JSON

`Json.quote` writes a text as a JSON string: quotes, backslashes and control characters are
escaped, the usual ones by a letter and the others by their number; everything else stands for
itself.
-/

namespace IncludeDeps.Json

/-- A character inside a JSON string. -/
def escape (c : Char) : List Char :=
  match c with
  | '"' => ['\\', '"']
  | '\\' => ['\\', '\\']
  | '\x08' => ['\\', 'b']
  | '\t' => ['\\', 't']
  | '\n' => ['\\', 'n']
  | '\x0c' => ['\\', 'f']
  | '\r' => ['\\', 'r']
  | c =>
    if c.toNat < 0x20 then
      ['\\', 'u', '0', '0', Text.hexDigit (c.toNat / 16), Text.hexDigit (c.toNat % 16)]
    else [c]

/-- A text as a JSON string. -/
def quote (s : String) : String := String.ofList ('"' :: s.toList.flatMap escape ++ ['"'])

end IncludeDeps.Json
