import IncludeDeps.Toml.Key
import IncludeDeps.Toml.Number

/-!
# Reading TOML values

An array stands in brackets, over several lines if need be; a comma may follow its last item.  A
table in braces stands on one line and has no comma at its end.  Both nest up to a fixed depth.
-/

namespace IncludeDeps.Toml

/-- A value that is no array and no table. -/
def scalar : List Char → Reading Value
  | 't' :: 'r' :: 'u' :: 'e' :: rest => some (.boolean true, rest)
  | 'f' :: 'a' :: 'l' :: 's' :: 'e' :: rest => some (.boolean false, rest)
  | '"' :: rest => (anyString ('"' :: rest)).map fun (s, rest) => (.string s, rest)
  | '\'' :: rest => (anyString ('\'' :: rest)).map fun (s, rest) => (.string s, rest)
  | cs => number cs

/-- The rest of an array whose items are read by `item`; `fuel` bounds their number. -/
def arrayRest (item : List Char → Reading Value) :
    (fuel : Nat) → List Char → Option (List Value × List Char)
  | 0, _ => none
  | fuel + 1, cs => do
    match ← skipSpace? cs with
    | ']' :: rest => return ([], rest)
    | cs =>
      let (v, rest) ← item cs
      match ← skipSpace? rest with
      | ',' :: rest =>
        let (vs, rest) ← arrayRest item fuel rest
        return (v :: vs, rest)
      | ']' :: rest => return ([v], rest)
      | _ => none

/-- A key and its value, which is read by `item`, and the text after the blanks behind them. -/
def keyValue (item : List Char → Reading Value) (cs : List Char) :
    Option ((List String × Value) × List Char) := do
  match ← key cs with
  | (k, '=' :: rest) =>
    let (v, rest) ← item (skipBlank rest)
    return ((k, v), skipBlank rest)
  | _ => none

/-- The rest of a table in braces after some entries; `fuel` bounds the number of the others. -/
def bracesRest (item : List Char → Reading Value) :
    (fuel : Nat) → Entries → List Char → Option (Entries × List Char)
  | 0, _, _ => none
  | fuel + 1, es, cs => do
    let ((k, v), rest) ← keyValue item cs
    let es ← es.add? k v
    match rest with
    | ',' :: rest => bracesRest item fuel es rest
    | '}' :: rest => return (es, rest)
    | _ => none

/-- A value, in which brackets and braces nest at most to a depth. -/
def valueWithin : (depth : Nat) → List Char → Reading Value
  | depth + 1, '[' :: rest =>
    (arrayRest (valueWithin depth) (rest.length + 1) rest).map fun (vs, rest) => (.array vs, rest)
  | depth + 1, '{' :: rest =>
    match skipBlank rest with
    | '}' :: rest => some (.table .inline [], rest)
    | cs =>
      (bracesRest (valueWithin depth) (cs.length + 1) [] cs).map fun (es, rest) =>
        (.table .inline es, rest)
  | _, cs => scalar cs

/-- A value. -/
def value (cs : List Char) : Reading Value := valueWithin maxDepth cs

end IncludeDeps.Toml
