/-!
# TOML values

The data of a TOML document.  Tables keep how they came about, because that decides whether a
document may go on to add to them.

* `Toml.Value` is a value, `Toml.Entries` the content of a table;
* `Toml.Entries.get?` and `Toml.Entries.set` are the accesses by key;
* `Toml.Entries.add?` adds a value under a dotted key, if the document may do so.
-/

namespace IncludeDeps.Toml

/-- How a table came about. -/
inductive TableKind where
  /-- By a header of its own, or as the document. -/
  | defined
  /-- By the header of a table inside it. -/
  | implied
  /-- By a dotted key. -/
  | dotted
  /-- In braces; nothing can be added to it. -/
  | inline
deriving DecidableEq

/-- A value. -/
inductive Value where
  /-- A text. -/
  | string (text : String)
  /-- A whole number. -/
  | integer (n : Int)
  /-- A floating-point number, as it is written. -/
  | float (literal : String)
  /-- A date, a time or both, as it is written. -/
  | date (literal : String)
  /-- A truth value. -/
  | boolean (b : Bool)
  /-- An array in brackets. -/
  | array (items : List Value)
  /-- A table. -/
  | table (kind : TableKind) (entries : List (String × Value))
  /-- The tables of an array, each with a header of its own. -/
  | tables (elements : List (List (String × Value)))
deriving Inhabited

/-- The content of a table, in the order in which keys came up first. -/
abbrev Entries := List (String × Value)

namespace Entries

/-- The value under a key. -/
def get? (es : Entries) (key : String) : Option Value := es.lookup key

/-- Sets the value under a key; a new key comes last. -/
def set (es : Entries) (key : String) (v : Value) : Entries :=
  if es.any (·.1 == key) then es.map fun e => if e.1 == key then (key, v) else e
  else es ++ [(key, v)]

/-- Adds a value under a dotted key, making the tables on the way.  A key is set once, and only in
a table that a dotted key made or, under a single key, in the table itself.  On the way there,
tables made by headers inside them are passed through, and of an array of tables the last one. -/
def add? (es : Entries) : (key : List String) → Value → Option Entries
  | [], _ => none
  | [key], v => if (es.get? key).isSome then none else some (es.set key v)
  | key :: rest, v =>
    match es.get? key with
    | none => do return es.set key (.table .dotted (← add? [] rest v))
    | some (.table kind inner) =>
      if kind = .dotted ∨ kind = .implied ∧ 1 < rest.length then do
        return es.set key (.table kind (← add? inner rest v))
      else none
    | some (.tables elements) =>
      if 1 < rest.length then do
        let last ← add? (elements.getLast?.getD []) rest v
        return es.set key (.tables (elements.dropLast ++ [last]))
      else none
    | some _ => none

end Entries

end IncludeDeps.Toml
