import IncludeDeps.OrderedMap
import IncludeDeps.Toml.Value

/-!
# Records in TOML

How the data of a program is read off TOML values.  The fields of a record stand in a table under
their names, or in an array in their order; anything else in the table, and anything after the last
field in the array, is passed over.  A date counts as a table with one key of its own.

* `Toml.Record.ofValue?` is the record that a value holds;
* `Toml.Record.read` reads a field, `Toml.Record.readOr` one that may be missing.
-/

namespace IncludeDeps.Toml

namespace Value

/-- The items of an array. -/
def items? : Value → Option (List Value)
  | .array items => some items
  | .tables elements => some (elements.map (.table .defined))
  | _ => none

/-- The entries of a table. -/
def entries? : Value → Option Entries
  | .table _ es => some es
  | .date literal => some [("$__toml_private_datetime", .string literal)]
  | _ => none

/-- The text that a value is. -/
def string? : Value → Option String
  | .string s => some s
  | _ => none

/-- The truth value that a value is. -/
def boolean? : Value → Option Bool
  | .boolean b => some b
  | _ => none

/-- The texts that are the items of an array. -/
def strings? (v : Value) : Option (List String) := do (← v.items?).mapM string?

/-- The entries of a table in the order of the keys, their values read by `read`. -/
def map? {α : Type} (read : Value → Option α) (v : Value) : Option (OrderedMap String α) := do
  let es ← (← v.entries?).mapM fun (key, v) => return (key, ← read v)
  return OrderedMap.ofList es

end Value

/-- The fields of a record, before they are read. -/
inductive Record where
  /-- Under their names. -/
  | named (entries : Entries)
  /-- In their order. -/
  | ordered (items : List Value)

namespace Record

/-- The record that a value holds. -/
def ofValue? (v : Value) : Option Record :=
  match v.entries?, v.items? with
  | some es, _ => some (named es)
  | none, some items => some (ordered items)
  | none, none => none

/-- The value of the field with a place in the order and a name. -/
def get? (r : Record) (index : Nat) (name : String) : Option Value :=
  match r with
  | named es => es.get? name
  | ordered items => items[index]?

variable {α : Type}

/-- Reads a field that has to be there. -/
def read (r : Record) (index : Nat) (name : String) (as : Value → Option α) : Option α := do
  as (← r.get? index name)

/-- Reads a field that has a default. -/
def readOr (r : Record) (index : Nat) (name : String) (default : α) (as : Value → Option α) :
    Option α :=
  match r.get? index name with
  | some v => as v
  | none => some default

end Record

end IncludeDeps.Toml
