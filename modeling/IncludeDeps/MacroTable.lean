import IncludeDeps.Directive
import IncludeDeps.OrderedMap

/-!
# Macro tables

What the macros seen so far may stand for.  Conditionals are not evaluated, so a macro that is
defined several times may have any of its values; they are kept in the order in which they were
first seen, each once.
-/

namespace IncludeDeps

/-- The values that each macro may have. -/
structure MacroTable where
  /-- The values of each name, first seen first. -/
  entries : OrderedMap String (List String)
deriving DecidableEq

namespace MacroTable

/-- The table without macros. -/
def empty : MacroTable := ⟨∅⟩

instance : EmptyCollection MacroTable := ⟨empty⟩

/-- The values of a name; none if it is not defined. -/
def values (t : MacroTable) (name : String) : List String := (t.entries.get? name).getD []

/-- Whether `value` is one of the values of `name`. -/
def has (t : MacroTable) (name value : String) : Bool := (t.values name).contains value

/-- Gives `name` a further value, unless it has it already. -/
def define (t : MacroTable) (name value : String) : MacroTable :=
  if t.has name value then t else ⟨t.entries.insert name (t.values name ++ [value])⟩

/-- Gives `name` a further value, and tells whether it is new. -/
def learn (t : MacroTable) (name value : String) : Bool × MacroTable :=
  (!t.has name value, t.define name value)

/-- Takes in definitions one after the other. -/
def defineAll (t : MacroTable) (l : List MacroDefinition) : MacroTable :=
  l.foldl (fun t d => t.define d.name d.value) t

/-- Takes in one of the definitions of a file.  `changed` is whether one before it was new. -/
def learnNext : Bool × MacroTable → MacroDefinition → Bool × MacroTable
  | (changed, t), m =>
    let (isNew, t) := t.learn m.name m.value
    (changed || isNew, t)

/-- Takes in the definitions of a file one after the other, and tells whether one of them was new when it
came. -/
def learnFrom (t : MacroTable) (d : Directives) : Bool × MacroTable := d.macros.foldl learnNext (false, t)

/-- Whether some of the definitions would add to the table. -/
def lacks (t : MacroTable) (l : List MacroDefinition) : Bool := l.any fun d => !t.has d.name d.value

/-- The table of pairs of a name and a value. -/
def ofPairs (l : List (String × String)) : MacroTable := empty.defineAll (l.map fun e => ⟨e.1, e.2⟩)

/-- The table in which each name of a map has its value. -/
def ofMap (m : OrderedMap String String) : MacroTable := ofPairs m.toList

/-- The number of pairs of a name and a value. -/
def size (t : MacroTable) : Nat := t.entries.values.foldl (fun n values => n + values.length) 0

/-- Whether no macro is defined. -/
def isEmpty (t : MacroTable) : Bool := t.entries.isEmpty

end MacroTable

end IncludeDeps
