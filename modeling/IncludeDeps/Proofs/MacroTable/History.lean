import IncludeDeps.MacroTable
import IncludeDeps.Proofs.Ordered
import Mathlib.Algebra.GroupWithZero.Nat
import Mathlib.Data.Finset.Card

/-!
# Macro tables in use

A table starts from pairs of a name and a value, and takes in further definitions, one at a time or all of
a file.

* `MacroTable.Step` is what is done to a table, and `MacroTable.after` the table after a number of steps;
* `MacroTable.values_defineAll` and `MacroTable.size_defineAll` tell the values of a name and their number
  from the definitions alone;
* `MacroTable.answers_after` tells what a table answers after any steps.

A table in use is the one that was made of all definitions at once (`MacroTable.after_eq`), so what it
answers is told from one list, and it does not matter in which steps the definitions have come.
-/

namespace IncludeDeps

namespace OrderedMap

variable {α β : Type} [Ord α] [Std.TransOrd α]

/-- In the sum over all values a new value takes the place of the one that was under its key. -/
lemma sum_insertEntry {k : α} {v : β} {l : List (α × β)} (f : β → ℕ)
    (hl : l.Pairwise fun e e' => compare e.1 e'.1 = .lt) :
    ((insertEntry id k v l).map fun e => f e.2).sum +
        ((l.find? fun e => compare k e.1 == .eq).map fun e => f e.2).getD 0 =
      (l.map fun e => f e.2).sum + f v := by
  induction l with
  | nil => simp [insertEntry]
  | cons d rest ih =>
    rw [List.pairwise_cons] at hl
    unfold insertEntry
    split
    · next hlt =>
      -- the key comes before all others, so there was no value under it
      have hnone : (d :: rest).find? (fun e => compare k e.1 == .eq) = none := by
        refine List.find?_eq_none.2 fun e he => ?_
        have hbefore : compare k e.1 = .lt := by
          rcases List.mem_cons.1 he with rfl | he
          · exact hlt
          · exact Std.TransCmp.lt_trans hlt (hl.1 e he)
        simp [hbefore]
      rw [hnone, Option.map_none, Option.getD_none]
      simp only [List.map_cons, List.sum_cons]
      omega
    · -- the entry in front has the key; its value is the one that is replaced
      next heq =>
      rw [List.find?_cons_of_pos (by simp [heq]), Option.map_some, Option.getD_some]
      simp only [List.map_cons, List.sum_cons]
      omega
    · next hgt =>
      have hrest := ih hl.2
      rw [List.find?_cons_of_neg (by simp [hgt])]
      simp only [List.map_cons, List.sum_cons]
      omega

lemma sum_values_insert (m : OrderedMap α β) (k : α) (v : β) (f : β → ℕ) :
    ((m.insert k v).values.map f).sum + ((m.get? k).map f).getD 0 = (m.values.map f).sum + f v := by
  have hsum := sum_insertEntry (k := k) (v := v) f m.sorted
  rw [values, values, List.map_map, List.map_map, get?, Option.map_map]
  exact hsum

end OrderedMap

namespace MacroTable

variable {t : MacroTable} {name key value : String} {l : List MacroDefinition} {m : MacroDefinition}

/-! ## One definition -/

lemma has_iff : t.has name value ↔ value ∈ t.values name := by simp [has]

lemma values_define : (t.define name value).values key =
    if key = name ∧ value ∉ t.values name then t.values name ++ [value] else t.values key := by
  unfold define
  by_cases hhas : t.has name value
  · rw [if_pos hhas, if_neg fun h => h.2 (has_iff.1 hhas)]
  · rw [if_neg hhas, values, OrderedMap.get?_insert_eq_ite]
    by_cases hkey : key = name
    · rw [if_pos hkey, if_pos ⟨hkey, fun h => hhas (has_iff.2 h)⟩, Option.getD_some]
    · rw [if_neg hkey, if_neg fun h => hkey h.1, values]

lemma size_eq (t : MacroTable) : t.size = (t.entries.values.map List.length).sum := by
  rw [List.sum_eq_foldl, List.foldl_map, size]

lemma size_define : (t.define name value).size =
    if value ∈ t.values name then t.size else t.size + 1 := by
  unfold define
  by_cases hhas : t.has name value
  · rw [if_pos hhas, if_pos (has_iff.1 hhas)]
  · rw [if_neg hhas, if_neg fun h => hhas (has_iff.2 h), size_eq, size_eq]
    show ((t.entries.insert name (t.values name ++ [value])).values.map List.length).sum = _
    have hsum := OrderedMap.sum_values_insert t.entries name (t.values name ++ [value]) List.length
    have hold : ((t.entries.get? name).map List.length).getD 0 = (t.values name).length := by
      rw [values]
      cases t.entries.get? name with
      | _ => rfl
    rw [hold, List.length_append, List.length_singleton] at hsum
    omega

/-! ## All definitions -/

/-- The values that definitions give to a name, in the order of the definitions and as often as
they are given. -/
def given (l : List MacroDefinition) (name : String) : List String :=
  (l.filter fun m => m.name = name).map MacroDefinition.value

lemma mem_given : value ∈ given l name ↔ ⟨name, value⟩ ∈ l := by
  unfold given
  constructor
  · intro h
    obtain ⟨m, hm, rfl⟩ := List.mem_map.1 h
    obtain ⟨hmem, hname⟩ := List.mem_filter.1 hm
    rw [← of_decide_eq_true hname]
    exact hmem
  · intro h
    exact List.mem_map.2 ⟨⟨name, value⟩, List.mem_filter.2 ⟨h, by simp⟩, rfl⟩

/-- A value that comes last is listed if it comes for the first time. -/
lemma eraseDups_concat {xs : List String} : (xs ++ [value]).eraseDups =
    if value ∈ xs then xs.eraseDups else xs.eraseDups ++ [value] := by
  rw [List.eraseDups_append]
  split
  · next h => simp [List.removeAll, h]
  · next h => simp [List.removeAll, h, List.eraseDups_cons]

lemma defineAll_concat : t.defineAll (l ++ [m]) = (t.defineAll l).define m.name m.value := by
  rw [defineAll, List.foldl_concat, defineAll]

lemma defineAll_append {l' : List MacroDefinition} :
    t.defineAll (l ++ l') = (t.defineAll l).defineAll l' := List.foldl_append

/-- A name has all values that were given to it, each where it came first.  Definitions of other
names do not matter, wherever they stand among them. -/
theorem values_defineAll : (empty.defineAll l).values name = (given l name).eraseDups := by
  induction l using List.reverseRecOn with
  | nil => rfl
  | append_singleton l m ih =>
    rw [defineAll_concat, values_define]
    by_cases hname : name = m.name
    · have hgiven : given (l ++ [m]) name = given l name ++ [m.value] := by
        simp [given, hname]
      rw [hgiven, eraseDups_concat, ← hname, ih]
      by_cases hvalue : m.value ∈ given l name
      · rw [if_pos hvalue, if_neg fun h => h.2 (List.mem_eraseDups.2 hvalue)]
      · rw [if_neg hvalue, if_pos ⟨rfl, fun h => hvalue (List.mem_eraseDups.1 h)⟩]
    · have hgiven : given (l ++ [m]) name = given l name := by
        simp [given, Ne.symm hname]
      rw [hgiven, if_neg fun h => hname h.1, ih]

lemma mem_values_iff : value ∈ (empty.defineAll l).values name ↔ ⟨name, value⟩ ∈ l := by
  rw [values_defineAll, List.mem_eraseDups, mem_given]

/-- A table is as large as there are different definitions: pairs of a name and a value, each
counted once. -/
theorem size_defineAll : (empty.defineAll l).size = l.toFinset.card := by
  induction l using List.reverseRecOn with
  | nil => rfl
  | append_singleton l m ih =>
    have hinsert : (l ++ [m]).toFinset = insert m l.toFinset := by
      ext x
      simp
    rw [defineAll_concat, size_define, ih, hinsert]
    split
    · next h => rw [Finset.insert_eq_of_mem (List.mem_toFinset.2 (mem_values_iff.1 h))]
    · next h => rw [Finset.card_insert_of_notMem fun hm => h (mem_values_iff.2 (List.mem_toFinset.1 hm))]

lemma isEmpty_defineAll_iff : (empty.defineAll l).isEmpty ↔ (empty.defineAll l).size = 0 := by
  constructor
  · intro h
    have hnone : (empty.defineAll l).entries.toList = [] := List.isEmpty_iff.1 h
    rw [size_eq, OrderedMap.values, hnone]
    rfl
  · intro h
    rw [size_defineAll, Finset.card_eq_zero, List.toFinset_eq_empty_iff] at h
    rw [h]
    rfl

/-! ## What is told -/

/-- It makes no difference for what is told whether a definition is compared with the table of its turn or
with the one before the file: of the definitions that the file adds, the first is also new in its turn. -/
lemma foldl_learnNext (l : List MacroDefinition) (changed : Bool) (t : MacroTable) :
    l.foldl learnNext (changed, t) = (changed || t.lacks l, t.defineAll l) := by
  induction l generalizing changed t with
  | nil => simp [lacks, defineAll]
  | cons m rest ih =>
    have hlacks : (changed || !t.has m.name m.value || (t.define m.name m.value).lacks rest) =
        (changed || t.lacks (m :: rest)) := by
      by_cases hhas : t.has m.name m.value
      · simp [lacks, define, hhas]
      · simp [lacks, hhas]
    rw [List.foldl_cons]
    exact (ih _ _).trans (congrArg (·, _) hlacks)

lemma learnFrom_eq (t : MacroTable) (d : Directives) :
    t.learnFrom d = (t.lacks d.macros, t.defineAll d.macros) := by
  rw [learnFrom, foldl_learnNext, Bool.false_or]

/-! ## Steps -/

/-- What is done to a table: one macro is defined, or all macros of a file are taken in. -/
inductive Step where
  /-- Gives a name a value. -/
  | define (name value : String)
  /-- Takes in the definitions of a file. -/
  | extend (d : Directives)

/-- The definitions that a step gives. -/
def Step.definitions : Step → List MacroDefinition
  | define name value => [⟨name, value⟩]
  | extend d => d.macros

/-- Takes a step, and tells whether it brought anything new. -/
def step (t : MacroTable) : Step → Bool × MacroTable
  | .define name value => t.learn name value
  | .extend d => t.learnFrom d

/-- The table that was made from pairs, after a number of steps. -/
def after (pairs : List (String × String)) (steps : List Step) : MacroTable :=
  steps.foldl (fun t s => (t.step s).2) (ofPairs pairs)

/-- All definitions that the table was given, first the pairs and then those of the steps. -/
def history (pairs : List (String × String)) (steps : List Step) : List MacroDefinition :=
  pairs.map (fun e => ⟨e.1, e.2⟩) ++ steps.flatMap Step.definitions

lemma step_snd (t : MacroTable) (s : Step) : (t.step s).2 = t.defineAll s.definitions := by
  cases s with
  | define name value => rfl
  | extend d => rw [step, learnFrom_eq, Step.definitions]

/-- A table is that of the definitions that it was given, however they were divided among the steps. -/
lemma after_eq (pairs : List (String × String)) (steps : List Step) :
    after pairs steps = empty.defineAll (history pairs steps) := by
  have hsteps : ∀ t : MacroTable, steps.foldl (fun t s => (t.step s).2) t =
      t.defineAll (steps.flatMap Step.definitions) := by
    induction steps with
    | nil => exact fun t => rfl
    | cons s rest ih =>
      intro t
      rw [List.foldl_cons, ih, step_snd, List.flatMap_cons, defineAll_append]
  rw [after, hsteps, history, defineAll_append, ofPairs]

/-- A step adds values behind those that a name has, and none to a name that it does not define. -/
lemma values_step {s : Step} : (empty.defineAll l).values name <+:
      ((empty.defineAll l).step s).2.values name ∧
    (name ∉ s.definitions.map MacroDefinition.name →
      ((empty.defineAll l).step s).2.values name = (empty.defineAll l).values name) := by
  rw [step_snd, ← defineAll_append, values_defineAll, values_defineAll]
  have hgiven : given (l ++ s.definitions) name = given l name ++ given s.definitions name := by
    rw [given, List.filter_append, List.map_append, given, given]
  rw [hgiven]
  constructor
  · rw [List.eraseDups_append]
    exact List.prefix_append _ _
  · intro hname
    have hnone : given s.definitions name = [] := by
      rw [given, List.map_eq_nil_iff, List.filter_eq_nil_iff]
      intro m hm heq
      exact hname (List.mem_map.2 ⟨m, hm, of_decide_eq_true heq⟩)
    rw [hnone, List.append_nil]

/-- A table that was made from pairs and has taken any steps since tells of all definitions that it was
given:

* a name has the values that were given to it, each once, in the order in which they first came;
* the size is the number of different definitions, and the table is empty exactly if the size is zero;
* a definition is told to be new exactly if it was never given before, and a file to bring something new
  exactly if one of its definitions was never given before;
* one more step takes no value from a name and puts new ones behind the old ones, and a name that it does not
  define keeps its values as they are. -/
theorem answers_after (pairs : List (String × String)) (steps : List Step) :
    (∀ name, (after pairs steps).values name = (given (history pairs steps) name).eraseDups) ∧
    (after pairs steps).size = (history pairs steps).toFinset.card ∧
    ((after pairs steps).isEmpty ↔ (after pairs steps).size = 0) ∧
    (∀ name value, ((after pairs steps).learn name value).1 ↔ ⟨name, value⟩ ∉ history pairs steps) ∧
    (∀ d, ((after pairs steps).learnFrom d).1 ↔ ∃ m ∈ d.macros, m ∉ history pairs steps) ∧
    ∀ (s : Step) (name : String),
      (after pairs steps).values name <+: ((after pairs steps).step s).2.values name ∧
      (name ∉ s.definitions.map MacroDefinition.name →
        ((after pairs steps).step s).2.values name = (after pairs steps).values name) := by
  rw [after_eq]
  -- a definition is new if the table lacks it, and the table has all that were given
  have hnew : ∀ m : MacroDefinition, (!(empty.defineAll (history pairs steps)).has m.name m.value) = true ↔
      m ∉ history pairs steps := by
    intro m
    rw [Bool.not_eq_true', ← Bool.not_eq_true, has_iff, mem_values_iff]
  refine ⟨fun name => values_defineAll, size_defineAll, isEmpty_defineAll_iff, fun name value => ?_,
    fun d => ?_, fun s name => values_step⟩
  · exact hnew ⟨name, value⟩
  · rw [learnFrom_eq, lacks, List.any_eq_true]
    exact exists_congr fun m => and_congr_right fun _ => hnew m

/-- A name with two values keeps both when a file defines another name. -/
theorem values_header_after_extend :
    "HEADER" ∉ (Step.extend ⟨[], [⟨"OTHER", "<c.h>"⟩]⟩).definitions.map MacroDefinition.name ∧
    ((after [("HEADER", "<a.h>")] [.define "HEADER" "<b.h>", .define "HEADER" "<a.h>"]).step
      (.extend ⟨[], [⟨"OTHER", "<c.h>"⟩]⟩)).2.values "HEADER" = ["<a.h>", "<b.h>"] := by
  have hname : "HEADER" ∉
      (Step.extend ⟨[], [⟨"OTHER", "<c.h>"⟩]⟩).definitions.map MacroDefinition.name := by decide
  have hstep := (answers_after [("HEADER", "<a.h>")]
    [.define "HEADER" "<b.h>", .define "HEADER" "<a.h>"]).2.2.2.2.2 (.extend ⟨[], [⟨"OTHER", "<c.h>"⟩]⟩)
    "HEADER"
  refine ⟨hname, (hstep.2 hname).trans ?_⟩
  rw [(answers_after _ _).1]
  decide +kernel

end MacroTable

end IncludeDeps
