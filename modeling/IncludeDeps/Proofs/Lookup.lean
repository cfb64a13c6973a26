import IncludeDeps.Lookup
import IncludeDeps.Path.Interner
import IncludeDeps.Proofs.Ordered
import Mathlib.Data.Finset.Card
import Mathlib.Data.List.DropRight

/-!
# Lookups in use

A lookup stays in use while the files change, and is cleared now and then.  Until it is cleared, the
answer for a path stays what it was when the path was asked for first.

* `LookupEvent` is what happens while a lookup is in use; `LookupEvent.phase` is what has happened
  since the last clear, and `LookupEvent.moment` what had happened when a path was asked for first in
  this time;
* `Lookup.get?_after` and `Lookup.size_after` tell what is remembered after a history;
* `NumberedLookup` remembers answers by the numbers of the paths, which others use as well and which no
  clear takes back, and `NumberedLookup.Mirrors` says that it tells the same as a lookup that remembers
  them by their texts;
* `NumberedLookup.answers_since_clear` tells the answers after any history.
-/

namespace IncludeDeps

/-! ## Histories -/

/-- What happens while a lookup is in use. -/
inductive LookupEvent where
  /-- The files change into these. -/
  | edit (files : Workspace)
  /-- A path is asked for. -/
  | ask (p : Path)
  /-- A path gets a number, for another use of the numbers. -/
  | number (p : Path)
  /-- The answers are forgotten. -/
  | clear

namespace LookupEvent

/-- Whether the answers are forgotten. -/
def isClear : LookupEvent → Bool
  | clear => true
  | _ => false

/-- Whether the files change. -/
def isEdit : LookupEvent → Bool
  | edit _ => true
  | _ => false

/-- The text that is asked for. -/
def asked? : LookupEvent → Option String
  | ask p => some p.text
  | _ => none

/-- The files after an event. -/
def filesAfter (w : Workspace) : LookupEvent → Workspace
  | edit w' => w'
  | _ => w

/-- The files after a history. -/
def files (w : Workspace) (h : List LookupEvent) : Workspace := h.foldl filesAfter w

/-- The history up to the last clear. -/
def past (h : List LookupEvent) : List LookupEvent := h.rdropWhile fun e => !e.isClear

/-- What has happened since the last clear. -/
def phase (h : List LookupEvent) : List LookupEvent := h.rtakeWhile fun e => !e.isClear

/-- The texts that have been asked for since the last clear. -/
def texts (h : List LookupEvent) : List String := (phase h).filterMap asked?

/-- What had happened when a path was asked for first since the last clear: all, if it has not been asked
for. -/
def moment (h : List LookupEvent) (p : Path) : List LookupEvent :=
  past h ++ (phase h).takeWhile fun e => e.asked? != some p.text

/-- What a party has come to that reacts to every event, on the files there are. -/
def outcome {σ : Type} (react : Workspace → σ → LookupEvent → σ) (s : σ) (w : Workspace)
    (h : List LookupEvent) : σ :=
  (h.foldl (fun (x : Workspace × σ) e => (filesAfter x.1 e, react x.1 x.2 e)) (w, s)).2

variable {σ : Type} {react : Workspace → σ → LookupEvent → σ} {s : σ} {w : Workspace}
  {h : List LookupEvent} {e : LookupEvent} {p q : Path}

@[simp] lemma files_concat : files w (h ++ [e]) = filesAfter (files w h) e := by
  rw [files, List.foldl_concat, files]

lemma files_of_no_edit {h' : List LookupEvent} (hedit : ∀ e ∈ h', e.isEdit = false) :
    files w (h ++ h') = files w h := by
  induction h' using List.reverseRecOn with
  | nil => rw [List.append_nil]
  | append_singleton h' e ih =>
    rw [← List.append_assoc, files_concat, ih fun e he => hedit e (List.mem_append_left _ he)]
    cases e with
    | edit w' => cases hedit (edit w') (by simp)
    | _ => rfl

lemma outcome_concat : outcome react s w (h ++ [e]) = react (files w h) (outcome react s w h) e := by
  have hfiles : ∀ (h : List LookupEvent) (x : Workspace × σ),
      (h.foldl (fun (x : Workspace × σ) e => (filesAfter x.1 e, react x.1 x.2 e)) x).1 =
        files x.1 h := by
    intro h
    induction h with
    | nil => exact fun _ => rfl
    | cons e h ih => exact fun x => ih _
  rw [outcome, List.foldl_concat, hfiles, outcome]

/-! ### Phases -/

lemma past_append_phase : past h ++ phase h = h := List.rdropWhile_append_rtakeWhile

@[simp] lemma phase_clear : phase (h ++ [clear]) = [] :=
  List.rtakeWhile_concat_neg _ _ _ (by simp [isClear])

lemma phase_concat (he : e.isClear = false) : phase (h ++ [e]) = phase h ++ [e] :=
  List.rtakeWhile_concat_pos _ _ _ (by simp [he])

lemma past_concat (he : e.isClear = false) : past (h ++ [e]) = past h :=
  List.rdropWhile_concat_pos _ _ _ (by simp [he])

@[simp] lemma texts_clear : texts (h ++ [clear]) = [] := by
  rw [texts, phase_clear, List.filterMap_nil]

lemma texts_concat (he : e.isClear = false) : texts (h ++ [e]) = texts h ++ e.asked?.toList := by
  rw [texts, phase_concat he, List.filterMap_append, texts]
  cases e <;> rfl

lemma mem_texts : p.text ∈ texts h ↔ ∃ e ∈ phase h, e.asked? = some p.text := List.mem_filterMap

/-- The moment of a path that has not been asked for is now. -/
lemma moment_of_not_mem (hp : p.text ∉ texts h) : moment h p = h := by
  have hall : ∀ e ∈ phase h, e.asked? != some p.text := fun e he =>
    bne_iff_ne.2 fun heq => hp (mem_texts.2 ⟨e, he, heq⟩)
  rw [moment, List.takeWhile_eq_self_iff.2 hall, past_append_phase]

/-- The moment of a path that has been asked for stays. -/
lemma moment_concat (he : e.isClear = false) (hp : p.text ∈ texts h) :
    moment (h ++ [e]) p = moment h p := by
  obtain ⟨first, hfirst, hasked⟩ := mem_texts.1 hp
  have hstop : ((phase h).takeWhile fun e => e.asked? != some p.text).length ≠ (phase h).length := by
    intro hlength
    have hall := List.takeWhile_eq_self_iff.1 ((List.takeWhile_prefix _).eq_of_length hlength)
    exact bne_iff_ne.1 (hall first hfirst) hasked
  rw [moment, past_concat he, phase_concat he, List.takeWhile_append, if_neg hstop, moment]

/-- The moment of a path that is asked for the first time is now. -/
lemma moment_ask (hp : p.text ∉ texts h) : moment (h ++ [ask p]) p = h := by
  have hall : ∀ e ∈ phase h, e.asked? != some p.text := fun e he =>
    bne_iff_ne.2 fun heq => hp (mem_texts.2 ⟨e, he, heq⟩)
  have hself : (ask p).asked? = some p.text := rfl
  rw [moment, past_concat rfl, phase_concat rfl, List.takeWhile_append_of_pos hall,
    List.takeWhile_cons_of_neg (by simp [hself]), List.append_nil, past_append_phase]

end LookupEvent

/-! ## What is remembered -/

/-- A path is its text. -/
lemma Path.eq_of_text {p q : Path} (h : p.text = q.text) : p = q := by
  cases p
  cases q
  cases h
  rfl

namespace Lookup

open LookupEvent

variable {l : Lookup} {w : Workspace} {h : List LookupEvent} {e : LookupEvent} {p q : Path} {s : String}

lemma get?_remember : (l.remember w p).answers.get? s =
    if s = p.text then some (l.isFile w p) else l.answers.get? s := by
  unfold remember isFile
  by_cases hin : l.answers.contains p.text
  · rw [OrderedMap.contains_eq_isSome] at hin
    obtain ⟨b, hb⟩ := Option.isSome_iff_exists.1 hin
    rw [if_pos ((OrderedMap.contains_eq_isSome l.answers p.text).trans hin), hb]
    split
    · next heq => rw [heq, hb, Option.getD_some]
    · rfl
  · have hnone : l.answers.get? p.text = none := by
      simpa [OrderedMap.contains_eq_isSome] using hin
    rw [if_neg hin, OrderedMap.get?_insert_eq_ite, hnone, Option.getD_none]

lemma isFile_remember : (l.remember w q).isFile w p = l.isFile w p := by
  rw [isFile, get?_remember]
  split
  · next heq => rw [Path.eq_of_text heq, Option.getD_some]
  · rfl

lemma isFile_rememberAll {ps : List Path} : (l.rememberAll w ps).isFile w p = l.isFile w p := by
  unfold rememberAll
  induction ps generalizing l with
  | nil => rfl
  | cons q rest ih => rw [List.foldl_cons, ih, isFile_remember]

lemma size_remember : (l.remember w p).size =
    if l.answers.contains p.text then l.size else l.size + 1 := by
  unfold remember
  split
  · rfl
  · next hnew => exact OrderedMap.size_insert (Bool.not_eq_true _ ▸ hnew)

/-- The memory after an event. -/
def react (w : Workspace) (l : Lookup) : LookupEvent → Lookup
  | .edit _ => l
  | .ask p => l.remember w p
  | .number _ => l
  | .clear => l.clear

/-- The memory after a history. -/
def after (w : Workspace) (h : List LookupEvent) : Lookup := outcome react {} w h

lemma after_concat : after w (h ++ [e]) = (after w h).react (files w h) e := outcome_concat

/-- An answer from such a memory is what was found when its path was asked for first. -/
lemma isFile_of_get? (hget : l.answers.get? p.text =
      if p.text ∈ texts h then some ((files w (moment h p)).isFile p) else none) :
    l.isFile (files w h) p = (files w (moment h p)).isFile p := by
  rw [isFile, hget]
  split
  · rfl
  · next hp => rw [moment_of_not_mem hp, Option.getD_none]

/-- After a history the memory holds the texts that have been asked for since the last clear, each
with what was found when it was asked for first.  So an edit is not noticed before the next clear,
and it does not matter how often a path was asked for, nor what has happened before the last clear.
-/
theorem get?_after : (after w h).answers.get? p.text =
    if p.text ∈ texts h then some ((files w (moment h p)).isFile p) else none := by
  induction h using List.reverseRecOn with
  | nil => rfl
  | append_singleton h e ih =>
    -- what is neither a question nor a clear leaves the memory and the texts
    have hquiet (he : e.isClear = false) (hnone : e.asked? = none)
        (hkeep : (after w h).react (files w h) e = after w h) :
        (after w (h ++ [e])).answers.get? p.text = if p.text ∈ texts (h ++ [e]) then
          some ((files w (moment (h ++ [e]) p)).isFile p) else none := by
      rw [after_concat, hkeep, ih, texts_concat he, hnone, Option.toList_none, List.append_nil]
      split
      · next hp => rw [moment_concat he hp]
      · rfl
    cases e with
    | edit w' => exact hquiet rfl rfl rfl
    | number q => exact hquiet rfl rfl rfl
    | clear => rw [texts_clear, if_neg List.not_mem_nil, after_concat]; rfl
    | ask q =>
      have hmem : p.text ∈ texts (h ++ [ask q]) ↔ p.text ∈ texts h ∨ p.text = q.text := by
        rw [texts_concat rfl, List.mem_append]
        exact or_congr_right List.mem_singleton
      rw [after_concat, react, get?_remember]
      -- a path that has been asked for keeps its answer, also when it is the one that is asked for
      -- now
      by_cases hp : p.text ∈ texts h
      · rw [if_pos (hmem.2 (.inl hp)), moment_concat rfl hp, ih, if_pos hp]
        split
        · next heq => rw [← Path.eq_of_text heq, isFile_of_get? ih]
        · rfl
      · split
        · next heq =>
          rw [if_pos (hmem.2 (.inr heq)), ← Path.eq_of_text heq, moment_ask hp, isFile_of_get? ih,
            moment_of_not_mem hp]
        · next hne => rw [ih, if_neg hp, if_neg fun hin => (hmem.1 hin).elim hp hne]

/-- The answer for a path is what was found when it was asked for first. -/
lemma isFile_after :
    (after w h).isFile (files w h) p = (files w (moment h p)).isFile p :=
  isFile_of_get? get?_after

/-- The memory holds one answer for each of the texts. -/
lemma size_after : (after w h).size = (texts h).toFinset.card := by
  induction h using List.reverseRecOn with
  | nil => rfl
  | append_singleton h e ih =>
    have hquiet (he : e.isClear = false) (hnone : e.asked? = none)
        (hkeep : (after w h).react (files w h) e = after w h) :
        (after w (h ++ [e])).size = (texts (h ++ [e])).toFinset.card := by
      rw [after_concat, hkeep, ih, texts_concat he, hnone, Option.toList_none, List.append_nil]
    cases e with
    | edit w' => exact hquiet rfl rfl rfl
    | number q => exact hquiet rfl rfl rfl
    | clear => rw [texts_clear, after_concat]; rfl
    | ask q =>
      have hcontains : (after w h).answers.contains q.text ↔ q.text ∈ (texts h).toFinset := by
        rw [OrderedMap.contains_eq_isSome, get?_after, List.mem_toFinset]
        split <;> simp [*]
      have htexts : (texts (h ++ [ask q])).toFinset = insert q.text (texts h).toFinset := by
        rw [texts_concat rfl, List.toFinset_append, Finset.union_comm]
        rfl
      rw [after_concat, react, size_remember, htexts, ih]
      split
      · next hin => rw [Finset.insert_eq_of_mem (hcontains.1 hin)]
      · next hnew => rw [Finset.card_insert_of_notMem (mt hcontains.2 hnew)]

end Lookup

/-! ## Numbers -/

namespace Path.Interner

variable {i : Interner} {p : Path} {s t : String} {n : Nat}

/-- The number of a text. -/
def number? (i : Interner) (s : String) : Option Nat := i.texts.findIdx? (· = s)

lemma lt_of_number? (h : i.number? s = some n) : n < i.size := (List.findIdx?_eq_some_iff_getElem.1 h).1

lemma number?_inj (hs : i.number? s = some n) (ht : i.number? t = some n) : s = t := by
  obtain ⟨_, hs, -⟩ := List.findIdx?_eq_some_iff_getElem.1 hs
  obtain ⟨_, ht, -⟩ := List.findIdx?_eq_some_iff_getElem.1 ht
  exact (of_decide_eq_true hs).symm.trans (of_decide_eq_true ht)

/-- A text that has no number gets the next one, and a number that is given is kept. -/
lemma intern_eq : i.intern p = match i.number? p.text with
    | some n => (n, i)
    | none => (i.size, ⟨i.texts ++ [p.text]⟩) := rfl

lemma number?_intern : (i.intern p).2.number? s =
    if s = p.text then some (i.intern p).1 else i.number? s := by
  rw [intern_eq]
  cases hp : i.number? p.text with
  | some n =>
    by_cases heq : s = p.text
    · subst heq
      rw [if_pos rfl]
      exact hp
    · rw [if_neg heq]
  | none =>
    have happend : number? ⟨i.texts ++ [p.text]⟩ s = (i.number? s).or
        (([p.text].findIdx? (· = s)).map (· + i.size)) := List.findIdx?_append
    dsimp only
    rw [happend]
    by_cases heq : s = p.text
    · rw [if_pos heq, heq, hp]
      simp
    · rw [if_neg heq]
      simp [Ne.symm heq]

lemma size_le_intern : i.size ≤ (i.intern p).2.size := by
  rw [intern_eq]
  cases i.number? p.text with
  | some n => exact le_rfl
  | none => simp [size]

end Path.Interner

/-! ## Lookups with numbers -/

/-- A lookup that remembers its answers by the numbers of the paths. -/
structure NumberedLookup where
  /-- The paths that have a number. -/
  interner : Path.Interner := {}
  /-- The answers that are remembered. -/
  found : OrderedMap Nat Bool := ∅

namespace NumberedLookup

open LookupEvent

variable {m : NumberedLookup} {l : Lookup} {w : Workspace} {h : List LookupEvent} {p : Path}

/-- Asks whether a path leads to a file.  The path gets a number, and the answer is remembered. -/
def ask (m : NumberedLookup) (w : Workspace) (p : Path) : Bool × NumberedLookup :=
  let (n, interner) := m.interner.intern p
  match m.found.get? n with
  | some found => (found, { m with interner })
  | none => (w.isFile p, ⟨interner, m.found.insert n (w.isFile p)⟩)

/-- Gives a number to a path. -/
def number (m : NumberedLookup) (p : Path) : NumberedLookup :=
  { m with interner := (m.interner.intern p).2 }

/-- Forgets the answers.  The numbers stay. -/
def clear (m : NumberedLookup) : NumberedLookup := { m with found := ∅ }

/-- The number of answers that are remembered. -/
def size (m : NumberedLookup) : Nat := m.found.size

/-- The lookup after an event. -/
def react (w : Workspace) (m : NumberedLookup) : LookupEvent → NumberedLookup
  | .edit _ => m
  | .ask p => (m.ask w p).2
  | .number p => m.number p
  | .clear => m.clear

/-- The lookup after a history. -/
def after (w : Workspace) (h : List LookupEvent) : NumberedLookup := outcome react {} w h

lemma ask_eq : m.ask w p = match m.found.get? (m.interner.intern p).1 with
    | some found => (found, m.number p)
    | none => (w.isFile p, ⟨(m.interner.intern p).2,
      m.found.insert (m.interner.intern p).1 (w.isFile p)⟩) := rfl

/-- Both remember the same answers, one by numbers and one by texts. -/
structure Mirrors (m : NumberedLookup) (l : Lookup) : Prop where
  get? : ∀ s, (m.interner.number? s).bind m.found.get? = l.answers.get? s
  /-- There is an answer only for a number that has been given. -/
  lt : ∀ n, m.found.contains n → n < m.interner.size
  size : m.size = l.size

namespace Mirrors

lemma get?_intern (hm : m.Mirrors l) : m.found.get? (m.interner.intern p).1 = l.answers.get? p.text := by
  rw [← hm.get?, Path.Interner.intern_eq]
  cases m.interner.number? p.text with
  | some n => rfl
  | none =>
    have hnew : ¬ m.found.contains m.interner.size := fun hin => absurd (hm.lt _ hin) (lt_irrefl _)
    simpa [OrderedMap.contains_eq_isSome] using hnew

lemma number (hm : m.Mirrors l) : (m.number p).Mirrors l where
  get? s := by
    rw [NumberedLookup.number, Path.Interner.number?_intern]
    split
    · next heq => rw [heq, Option.bind_some, hm.get?_intern]
    · exact hm.get? s
  lt n hn := (hm.lt n hn).trans_le Path.Interner.size_le_intern
  size := hm.size

lemma clear : m.clear.Mirrors {} where
  get? s := by
    rw [NumberedLookup.clear]
    cases m.interner.number? s <;> rfl
  lt n hn := by cases hn
  size := rfl

/-- A new answer, under the number of its path and under its text. -/
lemma insert (hm : m.Mirrors l) (hget : l.answers.get? p.text = none) (found : Bool) :
    Mirrors ⟨(m.interner.intern p).2, m.found.insert (m.interner.intern p).1 found⟩
      ⟨l.answers.insert p.text found⟩ := by
  have hself : (m.interner.intern p).2.number? p.text = some (m.interner.intern p).1 := by
    rw [Path.Interner.number?_intern, if_pos rfl]
  -- the number may be new or not: the path may have been numbered without being asked for
  refine ⟨fun s => ?_, fun n hn => ?_, ?_⟩
  · dsimp only
    rw [OrderedMap.get?_insert_eq_ite]
    by_cases hs : s = p.text
    · rw [if_pos hs, hs, hself, Option.bind_some, OrderedMap.get?_insert_self]
    · have hnumber : (m.interner.intern p).2.number? s = m.interner.number? s :=
        Path.Interner.number?_intern.trans (if_neg hs)
      rw [if_neg hs, ← hm.get?, hnumber]
      refine Option.bind_congr fun n hn => ?_
      -- the number of another text is another number
      have hne : n ≠ (m.interner.intern p).1 := fun heq =>
        hs (Path.Interner.number?_inj (hnumber.trans hn) (heq ▸ hself))
      rw [OrderedMap.get?_insert_eq_ite, if_neg hne]
  · rw [OrderedMap.contains_eq_isSome, OrderedMap.get?_insert_eq_ite] at hn
    split at hn
    · next heq =>
      rw [heq]
      exact Path.Interner.lt_of_number? hself
    · exact hm.number.lt n (by rwa [OrderedMap.contains_eq_isSome])
  · have hnew : m.found.contains (m.interner.intern p).1 = false := by
      rw [OrderedMap.contains_eq_isSome, hm.get?_intern, hget, Option.isSome_none]
    have hnew' : l.answers.contains p.text = false := by
      rw [OrderedMap.contains_eq_isSome, hget, Option.isSome_none]
    calc
      (m.found.insert _ found).size = m.found.size + 1 := OrderedMap.size_insert hnew
      _ = l.answers.size + 1 := congrArg (· + 1) hm.size
      _ = (l.answers.insert p.text found).size := (OrderedMap.size_insert hnew').symm

/-- The answers are the same, and both remember the same after them. -/
lemma ask (hm : m.Mirrors l) :
    (m.ask w p).1 = l.isFile w p ∧ (m.ask w p).2.Mirrors (l.remember w p) := by
  rw [ask_eq, hm.get?_intern, Lookup.isFile, Lookup.remember, OrderedMap.contains_eq_isSome]
  cases hget : l.answers.get? p.text with
  | some found => exact ⟨rfl, hm.number⟩
  | none => exact ⟨rfl, hm.insert hget _⟩

end Mirrors

lemma mirrors_after : (after w h).Mirrors (Lookup.after w h) := by
  induction h using List.reverseRecOn with
  | nil => exact ⟨fun _ => rfl, nofun, rfl⟩
  | append_singleton h e ih =>
    rw [after, outcome_concat, Lookup.after_concat]
    cases e with
    | edit w' => exact ih
    | ask p => exact ih.ask.2
    | number p => exact ih.number
    | clear => exact .clear

/-- The answer for a path, after all that can happen to a lookup and to the files, tells whether the path led
to a file when it was asked for first since the last clear, and as many answers are remembered as texts
have been asked for in this time.  So while the files stay, the answer is what would be found now.
Answers by the texts of the paths are the same. -/
theorem answers_since_clear (w : Workspace) (h : List LookupEvent) (p : Path) :
    ((after w h).ask (files w h) p).1 = (files w (moment h p)).isFile p ∧
      (after w h).size = (texts h).toFinset.card ∧
      ((∀ e ∈ phase h, e.isEdit = false) →
        ((after w h).ask (files w h) p).1 = (files w h).isFile p) ∧
      (Lookup.after w h).isFile (files w h) p = ((after w h).ask (files w h) p).1 ∧
      (Lookup.after w h).size = (after w h).size := by
  have hmirrors : (after w h).Mirrors (Lookup.after w h) := mirrors_after
  have hanswer : ((after w h).ask (files w h) p).1 = (files w (moment h p)).isFile p :=
    hmirrors.ask.1.trans Lookup.isFile_after
  refine ⟨hanswer, hmirrors.size.trans Lookup.size_after, fun hedit => ?_, hmirrors.ask.1.symm,
    hmirrors.size.symm⟩
  have hfiles : files w (moment h p) = files w h := by
    calc
      files w (moment h p) = files w (past h) :=
        files_of_no_edit fun e he => hedit e ((List.takeWhile_sublist _).subset he)
      _ = files w (past h ++ phase h) := (files_of_no_edit hedit).symm
      _ = files w h := by rw [past_append_phase]
  rw [hanswer, hfiles]

/-- A path is asked for before there is its file, and again afterwards, in two spellings; then the answers are
cleared. -/
theorem answers_since_clear_twice :
    let none := Workspace.bare ["p"] 1
    let some := none.put ["p"] "a.h" (.file default)
    let h := [.ask ⟨"/p/a.h"⟩, .edit some, .ask ⟨"/p/./a.h"⟩]
    let h' := h ++ [.clear, .number ⟨"/p/b.h"⟩, .ask ⟨"/p/a.h"⟩, .ask ⟨"/p/a.h"⟩]
    ((after none h).ask some ⟨"/p/a.h"⟩).1 = false ∧ ((after none h).ask some ⟨"/p/./a.h"⟩).1 = true ∧
      (after none h).size = 2 ∧ (∀ e ∈ phase h', e.isEdit = false) ∧
      ((after none h').ask some ⟨"/p/a.h"⟩).1 = true ∧ (after none h').size = 1 := by
  intro none some h h'
  have hedit : ∀ e ∈ phase h', e.isEdit = false := by decide +kernel
  obtain ⟨hfirst, hsize, -⟩ := answers_since_clear none h ⟨"/p/a.h"⟩
  obtain ⟨hsecond, -⟩ := answers_since_clear none h ⟨"/p/./a.h"⟩
  obtain ⟨-, hsize', hnow, -⟩ := answers_since_clear none h' ⟨"/p/a.h"⟩
  exact ⟨hfirst.trans (by decide +kernel), hsecond.trans (by decide +kernel),
    hsize.trans (by decide +kernel), hedit, (hnow hedit).trans (by decide +kernel),
    hsize'.trans (by decide +kernel)⟩

end NumberedLookup

end IncludeDeps
