import IncludeDeps.Proofs.Computation
import IncludeDeps.Proofs.Ordered
import IncludeDeps.Workspace.Operations
import Mathlib.Data.List.Induction

/-!
# What changes do to places

`Workspace.put` and `Workspace.remove` are the changes that all others are made of.  What there is at
a place after them is said once, by `Workspace.at?_put` and `Workspace.at?_remove_below`;
`Workspace.at?_remove` is about entries that are no directories, below which there is nothing
(`Workspace.at?_below`).

Both changes leave a tree in which every entry lies in a directory (`Workspace.at?_of_append`), as a
workspace carries this with it.  `Workspace.put` does nothing where that would fail, which is why
`Workspace.at?_put` asks for the directory, and for no directory in the place of the new entry.
-/

namespace IncludeDeps

namespace OrderedMap

variable {α β : Type} [Ord α] [Std.LawfulEqOrd α]

lemma get?_eq_some_iff {m : OrderedMap α β} {k : α} {v : β} :
    m.get? k = some v ↔ (k, v) ∈ m.toList :=
  ⟨mem_of_get?_eq_some, get?_eq_some_of_mem⟩

lemma get?_filter {m : OrderedMap α β} {p : α → β → Bool} {k : α} {v : β} :
    (m.filter p).get? k = some v ↔ m.get? k = some v ∧ p k v := by
  rw [get?_eq_some_iff, get?_eq_some_iff]
  exact List.mem_filter

end OrderedMap

namespace Workspace

variable {w : Workspace} {dir place q : Place} {name : String} {entry : Entry}

@[simp] lemma at?_root (w : Workspace) : w.at? [] = some .directory := rfl

lemma at?_eq_get? (h : place ≠ []) : w.at? place = w.entries.get? place := by
  rw [at?, if_neg]
  simpa using h

@[simp] lemma append_singleton_ne_nil (dir : Place) (name : String) : dir ++ [name] ≠ [] := by simp

/-! ## Directories -/

lemma at?_of_append (h : w.at? (dir ++ [name]) = some entry) : w.at? dir = some .directory := by
  rw [at?_eq_get? (append_singleton_ne_nil dir name)] at h
  obtain ⟨dir', name', heq, hdir⟩ := w.grounded _ (OrderedMap.mem_of_get?_eq_some h)
  obtain ⟨rfl, -⟩ := List.append_inj' heq rfl
  rcases hdir with rfl | hdir
  · rfl
  · by_cases hnil : dir = []
    · rw [hnil]
      rfl
    · rw [at?_eq_get? hnil]
      exact OrderedMap.get?_eq_some_of_mem hdir

lemma at?_dropLast (h : w.at? place = some .directory) :
    w.at? place.dropLast = some .directory := by
  rcases List.eq_nil_or_concat place with rfl | ⟨dir, name, rfl⟩
  · rfl
  · rw [List.concat_eq_append] at h ⊢
    rw [List.dropLast_concat]
    exact at?_of_append h

/-- There is nothing below an entry that is no directory. -/
lemma at?_below (h : w.at? place = some entry) (hentry : entry ≠ .directory) (hq : place <+: q)
    (hne : q ≠ place) : w.at? q = none := by
  obtain ⟨names, rfl⟩ := hq
  induction names using List.reverseRecOn with
  | nil => simp at hne
  | append_singleton names name ih =>
    rw [← List.append_assoc]
    cases hat : w.at? (place ++ names ++ [name]) with
    | none => rfl
    | some e =>
      have hdir := at?_of_append hat
      by_cases hnil : names = []
      · rw [hnil, List.append_nil, h] at hdir
        exact absurd (Option.some.inj hdir) hentry
      · rw [ih (by simpa using hnil)] at hdir
        cases hdir

/-! ## Changes -/

@[simp] lemma cwd_put (w : Workspace) (dir : Place) (name : String) (entry : Entry) :
    (w.put dir name entry).cwd = w.cwd := by
  unfold put
  split
  · rfl
  · rfl

@[simp] lemma processId_put (w : Workspace) (dir : Place) (name : String) (entry : Entry) :
    (w.put dir name entry).processId = w.processId := by
  unfold put
  split
  · rfl
  · rfl

/-- An entry is put into a directory, in the place of one that is no directory. -/
lemma at?_put (hdir : w.at? dir = some .directory)
    (hfree : w.at? (dir ++ [name]) ≠ some .directory) (q : Place) :
    (w.put dir name entry).at? q = if q = dir ++ [name] then some entry else w.at? q := by
  -- the condition under which `Workspace.put` does something
  have hput : (dir = [] ∨ w.entries.get? dir = some .directory) ∧
      w.entries.get? (dir ++ [name]) ≠ some .directory := by
    rw [at?_eq_get? (append_singleton_ne_nil dir name)] at hfree
    refine ⟨?_, hfree⟩
    by_cases hnil : dir = []
    · exact .inl hnil
    · rw [at?_eq_get? hnil] at hdir
      exact .inr hdir
  by_cases hq : q = []
  · rw [hq, if_neg (append_singleton_ne_nil dir name).symm]
    rfl
  · rw [at?_eq_get? hq, at?_eq_get? hq, put, dif_pos hput]
    show (w.entries.insert _ _).get? q = _
    rw [OrderedMap.get?_insert]
    by_cases heq : q = dir ++ [name]
    · rw [if_pos heq, if_pos]
      rw [heq]
      exact Std.ReflCmp.compare_self
    · rw [if_neg heq, if_neg]
      exact fun h => heq (Std.LawfulEqCmp.eq_of_compare h)

/-- A place is removed with all that is below it, and nothing else. -/
lemma at?_remove_below (hplace : place ≠ []) (q : Place) :
    (w.remove place).at? q = if place <+: q then none else w.at? q := by
  by_cases hq : q = []
  · rw [hq, if_neg (by rwa [List.prefix_nil])]
    rfl
  have hget : ∀ e, (w.remove place).at? q = some e ↔ w.at? q = some e ∧ ¬ place <+: q := by
    intro e
    rw [at?_eq_get? hq, at?_eq_get? hq]
    refine OrderedMap.get?_filter.trans (and_congr_right fun _ => ?_)
    rw [Bool.not_eq_true', Bool.eq_false_iff, ne_eq, List.isPrefixOf_iff_prefix]
  apply Option.ext
  intro e
  rw [hget]
  by_cases hbelow : place <+: q
  · simp [hbelow]
  · simp [hbelow]

/-- An entry that is no directory is removed, and nothing else. -/
lemma at?_remove (h : w.at? place = some entry) (hentry : entry ≠ .directory) (q : Place) :
    (w.remove place).at? q = if q = place then none else w.at? q := by
  have hplace : place ≠ [] := by
    rintro rfl
    exact hentry (Option.some.inj h).symm
  rw [at?_remove_below hplace]
  by_cases heq : q = place
  · rw [heq, if_pos (List.prefix_refl place), if_pos rfl]
  rw [if_neg heq]
  split
  · next hbelow => exact (at?_below h hentry hbelow heq).symm
  · rfl

end Workspace

end IncludeDeps
