import IncludeDeps.Proofs.Ordered
import IncludeDeps.Proofs.Resolution
import Mathlib.Order.Basic

/-!
# Growing macro tables

Tables are ordered by the values that their names may have.  With more values an expression stands
for more paths, never for fewer (`MacroTable.paths_mono`), and so more headers are found for an
include (`Search.mem_files_mono`).

This is why a walk may go on with one table and only add to it: a header that was found with the
macros of an earlier file is found with those of a later one as well.  The order of the paths is
another matter, since a new value may lead to paths that come in between.
-/

namespace IncludeDeps

namespace MacroTable

variable {t u : MacroTable} {name key value : String} {l : List MacroDefinition}

/-- Every value of a name in one table is one in the other. -/
instance : Preorder MacroTable where
  le t u := ∀ name, t.values name ⊆ u.values name
  le_refl _ _ := List.Subset.refl _
  le_trans _ _ _ h h' name := List.Subset.trans (h name) (h' name)

lemma values_congr (h : compare key name = .eq) : t.values key = t.values name := by
  rw [values, values, OrderedMap.get?_congr h]

lemma mem_values_define {v : String} : v ∈ (t.define name value).values key ↔
    v ∈ t.values key ∨ compare key name = .eq ∧ v = value := by
  unfold define
  by_cases hhas : t.has name value
  · rw [if_pos hhas]
    refine ⟨.inl, fun h => ?_⟩
    rcases h with h | ⟨hkey, rfl⟩
    · exact h
    · rw [values_congr hkey]
      simpa [has] using hhas
  · rw [if_neg hhas]
    have hvalues : (MacroTable.mk (t.entries.insert name (t.values name ++ [value]))).values key =
        if compare key name = .eq then t.values name ++ [value] else t.values key := by
      rw [values, OrderedMap.get?_insert]
      split
      · rfl
      · rfl
    rw [hvalues]
    by_cases hkey : compare key name = .eq
    · rw [if_pos hkey, values_congr hkey]
      simp [hkey]
    · rw [if_neg hkey]
      simp [hkey]

lemma le_define : t ≤ t.define name value := fun _ _ h => mem_values_define.2 (.inl h)

lemma le_defineAll : t ≤ t.defineAll l := by
  induction l generalizing t with
  | nil => exact le_rfl
  | cons m rest ih => exact le_define.trans ih

lemma mem_values_defineAll {m : MacroDefinition} (h : m ∈ l) :
    m.value ∈ (t.defineAll l).values m.name := by
  induction l generalizing t with
  | nil => cases h
  | cons m' rest ih =>
    rcases List.mem_cons.1 h with rfl | h
    · have hself : compare m.name m.name = .eq := Std.ReflCmp.compare_self
      exact (le_defineAll (l := rest)) _ (mem_values_define.2 (.inr ⟨hself, rfl⟩))
    · exact ih h

lemma defineAll_eq_self (h : ∀ m ∈ l, m.value ∈ t.values m.name) : t.defineAll l = t := by
  induction l with
  | nil => rfl
  | cons m rest ih =>
    have hhas : t.has m.name m.value := by
      simpa [has] using h m List.mem_cons_self
    show (t.define m.name m.value).defineAll rest = t
    rw [define, if_pos hhas]
    exact ih fun m' hm' => h m' (List.mem_cons_of_mem _ hm')

lemma leaves_mono (h : t ≤ u) {depth : Nat} {within : List String} {e : String}
    {path : IncludeKind × String} (hpath : some path ∈ t.leaves depth within e) :
    some path ∈ u.leaves depth within e := by
  induction depth generalizing within e with
  | zero => simp [leaves] at hpath
  | succ depth ih =>
    unfold leaves at hpath ⊢
    simp only at hpath ⊢
    split at hpath
    · next hname =>
      obtain ⟨value, hvalue, hleaf⟩ := List.mem_flatMap.1 hpath
      have hvalue' : value ∈ u.values e := h e hvalue
      have hname' : (isIdentifier e && !within.contains e && !(u.values e).isEmpty) = true := by
        have hsome : (u.values e).isEmpty = false := by
          rw [Bool.eq_false_iff, ne_eq, List.isEmpty_iff]
          exact List.ne_nil_of_mem hvalue'
        rw [hsome]
        rw [Bool.and_eq_true_iff] at hname ⊢
        exact ⟨hname.1, rfl⟩
      rw [if_pos hname']
      refine List.mem_flatMap.2 ⟨value, hvalue', ?_⟩
      split at hleaf
      · exact ih hleaf
      · exact hleaf
    · simp at hpath

/-- With more values an expression stands for more paths.  This is why a table that only grows
never loses what it has once found. -/
theorem paths_mono (h : t ≤ u) (e : String) : (t.expand e).paths ⊆ (u.expand e).paths := by
  intro path hpath
  have hpath' : path ∈ ((t.leaves depthLimit [] e).filterMap id).eraseDups := hpath
  show path ∈ ((u.leaves depthLimit [] e).filterMap id).eraseDups
  rw [List.mem_eraseDups, List.mem_filterMap] at hpath' ⊢
  obtain ⟨leaf, hleaf, hsome⟩ := hpath'
  rw [id_eq] at hsome
  rw [hsome] at hleaf
  exact ⟨some path, leaves_mono h hleaf, rfl⟩

end MacroTable

namespace Search

variable (s : Search)

/-- The headers that are found for one include, in order. -/
def files (t : MacroTable) (p : Path) (i : Include) : List Path :=
  (s.resolve t p i).filterMap ResolvedInclude.file?

variable {s} {t u : MacroTable} {p q : Path} {i : Include}

/-- Only the paths that an include stands for count for the headers that are found. -/
lemma files_eq : s.files t p i = (targets t i).paths.filterMap fun (kind, target) =>
    (s.find? (s.directories p kind) target).map Location.file := by
  rw [files, resolve, List.filterMap_append, List.filterMap_map]
  split
  · simp [Function.comp_def, ResolvedInclude.file?]
  · simp [Function.comp_def, ResolvedInclude.file?]

lemma canonical_of_mem_files (h : q ∈ s.files t p i) : q.IsCanonical := by
  rw [files_eq, List.mem_filterMap] at h
  obtain ⟨⟨kind, target⟩, -, hfile⟩ := h
  obtain ⟨loc, hloc, rfl⟩ := Option.map_eq_some_iff.1 hfile
  exact (find?_eq_some hloc).2

/-- With more values more headers are found. -/
lemma mem_files_mono (h : t ≤ u) (hq : q ∈ s.files t p i) : q ∈ s.files u p i := by
  rw [files_eq, List.mem_filterMap] at hq ⊢
  obtain ⟨path, hpath, hfile⟩ := hq
  refine ⟨path, ?_, hfile⟩
  unfold targets at hpath ⊢
  split at hpath
  · next hi => rw [if_pos hi]; exact MacroTable.paths_mono h i.target hpath
  · next hi => rw [if_neg hi]; exact hpath

end Search

end IncludeDeps
