import IncludeDeps.Pass
import IncludeDeps.Proofs.Path.Canonical
import Mathlib.Data.List.Basic
import Mathlib.Data.List.Induction

/-!
# What includes resolve to

The facts about `Search` and about the lists of resolved includes that the walks rely on.

* A header that is found is a file under a canonical path (`Search.isFile_of_mem_resolveAll`).
* Without computed includes the macros do not matter (`Search.resolveAll_of_literal`).
* Putting lists together by `addNew` only adds at the end (`isPrefix_foldl_addNew`), and something
  that is the same as each new entry is there afterwards (`exists_same_of_mem`).
* Two files with the same literal includes resolve alike if and only if each include does
  (`sameAll_foldl_addNew_iff`).
-/

namespace IncludeDeps

/-! ## Searching -/

namespace Search

variable (s : Search)

/-- What a path in quotes or brackets leads to for the file `file`. -/
def literal (file : Path) (i : Include) : ResolvedInclude :=
  ⟨i, i.target, s.find? (s.directories file i.kind) i.target⟩

variable {s}

lemma find?_eq_some {dirs : List Path} {target : String} {loc : Location}
    (h : s.find? dirs target = some loc) : s.isFile loc.file ∧ loc.file.IsCanonical := by
  obtain ⟨dir, hdir, rfl⟩ := Option.map_eq_some_iff.1 h
  have hfile : s.isFile (candidate target dir) := by simpa using List.find?_some hdir
  exact ⟨hfile, Path.isCanonical_normalize _⟩

/-- A header that is found is a file, and its path is canonical. -/
lemma isFile_of_mem_resolveAll {macros : MacroTable} {file : Path} {d : Directives}
    {r : ResolvedInclude} {loc : Location} (hr : r ∈ (s.resolveAll macros file d).resolved)
    (hloc : r.location = some loc) : s.isFile loc.file ∧ loc.file.IsCanonical := by
  obtain ⟨i, -, hi⟩ := List.mem_flatMap.1 hr
  rcases List.mem_append.1 hi with h | h
  · obtain ⟨e, -, rfl⟩ := List.mem_map.1 h
    exact find?_eq_some hloc
  · -- the mark of an expansion that is not complete was not found
    split at h
    · cases h
    · rw [List.mem_singleton] at h
      rw [h] at hloc
      cases hloc

lemma targets_of_literal {macros : MacroTable} {i : Include} (hi : i.isComputed = false) :
    targets macros i = ⟨[(i.kind, i.target)], true⟩ := by
  rw [targets, hi]
  rfl

lemma resolve_of_literal {macros : MacroTable} {file : Path} {i : Include}
    (hi : i.isComputed = false) : s.resolve macros file i = [s.literal file i] := by
  rw [resolve, targets_of_literal hi]
  rfl

lemma isComputed_of_literal {d : Directives} (hd : d.hasComputedIncludes = false) {i : Include}
    (hi : i ∈ d.includes) : i.isComputed = false := by
  rw [Directives.hasComputedIncludes, List.any_eq_false] at hd
  exact Bool.eq_false_iff.2 (hd i hi)

lemma directive_of_mem_resolve {macros : MacroTable} {file : Path} {i : Include}
    {r : ResolvedInclude} (h : r ∈ s.resolve macros file i) : r.directive = i := by
  rcases List.mem_append.1 h with h | h
  · obtain ⟨path, -, rfl⟩ := List.mem_map.1 h
    rfl
  · split at h
    · cases h
    · rw [List.mem_singleton.1 h]

lemma mem_resolveAll_iff {macros : MacroTable} {file : Path} {d : Directives}
    {r : ResolvedInclude} : r ∈ (s.resolveAll macros file d).resolved ↔
      r.directive ∈ d.includes ∧ r ∈ s.resolve macros file r.directive := by
  refine List.mem_flatMap.trans ⟨?_, fun h => ⟨_, h⟩⟩
  rintro ⟨i, hi, hr⟩
  obtain rfl := directive_of_mem_resolve hr
  exact ⟨hi, hr⟩

/-- A path in quotes or brackets becomes the same whatever the macros are. -/
lemma eq_literal_of_mem_resolveAll {macros : MacroTable} {file : Path} {d : Directives}
    {r : ResolvedInclude} (h : r ∈ (s.resolveAll macros file d).resolved)
    (hi : r.directive.isComputed = false) : r = s.literal file r.directive := by
  have hr := (mem_resolveAll_iff.1 h).2
  rwa [resolve_of_literal hi, List.mem_singleton] at hr

/-- Without computed includes each include is resolved by itself, whatever the macros are. -/
lemma resolveAll_of_literal {macros : MacroTable} {file : Path} {d : Directives}
    (hd : d.hasComputedIncludes = false) :
    s.resolveAll macros file d = ⟨d.includes.map (s.literal file), true⟩ := by
  have hresolve : ∀ i ∈ d.includes, s.resolve macros file i = [s.literal file i] :=
    fun i hi => resolve_of_literal (isComputed_of_literal hd hi)
  have hcomplete : (d.includes.all fun i => (targets macros i).isComplete) = true := by
    rw [List.all_eq_true]
    intro i hi
    rw [targets_of_literal (isComputed_of_literal hd hi)]
  have hmap : d.includes.flatMap (s.resolve macros file) = d.includes.map (s.literal file) := by
    rw [List.flatMap_congr hresolve, List.map_eq_flatMap]
  rw [resolveAll, hcomplete, hmap]

end Search

/-! ## Places that are the same -/

lemma Location.same_self (l : Location) : l.same l := by
  have hpath : ∀ p : Path, p.same p := by
    intro p
    have hself : compare p p = .eq := Std.ReflCmp.compare_self
    rw [Path.same, hself]
    rfl
  rw [Location.same, hpath, hpath]
  rfl

lemma Location.same_trans {l m n : Location} (h : l.same m) (h' : m.same n) : l.same n := by
  simp only [Location.same, Path.same, Bool.and_eq_true, beq_iff_eq] at h h' ⊢
  exact ⟨Std.TransCmp.eq_trans h.1 h'.1, Std.TransCmp.eq_trans h.2 h'.2⟩

namespace ResolvedInclude

lemma same_self (r : ResolvedInclude) : r.same r := by
  unfold same
  cases r.location with
  | none => simp
  | some l => simp [Location.same_self]

lemma same_trans {r t u : ResolvedInclude} (h : r.same t) (h' : t.same u) : r.same u := by
  unfold same at h h' ⊢
  simp only [Bool.and_eq_true, decide_eq_true_eq] at h h' ⊢
  refine ⟨⟨h.1.1.trans h'.1.1, h.1.2.trans h'.1.2⟩, ?_⟩
  have hlocation := h.2
  have hlocation' := h'.2
  cases hr : r.location with
  | none =>
    cases ht : t.location with
    | none => rwa [ht] at hlocation'
    | some m => simp [hr, ht] at hlocation
  | some l =>
    cases ht : t.location with
    | none => simp [hr, ht] at hlocation
    | some m =>
      cases hu : u.location with
      | none => simp [ht, hu] at hlocation'
      | some n =>
        rw [hr, ht] at hlocation
        rw [ht, hu] at hlocation'
        exact Location.same_trans hlocation hlocation'

lemma sameAll_self (l : List ResolvedInclude) : sameAll l l := by
  induction l with
  | nil => rfl
  | cons r rest ih => simp [sameAll, same_self, ih]

lemma directive_eq_of_same {r t : ResolvedInclude} (h : r.same t) :
    r.directive = t.directive := by
  unfold same at h
  simp only [Bool.and_eq_true, decide_eq_true_eq] at h
  exact h.1.1

lemma compare_file_of_same {r t : ResolvedInclude} {p : Path} (h : r.same t)
    (hp : r.file? = some p) : ∃ q, t.file? = some q ∧ compare p q = .eq := by
  obtain ⟨l, hl, rfl⟩ := Option.map_eq_some_iff.1 hp
  unfold same at h
  rw [hl] at h
  cases ht : t.location with
  | none => simp [ht] at h
  | some m =>
    simp only [ht, Location.same, Path.same, Bool.and_eq_true, beq_iff_eq] at h
    exact ⟨m.file, by rw [file?, ht]; rfl, h.2.1⟩

end ResolvedInclude

/-! ## Putting lists together -/

lemma addNew_of_same {l : List ResolvedInclude} {r : ResolvedInclude} (h : l.any r.same) :
    addNew l r = l := by
  rw [addNew, if_pos h]

lemma addNew_of_new {l : List ResolvedInclude} {r : ResolvedInclude}
    (h : l.any r.same = false) : addNew l r = l ++ [r] := by
  rw [addNew, h]
  rfl

lemma isPrefix_addNew (l : List ResolvedInclude) (r : ResolvedInclude) : l <+: addNew l r := by
  unfold addNew
  split
  · exact List.prefix_rfl
  · exact List.prefix_append _ _

/-- What is there stays there, in front. -/
lemma isPrefix_foldl_addNew (l rs : List ResolvedInclude) : l <+: rs.foldl addNew l := by
  induction rs generalizing l with
  | nil => exact List.prefix_rfl
  | cons r rest ih => exact (isPrefix_addNew l r).trans (ih _)

lemma mem_or_mem_of_mem_foldl_addNew {l rs : List ResolvedInclude} {r : ResolvedInclude}
    (h : r ∈ rs.foldl addNew l) : r ∈ l ∨ r ∈ rs := by
  induction rs generalizing l with
  | nil => exact .inl h
  | cons t rest ih =>
    rcases ih h with h | h
    · unfold addNew at h
      split at h
      · exact .inl h
      · rcases List.mem_append.1 h with h | h
        · exact .inl h
        · exact .inr (List.mem_singleton.1 h ▸ List.mem_cons_self)
    · exact .inr (List.mem_cons_of_mem _ h)

/-- What is put together holds something that is the same as each of the new entries. -/
lemma exists_same_of_mem {l rs : List ResolvedInclude} {r : ResolvedInclude} (h : r ∈ rs) :
    ∃ t ∈ rs.foldl addNew l, r.same t := by
  induction rs generalizing l with
  | nil => cases h
  | cons u rest ih =>
    rcases List.mem_cons.1 h with rfl | h
    · have hadd : ∃ t ∈ addNew l r, r.same t := by
        by_cases hseen : l.any r.same
        · rw [addNew_of_same hseen]
          exact List.any_eq_true.1 hseen
        · rw [addNew_of_new (Bool.eq_false_iff.2 hseen)]
          exact ⟨r, by simp, r.same_self⟩
      obtain ⟨t, ht, hsame⟩ := hadd
      exact ⟨t, (isPrefix_foldl_addNew _ rest).subset ht, hsame⟩
    · exact ih h

/-! ## Lists of literal includes -/

/-- Includes, each of them once. -/
def distinct (l : List Include) : List Include :=
  l.foldl (fun l i => if i ∈ l then l else l ++ [i]) []

lemma mem_distinct {l : List Include} {i : Include} : i ∈ distinct l ↔ i ∈ l := by
  have key : ∀ m : List Include,
      i ∈ l.foldl (fun l i => if i ∈ l then l else l ++ [i]) m ↔ i ∈ m ∨ i ∈ l := by
    induction l with
    | nil => simp
    | cons j rest ih =>
      intro m
      rw [List.foldl_cons, ih, List.mem_cons]
      by_cases hj : j ∈ m
      · rw [if_pos hj]
        constructor
        · exact fun h => h.imp_right .inr
        · rintro (h | rfl | h)
          · exact .inl h
          · exact .inl hj
          · exact .inr h
      · rw [if_neg hj, List.mem_append, List.mem_singleton, or_assoc]
  rw [distinct, key]
  simp

/-- Where each include becomes one thing, putting these together drops nothing but repeated
includes. -/
lemma foldl_addNew_map {f : Include → ResolvedInclude} (hf : ∀ i, (f i).directive = i)
    (l : List Include) : (l.map f).foldl addNew [] = (distinct l).map f := by
  have hany : ∀ (m : List Include) (i : Include), (m.map f).any (f i).same = decide (i ∈ m) := by
    intro m i
    rw [Bool.eq_iff_iff, List.any_map, List.any_eq_true, decide_eq_true_eq]
    constructor
    · rintro ⟨j, hj, hsame⟩
      have hij := ResolvedInclude.directive_eq_of_same hsame
      rw [hf, hf] at hij
      exact hij ▸ hj
    · exact fun hi => ⟨i, hi, (f i).same_self⟩
  -- the lists that are kept correspond all the time, not only at the beginning
  have key : ∀ m : List Include, (l.map f).foldl addNew (m.map f) =
      (l.foldl (fun l i => if i ∈ l then l else l ++ [i]) m).map f := by
    induction l with
    | nil => exact fun _ => rfl
    | cons i rest ih =>
      intro m
      rw [List.map_cons, List.foldl_cons, List.foldl_cons, ← ih]
      by_cases hi : i ∈ m
      · rw [if_pos hi, addNew_of_same (by rw [hany]; exact decide_eq_true hi)]
      · rw [if_neg hi, addNew_of_new (by rw [hany]; exact decide_eq_false hi), List.map_append]
        rfl
  exact key []

lemma sameAll_map_iff {f g : Include → ResolvedInclude} {l : List Include} :
    ResolvedInclude.sameAll (l.map f) (l.map g) ↔ ∀ i ∈ l, (f i).same (g i) := by
  induction l with
  | nil => simp [ResolvedInclude.sameAll]
  | cons i rest ih => simp [ResolvedInclude.sameAll, ih]

/-- Files with the same literal includes resolve alike if and only if each include does. -/
lemma sameAll_foldl_addNew_iff {f g : Include → ResolvedInclude} (hf : ∀ i, (f i).directive = i)
    (hg : ∀ i, (g i).directive = i) (l : List Include) :
    ResolvedInclude.sameAll ((l.map f).foldl addNew []) ((l.map g).foldl addNew []) ↔
      ∀ i ∈ l, (f i).same (g i) := by
  rw [foldl_addNew_map hf, foldl_addNew_map hg, sameAll_map_iff]
  constructor
  · exact fun h i hi => h i (mem_distinct.2 hi)
  · exact fun h i hi => h i (mem_distinct.1 hi)

end IncludeDeps
