import IncludeDeps.Proofs.Path.Normal

/-!
# What normalisation comes to

When a path is normalised, names are left: after the root if the path is absolute, and after steps up
otherwise (`Path.Component.AreCancelled`).

* `Path.areCancelled_normalize` is this form, and `Path.foldl_cancel_eq_reverse` tells that there is
  nothing more to do with what has it;
* `Path.foldl_cancel_join` is about paths that are taken together: the second one is cancelled against
  what is left of the first one;
* `Path.normalize_canonical` puts this together.

All of it is about texts.  A name may be a link, and then a step up after it leads to another place than
normalisation makes of it; this is the business of the modules on workspaces.
-/

namespace IncludeDeps.Path

open Workspace (IsFileName isStep_iff isStep_of_mem_steps isAbsolute_of_components steps_eq)

variable {p q : Path} {kept cs : List Component} {c : Component} {b : Bool}

/-! ## Nothing left to cancel -/

/-- There are names only, after the root of an absolute path, or after the steps up of a relative one. -/
def Component.AreCancelled (isAbsolute : Bool) (cs : List Component) : Prop :=
  ∃ (n : ℕ) (names : List String),
    cs = (if isAbsolute then [.root] else List.replicate n .up) ++ names.map .name

@[simp] lemma cancel_cons_name (kept : List Component) (s : String) :
    cancel kept (.name s) = .name s :: kept := by
  rcases kept with _ | ⟨d, rest⟩
  · rfl
  · cases d with
    | _ => rfl

@[simp] lemma cancel_replicate_up (n : ℕ) :
    cancel (List.replicate n .up) .up = List.replicate (n + 1) .up := by
  cases n with
  | zero => rfl
  | succ n => rfl

lemma foldl_cancel_map_name (names : List String) (kept : List Component) :
    (names.map .name).foldl cancel kept = (names.map .name).reverse ++ kept := by
  induction names generalizing kept with
  | nil => rfl
  | cons s rest ih => simp [ih]

lemma foldl_cancel_replicate_up (n m : ℕ) :
    (List.replicate n .up).foldl cancel (List.replicate m .up) = List.replicate (n + m) .up := by
  induction n generalizing m with
  | zero => simp
  | succ n ih =>
    rw [List.replicate_succ, List.foldl_cons, cancel_replicate_up, ih]
    congr 1
    omega

/-- Where nothing is left to cancel, all is kept. -/
theorem foldl_cancel_eq_reverse (h : Component.AreCancelled b cs) : cs.foldl cancel [] = cs.reverse := by
  obtain ⟨n, names, rfl⟩ := h
  rw [List.foldl_append, foldl_cancel_map_name, List.reverse_append]
  congr 1
  cases b with
  | true => rfl
  | false =>
    have hups := foldl_cancel_replicate_up n 0
    simpa using hups

/-- One more step does not bring anything to cancel. -/
lemma areCancelled_cancel (h : Component.AreCancelled b kept.reverse) (hc : c.IsStep) :
    Component.AreCancelled b (cancel kept c).reverse := by
  obtain ⟨n, names, hkept⟩ := h
  rcases isStep_iff.1 hc with rfl | ⟨s, rfl, -⟩
  · rcases List.eq_nil_or_concat' names with rfl | ⟨init, s, rfl⟩
    · -- without a name that it could take away, a step up is kept, but for one at the root
      rw [List.map_nil, List.append_nil] at hkept
      cases b with
      | true =>
        obtain rfl : kept = [.root] := List.reverse_injective hkept
        exact ⟨n, [], rfl⟩
      | false =>
        obtain rfl : kept = List.replicate n .up := List.reverse_injective (by simpa using hkept)
        exact ⟨n + 1, [], by simp⟩
    · obtain rfl : kept = .name s :: (init.map .name).reverse ++ _ :=
        List.reverse_injective (by simpa using hkept)
      exact ⟨n, init, by simp [cancel]⟩
  · exact ⟨n, names ++ [s], by simp [hkept]⟩

lemma areCancelled_foldl (h : Component.AreCancelled b kept.reverse) (hcs : ∀ c ∈ cs, c.IsStep) :
    Component.AreCancelled b (cs.foldl cancel kept).reverse := by
  induction cs generalizing kept with
  | nil => exact h
  | cons c rest ih =>
    exact ih (areCancelled_cancel h (hcs c List.mem_cons_self))
      fun d hd => hcs d (List.mem_cons_of_mem _ hd)

/-! ## Normalisation -/

/-- Of the start of a path nothing but the root is kept. -/
lemma foldl_cancel_components (p : Path) :
    p.components.foldl cancel [] = p.steps.foldl cancel (if p.isAbsolute then [.root] else []) := by
  show (p.split.1.component?.toList ++ p.steps).foldl cancel [] = _
  rw [List.foldl_append, isAbsolute]
  cases p.split.1 with
  | _ => rfl

/-- Normalisation leaves nothing to cancel: the root or some steps up are all that is left in front
of names. -/
theorem areCancelled_normalize (p : Path) :
    Component.AreCancelled p.isAbsolute p.normalize.components := by
  rw [components_normalize, foldl_cancel_components]
  refine areCancelled_foldl ⟨0, [], ?_⟩ fun c => isStep_of_mem_steps
  cases p.isAbsolute with
  | _ => rfl

lemma isAbsolute_normalize (p : Path) : p.normalize.isAbsolute = p.isAbsolute := by
  obtain ⟨n, names, hcomponents⟩ := areCancelled_normalize p
  cases hp : p.isAbsolute with
  | true =>
    rw [hp] at hcomponents
    exact (isAbsolute_of_components hcomponents).1
  | false =>
    rw [hp] at hcomponents
    refine Bool.eq_false_iff.2 fun habsolute => ?_
    have hroot : Component.root ∈ p.normalize.components := by
      rw [components_of_isAbsolute habsolute]
      exact List.mem_cons_self
    simp [hcomponents] at hroot

/-- What is left when a path is normalised twice is what is left when it is normalised once. -/
lemma foldl_cancel_normalize (p : Path) :
    p.normalize.components.foldl cancel [] = p.components.foldl cancel [] := by
  rw [foldl_cancel_eq_reverse (areCancelled_normalize p), components_normalize, List.reverse_reverse]

lemma normalize_eq_of_foldl (h : p.components.foldl cancel [] = q.components.foldl cancel []) :
    p.normalize = q.normalize := by
  rw [normalize, normalize, h]

lemma components_normalize_of_areCancelled (h : Component.AreCancelled b p.components) :
    p.normalize.components = p.components := by
  rw [components_normalize, foldl_cancel_eq_reverse h, List.reverse_reverse]

/-! ## Paths taken together -/

/-- The steps of a relative path are cancelled against what is left of the path before it. -/
theorem foldl_cancel_join (p : Path) (hq : q.isAbsolute = false) :
    (p.join q).components.foldl cancel [] = q.steps.foldl cancel (p.components.foldl cancel []) := by
  by_cases hp : p.text = ""
  · rw [join_of_text_eq_empty hp, components_of_text_eq_empty hp, foldl_cancel_components, hq]
    rfl
  · rw [components_join_of_relative hp hq, ← steps_eq, List.foldl_append]

/-- A path may be normalised before another one is put after it.  A step up in the second path
takes away the same name either way. -/
theorem normalize_join (p q : Path) : (p.join q).normalize = (p.normalize.join q).normalize := by
  cases hq : q.isAbsolute with
  | true => rw [join, join, if_pos hq, if_pos hq]
  | false =>
    apply normalize_eq_of_foldl
    rw [foldl_cancel_join p hq, foldl_cancel_join p.normalize hq, foldl_cancel_normalize]

/-- A step up takes the name before it away. -/
lemma normalize_join_up (p : Path) {s : String} (hs : IsFileName s) :
    ((p.join ⟨s⟩).join ⟨".."⟩).normalize = p.normalize := by
  have hname : Component.IsStep (.name s) := isStep_iff.2 (.inr ⟨s, rfl, hs⟩)
  have hsegment : Component.ofSegment? s.toList = some (.name s) := hname.1
  have hsteps : steps ⟨s⟩ = [.name s] := by
    rw [steps_eq, List.splitOn_eq_singleton hs.slash, List.filterMap_cons_some hsegment]
    rfl
  have hup : steps ⟨".."⟩ = [.up] := by decide
  apply normalize_eq_of_foldl
  rw [foldl_cancel_join _ (by decide), foldl_cancel_join _ (isAbsolute_of_slash hs.slash), hsteps, hup]
  simp [cancel]

/-- Normalisation is canonical.  It leaves names only, after the root of an absolute path or after the
steps up of a relative one, and an absolute path stays absolute; what has this form keeps its components,
and a name with a step up after it is taken away.  So it does not matter whether a path is normalised
twice, or before another one is put after it; and normal forms that are the same path are the same text. -/
theorem normalize_canonical (p q : Path) :
    (.here ∉ p.normalize.components ∧ p.normalize.isAbsolute = p.isAbsolute ∧
      ∃ (n : ℕ) (names : List String), p.normalize.components =
        (if p.isAbsolute then [.root] else List.replicate n .up) ++ names.map .name) ∧
    (∀ b, Component.AreCancelled b p.components → p.normalize.components = p.components) ∧
    (∀ s, IsFileName s → ((p.join ⟨s⟩).join ⟨".."⟩).normalize = p.normalize) ∧
    p.normalize.normalize = p.normalize ∧
    (p.join q).normalize = (p.normalize.join q).normalize ∧
    (compare p.normalize q.normalize = .eq ↔ p.normalize = q.normalize) := by
  obtain ⟨n, names, hform⟩ := areCancelled_normalize p
  have hhere : Component.here ∉ p.normalize.components := by
    rw [hform]
    cases p.isAbsolute with
    | true => simp
    | false => simp
  exact ⟨⟨hhere, isAbsolute_normalize p, n, names, hform⟩,
    fun b h => components_normalize_of_areCancelled h,
    fun s hs => normalize_join_up p hs,
    normalize_eq_of_foldl (foldl_cancel_normalize p), normalize_join p q,
    (isCanonical_normalize p).compare_eq_iff (isCanonical_normalize q)⟩

/-- A path that climbs above where it starts, and goes down again. -/
example : (normalize ⟨"a//.././../b/./c/"⟩, normalize ⟨"/../a/../b"⟩) = (⟨"../b/c"⟩, ⟨"/b"⟩) := by
  decide

end IncludeDeps.Path
