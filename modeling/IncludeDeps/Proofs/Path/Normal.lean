import IncludeDeps.Proofs.Workspace.NormalForm

/-!
# Paths from the root

A path is normal if it leads from the root by names alone, without `.` and `..`
(`Path.IsNormal`, `Path.isNormal_iff`).  Two such paths are the same if they are the same after
normalisation (`Path.IsNormal.compare_eq_of_normalize_eq`), so it does not matter how they are written.

Normalisation makes an absolute path normal, and writes it in one way only: with one slash before each name
(`Path.isReduced_normalize`).  The path of the directory around a file that is written so is written
so as well (`Path.IsReduced.parent?`).  Names after a path do not make it normal, and do not spoil it
(`Path.Extends.isNormal_iff`).
-/

namespace IncludeDeps

namespace Path

open Workspace (IsFileName isStep_iff isStep_of_mem_steps kept isAbsolute_iff isAbsolute_of_components
  areCanonical_names)

variable {p q : Path} {names : List String} {cs : List Component}

/-- The path leads from the root by names alone, although its text may have more slashes than it
needs. -/
def IsNormal (p : Path) : Prop := ∃ names : List String, p.components = .root :: names.map .name

/-- The path leads from the root by names alone, and is written in the one way in which normalisation writes
it. -/
structure IsReduced (p : Path) : Prop where
  normal : p.IsNormal
  canonical : p.IsCanonical

/-! ## Absolute paths -/

lemma components_of_isAbsolute (h : p.isAbsolute) : p.components = .root :: p.steps := by
  have hlead : p.split.1 = .root := of_decide_eq_true h
  show p.split.1.component?.toList ++ p.steps = _
  rw [hlead]
  rfl

lemma isAbsolute_join (h : p.isAbsolute) : (p.join q).isAbsolute := by
  unfold join
  split
  · assumption
  · have hhead : ∀ t : String, isAbsolute ⟨p.text ++ t⟩ := by
      intro t
      obtain ⟨rest, hrest⟩ := List.head?_eq_some_iff.1 (isAbsolute_iff.1 h)
      rw [isAbsolute_iff, String.toList_append, hrest]
      rfl
    split
    · exact hhead q.text
    · have happend := hhead ("/" ++ q.text)
      rwa [← String.append_assoc] at happend

lemma isAbsolute_extend (h : p.isAbsolute) : (p.extend cs).isAbsolute := by
  induction cs generalizing p with
  | nil => exact h
  | cons c rest ih => exact ih (isAbsolute_join h)

lemma isAbsolute_ofComponents : (ofComponents (.root :: cs)).isAbsolute := by
  have hroot : (⟨""⟩ : Path).join ⟨Component.root.text⟩ = ⟨"/"⟩ := by decide
  show (((⟨""⟩ : Path).join ⟨Component.root.text⟩).extend cs).isAbsolute
  rw [hroot]
  exact isAbsolute_extend (by decide)

/-! ## Names alone -/

lemma exists_names (h : ∀ c ∈ cs, c.IsStep ∧ c ≠ .up) : ∃ names : List String, cs = names.map .name := by
  induction cs with
  | nil => exact ⟨[], rfl⟩
  | cons c rest ih =>
    obtain ⟨hstep, hup⟩ := h c List.mem_cons_self
    obtain ⟨s, rfl, -⟩ := (isStep_iff.1 hstep).resolve_left hup
    obtain ⟨names, rfl⟩ := ih fun d hd => h d (List.mem_cons_of_mem _ hd)
    exact ⟨s :: names, rfl⟩

/-- Normal is an absolute path without `.` and `..`. -/
theorem isNormal_iff : p.IsNormal ↔ p.isAbsolute ∧ ∀ c ∈ p.components, c ≠ .here ∧ c ≠ .up := by
  constructor
  · rintro ⟨names, hnames⟩
    refine ⟨(isAbsolute_of_components hnames).1, fun c hc => ?_⟩
    rw [hnames] at hc
    rcases List.mem_cons.1 hc with rfl | hc
    · exact ⟨nofun, nofun⟩
    · obtain ⟨s, -, rfl⟩ := List.mem_map.1 hc
      exact ⟨nofun, nofun⟩
  · rintro ⟨habsolute, hall⟩
    have hcomponents := components_of_isAbsolute habsolute
    obtain ⟨names, hnames⟩ : ∃ names : List String, p.steps = names.map .name := by
      refine exists_names fun c hc => ⟨isStep_of_mem_steps hc, ?_⟩
      exact (hall c (by rw [hcomponents]; exact List.mem_cons_of_mem _ hc)).2
    exact ⟨names, by rw [hcomponents, hnames]⟩

lemma IsNormal.isAbsolute (h : p.IsNormal) : p.isAbsolute := (isNormal_iff.1 h).1

/-- The path `p` is `root`, as it is written, with names of files after it. -/
def Extends (root p : Path) : Prop :=
  ∃ names : List String, (∀ s ∈ names, IsFileName s) ∧ p = root.extend (names.map .name)

/-- Names after a path do not make it normal, and do not spoil it. -/
theorem Extends.isNormal_iff {root : Path} (h : root.Extends p) (hroot : root.isAbsolute) :
    p.IsNormal ↔ .up ∉ root.components := by
  obtain ⟨names, hnames, rfl⟩ := h
  have hcomponents : (root.extend (names.map .name)).components = root.components ++ names.map .name := by
    refine components_extend root fun c hc => ?_
    obtain ⟨s, hs, rfl⟩ := List.mem_map.1 hc
    exact isStep_iff.2 (.inr ⟨s, rfl, hnames s hs⟩)
  constructor
  · intro h hup
    exact ((Path.isNormal_iff.1 h).2 .up (by rw [hcomponents]; exact List.mem_append_left _ hup)).2 rfl
  · intro hup
    obtain ⟨before, hbefore⟩ : ∃ before : List String, root.steps = before.map .name := by
      refine exists_names fun c hc => ⟨isStep_of_mem_steps hc, ?_⟩
      rintro rfl
      exact hup (by rw [components_of_isAbsolute hroot]; exact List.mem_cons_of_mem _ hc)
    refine ⟨before ++ names, ?_⟩
    rw [hcomponents, components_of_isAbsolute hroot, hbefore, List.map_append]
    rfl

/-! ## Normalisation -/

lemma exists_foldl_cancel (names : List String) (hcs : ∀ c ∈ cs, c.IsStep) :
    ∃ names', cs.foldl cancel (kept names) = kept names' := by
  induction cs generalizing names with
  | nil => exact ⟨names, rfl⟩
  | cons c rest ih =>
    have hrest : ∀ c ∈ rest, c.IsStep := fun c hc => hcs c (List.mem_cons_of_mem _ hc)
    rcases isStep_iff.1 (hcs c List.mem_cons_self) with rfl | ⟨s, rfl, -⟩
    · cases names with
      | nil => exact ih [] hrest
      | cons s names => exact ih names hrest
    · rw [List.foldl_cons, Workspace.cancel_name]
      exact ih (s :: names) hrest

lemma foldl_cancel_names (before : List String) :
    (names.map .name).foldl cancel (kept before) = kept (names.reverse ++ before) := by
  induction names generalizing before with
  | nil => rfl
  | cons s rest ih =>
    rw [List.map_cons, List.foldl_cons, Workspace.cancel_name, ih, List.reverse_cons, List.append_assoc]
    rfl

/-- Normalisation makes an absolute path normal. -/
theorem isReduced_normalize (h : p.isAbsolute) : p.normalize.IsReduced where
  normal := by
    have hsteps : ∀ c ∈ p.steps, c.IsStep := fun c => isStep_of_mem_steps
    obtain ⟨names, hnames⟩ := exists_foldl_cancel [] hsteps
    refine ⟨names.reverse, ?_⟩
    rw [components_normalize, components_of_isAbsolute h, ← Workspace.reverse_kept, ← hnames]
    rfl
  canonical := isCanonical_normalize p

lemma IsNormal.components_normalize (h : p.IsNormal) : p.normalize.components = p.components := by
  obtain ⟨names, hnames⟩ := h
  have hfold : (Component.root :: names.map .name).foldl cancel [] = kept names.reverse := by
    rw [← List.append_nil names.reverse, ← foldl_cancel_names]
    rfl
  rw [Path.components_normalize, hnames, hfold, Workspace.reverse_kept, List.reverse_reverse]

/-- Normal paths that are the same after normalisation are the same. -/
theorem IsNormal.compare_eq_of_normalize_eq (hp : p.IsNormal) (hq : q.IsNormal)
    (h : p.normalize = q.normalize) : compare p q = .eq := by
  rw [compare_eq_iff, ← hp.components_normalize, h, hq.components_normalize]

/-! ## The directory around a file -/

/-- The canonical text of names after the root. -/
lemma toList_ofComponents (hnames : ∀ s ∈ names, IsFileName s) :
    (ofComponents (.root :: names.map .name)).text.toList =
      '/' :: ['/'].intercalate (names.map String.toList) := by
  by_cases hne : names = []
  · subst hne
    decide
  · obtain ⟨first, rest, rfl⟩ := List.exists_cons_of_ne_nil hne
    have hsegments := congrArg (List.map String.toList) (Workspace.segments_ofComponents hnames hne)
    have hlists : String.toList ∘ String.ofList = id := funext fun l => String.toList_ofList
    rw [Workspace.segments, List.map_map, hlists, List.map_id] at hsegments
    refine (List.intercalate_splitOn '/').symm.trans ?_
    rw [hsegments]
    exact List.intercalate_cons_cons

lemma split_ofComponents (hnames : ∀ s ∈ names, IsFileName s) (hne : names ≠ []) :
    (ofComponents (.root :: names.map .name)).split = (.root, names.map String.toList) := by
  unfold split
  rw [toList_ofComponents hnames]
  have hsplit : (['/'].intercalate (names.map String.toList)).splitOn '/' = names.map String.toList := by
    refine List.splitOn_intercalate '/' (fun l hl => ?_) (by simpa using hne)
    obtain ⟨s, hs, rfl⟩ := List.mem_map.1 hl
    exact (hnames s hs).slash
  simp only [hsplit]

lemma trimEnd_names (hnames : ∀ s ∈ names, IsFileName s) :
    trimEnd (names.map String.toList) = names.map String.toList := by
  have hsolid : ∀ l ∈ (names.map String.toList).reverse, isVoid l = false := by
    intro l hl
    obtain ⟨s, hs, rfl⟩ := List.mem_map.1 (List.mem_reverse.1 hl)
    have hstep := (isStep_iff.2 (.inr ⟨s, rfl, hnames s hs⟩)).1
    rw [isVoid, show s.toList = (Component.name s).text.toList from rfl, hstep]
    rfl
  have hkeep : (names.map String.toList).reverse.dropWhile isVoid =
      (names.map String.toList).reverse := by
    refine List.dropWhile_eq_self_iff.2 fun hlength hvoid => ?_
    rw [hsolid _ (List.getElem_mem hlength)] at hvoid
    cases hvoid
  rw [trimEnd, hkeep, List.reverse_reverse]

lemma parent?_ofComponents (hnames : ∀ s ∈ names, IsFileName s) (hne : names ≠ []) :
    (ofComponents (.root :: names.map .name)).parent? =
      some (ofComponents (.root :: names.dropLast.map .name)) := by
  have hinit : ∀ s ∈ names.dropLast, IsFileName s := fun s hs => hnames s (List.dropLast_subset _ hs)
  have hparent : ofSplit .root (names.dropLast.map String.toList) =
      ofComponents (.root :: names.dropLast.map .name) := by
    rw [ofSplit, Path.mk.injEq, ← String.toList_inj, toList_ofComponents hinit, String.toList_ofList]
    rfl
  unfold parent?
  rw [split_ofComponents hnames hne]
  simp only [trimEnd_names hnames]
  split
  · next hnil => exact absurd (List.map_eq_nil_iff.1 hnil) hne
  · rw [← List.map_dropLast, trimEnd_names hinit, hparent]

/-- A reduced path, made from its names. -/
lemma IsReduced.exists_names (h : p.IsReduced) :
    ∃ names : List String, (∀ s ∈ names, IsFileName s) ∧ p = ofComponents (.root :: names.map .name) := by
  obtain ⟨names, hnames⟩ := h.normal
  refine ⟨names, fun s hs => ?_, ?_⟩
  · have hstep : Component.IsStep (.name s) := by
      refine isStep_of_mem_steps (p := p) ?_
      rw [(isAbsolute_of_components hnames).2]
      exact List.mem_map_of_mem hs
    rcases isStep_iff.1 hstep with hup | ⟨s', hs', hname⟩
    · cases hup
    · cases hs'
      exact hname
  · obtain ⟨q, rfl⟩ := h.canonical
    rw [components_normalize] at hnames
    rw [normalize, hnames]

lemma isReduced_ofComponents (hnames : ∀ s ∈ names, IsFileName s) :
    (ofComponents (.root :: names.map .name)).IsReduced := by
  have hcomponents := components_ofComponents (areCanonical_names hnames)
  have hnormal : (ofComponents (.root :: names.map .name)).IsNormal := ⟨names, hcomponents⟩
  refine ⟨hnormal, ofComponents (.root :: names.map .name), ?_⟩
  have hsame := hnormal.components_normalize
  rw [components_normalize, hcomponents] at hsame
  rw [normalize, hcomponents, hsame]

/-- The directory around a file has a reduced path if the file has. -/
theorem IsReduced.parent? (h : p.IsReduced) (hq : p.parent? = some q) : q.IsReduced := by
  obtain ⟨names, hnames, rfl⟩ := h.exists_names
  by_cases hne : names = []
  · subst hne
    have hroot : (ofComponents [.root]).parent? = none := by decide
    rw [List.map_nil, hroot] at hq
    cases hq
  · rw [parent?_ofComponents hnames hne] at hq
    cases hq
    exact isReduced_ofComponents fun s hs => hnames s (List.dropLast_subset _ hs)

end Path

/-- Every path that is not empty is absolute as seen from the current directory. -/
lemma Workspace.isAbsolute_absolute {w : Workspace} {p q : Path} (h : w.absolute p = .ok q) :
    q.isAbsolute := by
  unfold absolute at h
  split at h
  · cases h
  · next hempty =>
    split at h
    · next habsolute =>
      obtain ⟨q', hq'⟩ := exists_absolute? hempty ⟨""⟩
      rw [hq'] at h
      cases h
      have hcomponents := components_absolute? hq'
      rw [if_pos habsolute] at hcomponents
      exact (isAbsolute_of_components hcomponents).1
    · -- a relative path is put behind the current directory, which is absolute
      next hrelative =>
      unfold currentDirectory at h
      split at h
      · obtain ⟨q', hq'⟩ := exists_absolute? hempty (Path.ofComponents (.root :: w.cwd.map .name))
        simp only [bind, Except.bind, hq'] at h
        cases h
        have hcomponents := components_absolute? hq'
        rw [if_neg hrelative, Path.components_of_isAbsolute Path.isAbsolute_ofComponents] at hcomponents
        exact (isAbsolute_of_components hcomponents).1
      · cases h

end IncludeDeps
