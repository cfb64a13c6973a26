import IncludeDeps.Proofs.Pass
import IncludeDeps.Proofs.Workspace
import IncludeDeps.Task

/-!
# Tasks on a file tree

What the analysis of a task comes to when nothing is remembered but a previous state.

* `Task.analyseIn` is the answer of `Task.analyseAgainst` with fresh lookups;
* `Task.Passes` tells which pass stands behind an answer, and `Task.passes_of_analyseIn` that there
  is one behind every answer that is no failure;
* `Hasher.IsTruthful`: digests are digests of contents, as with `contentHasher`.

Here sources are given as the task names them, and the pass is over their absolute canonical forms.
An analysis fails only at a source, and `Task.exists_passes_of_readable` is the other half of that:
where all sources can be read there is an answer.
-/

namespace IncludeDeps

lemma Except.eq_ok_get {ε α : Type} {x : Except ε α} (h : x.toOption.isSome) :
    x = .ok (x.toOption.get h) := by
  cases x with
  | error e => cases h
  | ok a => rfl

/-- A computation whose answer passes a test succeeds with an answer that does. -/
lemma Except.exists_ok_of_any {ε α : Type} {x : Except ε α} {P : α → Bool}
    (h : x.toOption.any P) : ∃ a, x = .ok a ∧ P a := by
  obtain ⟨a, ha, hP⟩ := (Option.any_eq_true _ _).1 h
  cases x with
  | error e => cases ha
  | ok b =>
    cases ha
    exact ⟨a, rfl, hP⟩

lemma Except.map_mapError {ε ε' α β : Type} (f : α → β) (g : ε → ε') (x : Except ε α) :
    (x.mapError g).map f = (x.map f).mapError g := by
  cases x with
  | error e => rfl
  | ok a => rfl

/-- A hasher that may fail, but does not lie about contents: a digest that it gives is that of what
can be read. -/
def Hasher.IsTruthful (hasher : Hasher) : Prop :=
  ∀ w p digest, hasher w p = .ok digest → ∃ b, w.read p = .ok b ∧ digest = Digest.ofBytes b

lemma isTruthful_contentHasher : Hasher.IsTruthful contentHasher := by
  intro w p digest h
  unfold contentHasher at h
  cases hread : w.read p with
  | ok b =>
    rw [hread] at h
    cases h
    exact ⟨b, rfl, rfl⟩
  | error e =>
    rw [hread] at h
    cases h

lemma exists_contentHasher {w : Workspace} {p : Path} (h : w.isFile p) :
    ∃ digest, contentHasher w p = .ok digest := by
  obtain ⟨x, hx⟩ := Workspace.exists_read_of_isFile h
  exact ⟨Digest.ofBytes x, by rw [contentHasher, hx]; rfl⟩

lemma RunM.isCanonical_of_absoluteAll {w : Workspace} {sources l : List Path}
    (h : RunM.absoluteAll w sources = .ok l) : ∀ p ∈ l, p.IsCanonical := by
  induction sources generalizing l with
  | nil =>
    cases h
    exact fun _ hp => nomatch hp
  | cons s rest ih =>
    unfold absoluteAll at h
    obtain ⟨q, -, h⟩ := Except.exists_of_bind h
    obtain ⟨qs, hrest, h⟩ := Except.exists_of_bind h
    cases h
    intro p hp
    rcases List.mem_cons.1 hp with rfl | hp
    · exact Path.isCanonical_normalize q
    · exact ih hrest p hp

lemma RunM.exists_absoluteAll {w : Workspace} {sources : List Path}
    (h : ∀ p ∈ sources, ∃ q, w.absolute p = .ok q) :
    ∃ l, RunM.absoluteAll w sources = .ok l ∧
      ∀ q, q ∈ l ↔ ∃ p ∈ sources, ∃ q', w.absolute p = .ok q' ∧ q'.normalize = q := by
  induction sources with
  | nil => exact ⟨[], rfl, by simp⟩
  | cons s rest ih =>
    obtain ⟨q, hq⟩ := h s List.mem_cons_self
    obtain ⟨l, hl, hmem⟩ := ih fun p hp => h p (List.mem_cons_of_mem _ hp)
    refine ⟨q.normalize :: l, by rw [absoluteAll, hq, hl]; rfl, fun r => ?_⟩
    rw [List.mem_cons, hmem]
    simp [hq, eq_comm]

/-- What holds of the canonical forms of all sources holds of all that is analysed, whichever of its
spellings a source was given in. -/
lemma RunM.exists_absoluteAll_of_forall {w : Workspace} {sources : List Path} {P : Path → Prop}
    (h : ∀ p ∈ sources, ∃ q, w.absolute p = .ok q ∧ P q.normalize) :
    ∃ l, RunM.absoluteAll w sources = .ok l ∧
      ∀ s ∈ (OrderedSet.ofList l).toList, s.IsCanonical ∧ P s := by
  obtain ⟨l, hl, hmem⟩ := exists_absoluteAll fun p hp => (h p hp).imp fun _ hq => hq.1
  refine ⟨l, hl, fun s hs => ?_⟩
  obtain ⟨p, hp, q, hq, rfl⟩ := (hmem s).1 (OrderedSet.mem_ofList hs)
  obtain ⟨q', hq', hholds⟩ := h p hp
  rw [hq] at hq'
  cases hq'
  exact ⟨Path.isCanonical_normalize q, hholds⟩

namespace Task

variable (t : Task) (hasher : Hasher) (w : Workspace) (previous : TaskState)

/-- The answer of the analysis of a task in a file tree, with fresh lookups. -/
def analyseIn : Except TaskError Analysis :=
  ((t.analyseAgainst hasher previous).run.run { files := w }).1

/-- What a pass for a task works with, when no lookup is remembered. -/
def context : PassContext := ⟨({} : Lookup).reader w (hasher w), t.settings, previous⟩

/-- An answer to a pass over the given sources, in the words of the task. -/
def tell : Except (Path × Fault) Analysis → Except TaskError Analysis :=
  Except.mapError fun (p, e) => .source t.name p e

lemma analyseIn_eq : t.analyseIn hasher w previous =
    t.tell ((RunM.absoluteAll w t.sources).bind fun sources =>
      (Analysis.run (t.context hasher w previous) (OrderedSet.ofList sources)).1) := by
  unfold analyseIn analyseAgainst RunM.analyse
  cases habsolute : RunM.absoluteAll w t.sources with
  | error e =>
    simp only [ExceptT.run, ExceptT.mk, StateT.run, bind, StateT.bind, habsolute]
    rfl
  | ok sources =>
    simp only [ExceptT.run, ExceptT.mk, StateT.run, bind, StateT.bind, habsolute, Except.bind]
    rw [← context]
    cases (Analysis.run (t.context hasher w previous) (OrderedSet.ofList sources)).1 with
    | error e => rfl
    | ok a => rfl

variable {t hasher w previous} {a : Analysis}

/-- The analysis `a` is the outcome of a pass over `sources`, which was `pass` when these had been
read, and `last` in the end. -/
structure Passes (t : Task) (hasher : Hasher) (w : Workspace) (previous : TaskState)
    (sources : OrderedSet Path) (pass last : Pass) (a : Analysis) : Prop where
  absolute : ∃ l, RunM.absoluteAll w t.sources = .ok l ∧ sources = OrderedSet.ofList l
  canonical : ∀ s ∈ sources.toList, s.IsCanonical
  readable : ∀ s ∈ sources.toList, ∃ d, (t.context hasher w previous).draft s = .ok d
  opened : pass.Opened (t.context hasher w previous) sources.toList
  last_eq : last = pass.visitAll (t.context hasher w previous) sources.toList
  outcome : a = Analysis.ofPass (t.context hasher w previous) sources last

/-- With sources that can be read, an analysis has an outcome. -/
theorem exists_passes {l : List Path} (habsolute : RunM.absoluteAll w t.sources = .ok l)
    (hread : ∀ s ∈ (OrderedSet.ofList l).toList,
      ∃ d, (t.context hasher w previous).draft s = .ok d) :
    ∃ pass last a, t.analyseIn hasher w previous = .ok a ∧
      t.Passes hasher w previous (OrderedSet.ofList l) pass last a := by
  have hcanonical : ∀ s ∈ (OrderedSet.ofList l).toList, s.IsCanonical := fun s hs =>
    RunM.isCanonical_of_absoluteAll habsolute s (OrderedSet.mem_ofList hs)
  obtain ⟨pass, hopened, heq⟩ := Analysis.run_of_readable hcanonical hread
  refine ⟨pass, _, _, ?_, ⟨l, habsolute, rfl⟩, hcanonical, hread, hopened, rfl, rfl⟩
  rw [analyseIn_eq, habsolute]
  exact congrArg t.tell heq

/-- With sources whose canonical forms can be read, an analysis has an outcome.  Nothing is asked
of headers: one that cannot be read is noted, and does not make the analysis fail. -/
theorem exists_passes_of_readable (h : ∀ p ∈ t.sources, ∃ q, w.absolute p = .ok q ∧
      ∃ d, (t.context hasher w previous).draft q.normalize = .ok d) :
    ∃ l pass last a, RunM.absoluteAll w t.sources = .ok l ∧ t.analyseIn hasher w previous = .ok a ∧
      t.Passes hasher w previous (OrderedSet.ofList l) pass last a := by
  obtain ⟨l, hl, hsources⟩ := RunM.exists_absoluteAll_of_forall
    (P := fun s => ∃ d, (t.context hasher w previous).draft s = .ok d) h
  obtain ⟨pass, last, a, ha, hpass⟩ := exists_passes hl fun s hs => (hsources s hs).2
  exact ⟨l, pass, last, a, hl, ha, hpass⟩

/-- Behind every outcome there is a pass, over the canonical sources and with all that
`PassContext.Passes` says of it. -/
theorem passes_of_analyseIn (h : t.analyseIn hasher w previous = .ok a) :
    ∃ sources pass last, t.Passes hasher w previous sources pass last a := by
  have heq := h
  rw [analyseIn_eq] at heq
  obtain ⟨l, habsolute, hrun⟩ := Except.exists_of_bind (Except.eq_ok_of_mapError heq)
  have hcanonical : ∀ s ∈ (OrderedSet.ofList l).toList, s.IsCanonical := fun s hs =>
    RunM.isCanonical_of_absoluteAll habsolute s (OrderedSet.mem_ofList hs)
  -- an analysis that succeeds has read all its sources, and then its pass exists; it has one
  -- outcome only
  have hread := Analysis.readable_of_run hcanonical hrun
  obtain ⟨pass, last, a', ha, hpass⟩ := exists_passes habsolute hread
  rw [h] at ha
  cases ha
  exact ⟨_, pass, last, hpass⟩

namespace Passes

variable {sources : OrderedSet Path} {pass last : Pass} {p : Path}

lemma passes (h : t.Passes hasher w previous sources pass last a) :
    (t.context hasher w previous).Passes sources pass last a :=
  ⟨h.canonical, h.readable, h.opened, h.last_eq, h.outcome⟩

lemma sources_eq (h : t.Passes hasher w previous sources pass last a) :
    a.state.sources = sources :=
  h.passes.sources_eq

lemma coherent (h : t.Passes hasher w previous sources pass last a) :
    last.Coherent (t.context hasher w previous) :=
  h.passes.coherent

lemma snapshot?_eq (h : t.Passes hasher w previous sources pass last a) (hp : p.IsCanonical) :
    a.state.snapshot? p = (last.files.get? p).map fun d => d.snapshot p :=
  h.passes.snapshot?_eq hp

/-- The walk from one of the sources, and what came before it. -/
theorem exists_walk (h : t.Passes hasher w previous sources pass last a) {before after : List Path}
    (hs : sources.toList = before ++ p :: after) :
    ∃ v, Walk.Explores (t.context hasher w previous) [p]
        ((pass.visitAll (t.context hasher w previous) before).setOut
          (t.context hasher w previous)) v ∧
      v.pass.Extends last ∧ last.reachable.get? p = some v.visited :=
  h.passes.exists_walk hs

lemma exists_source (h : t.Passes hasher w previous sources pass last a) (hp : p ∈ sources.toList) :
    ∃ d, last.files.get? p = some d :=
  h.passes.exists_source hp

/-- A snapshot is of what was read. -/
lemma draft_of_mem (h : t.Passes hasher w previous sources pass last a) {e : Path × Snapshot}
    (he : e ∈ a.state.files.toList) :
    ∃ d, (t.context hasher w previous).draft e.1 = .ok d ∧ e.2.digest = d.digest ∧
      e.2.directives = d.directives :=
  h.passes.draft_of_mem he

/-- The directives of a source are those of its snapshot. -/
lemma get?_sourceDirectives (h : t.Passes hasher w previous sources pass last a)
    (hp : p ∈ sources.toList) :
    ∃ d, (t.context hasher w previous).draft p = .ok d ∧
      a.sourceDirectives.get? p = some d.directives := by
  have hcanonical := h.canonical p hp
  obtain ⟨d, hd⟩ := h.exists_source hp
  -- sources are canonical, so that paths that compare as equal are the same path
  have hsnapshot : ∀ q ∈ a.state.sources.toList, compare p q = .eq →
      a.state.snapshot? q = some (d.snapshot p) := by
    intro q hq hcompare
    rw [h.sources_eq] at hq
    rw [← hcanonical.eq_of_compare (h.canonical q hq) hcompare, h.snapshot?_eq hcanonical, hd]
    rfl
  refine ⟨d.fresh, (h.coherent.fits hcanonical hd).fresh, OrderedMap.get?_ofList ?_ ?_⟩
  · have hself : compare p p = .eq := Std.ReflCmp.compare_self
    have hmem : p ∈ a.state.sources.toList := by rw [h.sources_eq]; exact hp
    refine ⟨(p, d.directives), List.mem_filterMap.2 ⟨p, hmem, ?_⟩, hself⟩
    rw [hsnapshot p hmem hself]
    rfl
  · intro e he hcompare
    obtain ⟨q, hq, heq⟩ := List.mem_filterMap.1 he
    have hqcanonical := h.canonical q (h.sources_eq ▸ hq)
    rw [h.snapshot?_eq hqcanonical, Option.map_map] at heq
    obtain ⟨d', hd', rfl⟩ := Option.map_eq_some_iff.1 heq
    obtain rfl := hcanonical.eq_of_compare hqcanonical hcompare
    rw [hd] at hd'
    cases hd'
    rfl

end Passes

end Task

end IncludeDeps
