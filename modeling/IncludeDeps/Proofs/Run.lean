import IncludeDeps.Proofs.Task

/-!
# Analyses in the middle of a run

An analysis that is carried out with whatever lookups are remembered.

* `Run.context` is what such an analysis works with;
* `RunM.analyse_run` opens `RunM.analyse`, so that later proofs need not;
* `RunM.passes_of_analyse` tells which pass stands behind an analysis that succeeds, and what of it
  is remembered.

The lookups that are remembered may be wrong about the files by now.  Nothing here asks that they
are right: the reader of `Run.context` answers from them, and what is proved of a pass holds with
whatever its reader answers.
-/

namespace IncludeDeps

/-- What a pass works with in the middle of a run: the files seen through the lookups that are
remembered. -/
def Run.context (r : Run) (settings : Settings) (hasher : Hasher) (previous : TaskState) :
    PassContext :=
  ⟨r.lookup.reader r.files (hasher r.files), settings, previous⟩

/-- A run that succeeds comes to its answer and to what it leaves. -/
lemma Except.prod_eq_ok_get {ε α β : Type} {x : Except ε α × β} (h : x.1.toOption.isSome) :
    x = (.ok (x.1.toOption.get h), x.2) := by
  rw [← eq_ok_get h]

/-- A run whose answer passes a test succeeds with an answer that does. -/
lemma Except.exists_of_any {ε α β : Type} {x : Except ε α × β} {P : α → Bool}
    (h : x.1.toOption.any P) : ∃ a y, x = (.ok a, y) ∧ P a := by
  obtain ⟨a, ha, hP⟩ := exists_ok_of_any h
  exact ⟨a, x.2, by rw [← ha], hP⟩

namespace RunM

variable {settings : Settings} {hasher : Hasher} {previous : TaskState} {sources l : List Path}
  {r r' : Run} {a : Analysis} {p : Path}

/-! ## The sources -/

/-- Sources with canonical forms have absolute ones. -/
lemma exists_absolute_of_absoluteAll {w : Workspace} (h : absoluteAll w sources = .ok l) :
    ∀ p ∈ sources, ∃ q, w.absolute p = .ok q := by
  induction sources generalizing l with
  | nil => exact fun _ hp => nomatch hp
  | cons s rest ih =>
    unfold absoluteAll at h
    obtain ⟨q, hs, h⟩ := Except.exists_of_bind h
    obtain ⟨qs, hrest, -⟩ := Except.exists_of_bind h
    intro p hp
    rcases List.mem_cons.1 hp with rfl | hp
    · exact ⟨q, Except.eq_ok_of_mapError hs⟩
    · exact ih hrest p hp

lemma mem_ofList_absoluteAll {w : Workspace} (h : absoluteAll w sources = .ok l) :
    p ∈ (OrderedSet.ofList l).toList ↔
      ∃ s ∈ sources, ∃ q, w.absolute s = .ok q ∧ q.normalize = p := by
  obtain ⟨l', hl', hmem⟩ := exists_absoluteAll (exists_absolute_of_absoluteAll h)
  rw [h] at hl'
  cases hl'
  rw [← hmem]
  constructor
  · exact OrderedSet.mem_ofList
  · intro hp
    have hcanonical := isCanonical_of_absoluteAll h
    refine (OrderedSet.mem_iff_contains fun q hq hcompare => ?_).2 (OrderedSet.contains_ofList hp)
    exact (hcanonical p hp).eq_of_compare (hcanonical q (OrderedSet.mem_ofList hq)) hcompare

/-! ## The pass behind an analysis -/

/-- An analysis of sources that have canonical forms, with all that it leaves. -/
lemma analyse_run (h : absoluteAll r.files sources = .ok l) {x : Except (Path × Fault) Analysis}
    {pass : Pass}
    (hrun : Analysis.run (r.context settings hasher previous) (OrderedSet.ofList l) = (x, pass)) :
    ∃ phases, (analyse settings hasher previous sources).run.run r =
      (x, { r with lookup := r.lookup.rememberAll r.files pass.probes, phases }) := by
  unfold analyse
  simp only [ExceptT.run, ExceptT.mk, StateT.run, h]
  rw [← Run.context, hrun]
  exact ⟨_, rfl⟩

/-- Behind every analysis that succeeds there is a pass over the canonical forms of the sources.
All files that it looked for are remembered. -/
theorem passes_of_analyse
    (h : (analyse settings hasher previous sources).run.run r = (.ok a, r')) :
    ∃ l pass last, absoluteAll r.files sources = .ok l ∧
      Analysis.run (r.context settings hasher previous) (OrderedSet.ofList l) = (.ok a, last) ∧
      (r.context settings hasher previous).Passes (OrderedSet.ofList l) pass last a ∧
      r'.files = r.files ∧ r'.lookup = r.lookup.rememberAll r.files last.probes := by
  cases habsolute : absoluteAll r.files sources with
  | error e =>
    unfold analyse at h
    simp only [ExceptT.run, ExceptT.mk, StateT.run, habsolute] at h
    cases h
  | ok l =>
    rcases hrun : Analysis.run (r.context settings hasher previous) (OrderedSet.ofList l)
      with ⟨x, last⟩
    obtain ⟨phases, heq⟩ := analyse_run habsolute hrun
    rw [h] at heq
    cases heq
    have hcanonical : ∀ s ∈ (OrderedSet.ofList l).toList, s.IsCanonical := fun s hs =>
      isCanonical_of_absoluteAll habsolute s (OrderedSet.mem_ofList hs)
    obtain ⟨pass, -, hpasses⟩ := PassContext.passes_of_run hcanonical hrun
    exact ⟨l, pass, last, rfl, hrun, hpasses, rfl, rfl⟩

end RunM

end IncludeDeps
