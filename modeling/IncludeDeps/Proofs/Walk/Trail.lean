import IncludeDeps.Proofs.Pass

/-!
# The trails of walks

A walk enters one file after the other, each of them with the macros that it has seen up to there.
What a pass remembers of a file does not tell how often it was entered or with which macros, as the
entries of all times are put together in one list.  A trail keeps the two apart.

* `Walk.trail` lists the files that a walk enters, by the recursion of the walk itself;
  `Pass.trail`, `Pass.trailAll` and `Analysis.trail` do so for passes and analyses;
* `Walk.Entry.found` is what the includes of a file become where it is entered;
* `Pass.Traced` relates a trail and what is remembered: nothing is remembered that was not found
  somewhere on the trail, and nothing that was found there is forgotten.  Steps keep this
  (`Walk.traced_enter`), so it holds of whole passes (`Pass.traced_visitAll`);
* `Pass.LooksLike` is about two passes that get the same to see of every file.  One of them may have
  read a file which the other one has yet to read, but their trails are the same
  (`Walk.LooksLike.run`, `Pass.LooksLike.trailAll_eq`).
-/

namespace IncludeDeps

namespace Draft

variable {c : PassContext} {p : Path} {d : Draft} {s : Search} {t : MacroTable}
  {r : ResolvedInclude}

lemma mem_or_mem_of_mem_entered (h : r ∈ (d.entered s t p).resolved) :
    r ∈ d.resolved ∨ r ∈ (s.resolveAll t p d.directives).resolved := by
  unfold Draft.entered at h
  split at h
  · exact .inl h
  · exact mem_or_mem_of_mem_foldl_addNew h

/-- What the includes of a file become when it is entered is remembered, if they are not resolved
anew as well: they are not only if they do not depend on the macros. -/
lemma Fits.exists_same_of_mem (h : d.Fits c p)
    (hr : r ∈ (c.search.resolveAll t p d.directives).resolved) :
    ∃ u ∈ (d.entered c.search t p).resolved, r.same u := by
  by_cases hdone : d.isResolved ∧ d.directives.hasComputedIncludes = false
  · rw [Search.resolveAll_of_literal hdone.2] at hr
    rw [entered_of_done hdone.1 hdone.2, h.literal hdone.1 hdone.2]
    exact IncludeDeps.exists_same_of_mem hr
  · have hopen : d.isResolved = false ∨ d.directives.hasComputedIncludes := by
      rw [not_and_or, Bool.not_eq_true, Bool.not_eq_false] at hdone
      exact hdone
    rw [entered_of_open hopen]
    exact IncludeDeps.exists_same_of_mem hr

end Draft

/-! ## Trails -/

namespace Walk

/-- A file that a walk enters, and the macros that are known once its own are taken in. -/
structure Entry where
  /-- The file. -/
  file : Path
  /-- The macros. -/
  macros : MacroTable

/-- What the includes of a file become where it is entered; nothing if it cannot be read. -/
def Entry.found (c : PassContext) (e : Entry) : List ResolvedInclude :=
  match c.draft e.file with
  | .ok d => (c.search.resolveAll e.macros e.file d.directives).resolved
  | .error _ => []

/-- The files that `Walk.run` enters, in order. -/
def trail (c : PassContext) : (fuel : ℕ) → List Path → Walk → List Entry
  | 0, _, _ => []
  | fuel + 1, stack, w =>
    match stack.dropWhile w.visited.contains with
    | [] => []
    | p :: rest =>
      ⟨p, (w.enter c p).2.macros⟩ :: trail c fuel ((w.enter c p).1 ++ rest) (w.enter c p).2

end Walk

namespace Pass

/-- The files that the walk from a source enters. -/
def trail (c : PassContext) (pass : Pass) (source : Path) : List Walk.Entry :=
  Walk.trail c (c.reader.budget + 1) [source] (pass.setOut c)

/-- The files that the walks from all sources enter, one after the other. -/
def trailAll (c : PassContext) (pass : Pass) : List Path → List Walk.Entry
  | [] => []
  | s :: rest => pass.trail c s ++ (pass.visit c s).trailAll c rest

end Pass

/-- The files that the walks of an analysis enter. -/
def Analysis.trail (c : PassContext) (sources : OrderedSet Path) : List Walk.Entry :=
  (Pass.start.readSources c sources.toList).2.trailAll c sources.toList

/-! ## What is remembered -/

namespace Pass

/-- All that is remembered of the file `p` was found where the trail enters it, and all that was found
there is remembered.  Of two finds that are the same only the first one is kept, so what is found
later on may be remembered in another spelling. -/
structure TracedAt (c : PassContext) (trail : List Walk.Entry) (pass : Pass) (p : Path) : Prop where
  remembered : ∀ d, pass.files.get? p = some d → ∀ r ∈ d.resolved,
    ∃ e ∈ trail, e.file = p ∧ r ∈ e.found c
  entered : ∀ d, pass.files.get? p = some d → d.isResolved → ∃ e ∈ trail, e.file = p
  found : ∀ e ∈ trail, e.file = p → ∀ r ∈ e.found c,
    ∃ d, pass.files.get? p = some d ∧ ∃ u ∈ d.resolved, r.same u

/-- What a pass remembers of its files, and a trail that tells where that was found. -/
structure Traced (c : PassContext) (trail : List Walk.Entry) (pass : Pass) : Prop where
  canonical : ∀ e ∈ trail, e.file.IsCanonical
  files : ∀ p, p.IsCanonical → pass.TracedAt c trail p

variable {c : PassContext} {pass pass' : Pass} {trail : List Walk.Entry} {p : Path} {d : Draft}
  {e : Walk.Entry} {sources : List Path}

/-- What is remembered of a file changes only where that file is entered. -/
lemma TracedAt.of_ne (h : pass.TracedAt c trail p) (he : e.file ≠ p)
    (hfiles : pass'.files.get? p = pass.files.get? p) : pass'.TracedAt c (trail ++ [e]) p where
  remembered d hd r hr := by
    obtain ⟨e', he', hfind⟩ := h.remembered d (hfiles ▸ hd) r hr
    exact ⟨e', List.mem_append_left _ he', hfind⟩
  entered d hd hdone := by
    obtain ⟨e', he', hfile⟩ := h.entered d (hfiles ▸ hd) hdone
    exact ⟨e', List.mem_append_left _ he', hfile⟩
  found e' he' hfile r hr := by
    rcases List.mem_append.1 he' with he' | he'
    · exact hfiles.symm ▸ h.found e' he' hfile r hr
    · exact absurd (List.mem_singleton.1 he' ▸ hfile) he

/-- Sources that were only read have not been entered. -/
lemma Opened.traced (h : pass.Opened c sources) : pass.Traced c [] where
  canonical _ he := nomatch he
  files p hp := by
    refine ⟨fun d hd r hr => ?_, fun d hd hdone => ?_, fun _ he => nomatch he⟩
    · rw [PassContext.resolved_of_draft ((h.files p d hp).1 hd).2] at hr
      cases hr
    · rw [PassContext.isResolved_of_draft ((h.files p d hp).1 hd).2] at hdone
      cases hdone

/-- A file is resolved only once the pass knows it. -/
lemma get?_of_isResolved (h : pass.look? c p = some d) (hd : d.isResolved) :
    pass.files.get? p = some d := by
  cases hfiles : pass.files.get? p with
  | some d' => rw [← look?_of_get? hfiles, h]
  | none =>
    rw [look?, hfiles] at h
    rw [PassContext.isResolved_of_draft (Except.eq_ok_of_toOption h)] at hd
    cases hd

end Pass

namespace Walk

variable {c : PassContext} {w : Walk} {p : Path} {d : Draft} {t : MacroTable} {trail' : List Entry}
  {stack : List Path} {fuel : ℕ}

lemma Entry.found_of_fits (h : d.Fits c p) :
    (Entry.mk p t).found c = (c.search.resolveAll t p d.directives).resolved := by
  rw [found, h.fresh]
  rfl

lemma Entry.found_of_error {e : Fault} (h : c.draft p = .error e) : (Entry.mk p t).found c = [] := by
  rw [found, h]

/-- The file that a step enters. -/
lemma Enters.tracedAt {step : List Path × Walk} (h : w.Enters c p d step) (hw : w.Sound c)
    (hp : p.IsCanonical) (hd : w.pass.look? c p = some d) (hpass : w.pass.TracedAt c trail' p) :
    step.2.pass.TracedAt c (trail' ++ [⟨p, step.2.macros⟩]) p := by
  have hfits := hw.pass.fits_of_look? hp hd
  have hfound := Entry.found_of_fits (t := step.2.macros) hfits
  have hget := h.pass.files p
  rw [if_pos Std.ReflCmp.compare_self] at hget
  refine ⟨fun d' hd' r hr => ?_, fun _ _ _ => ⟨⟨p, step.2.macros⟩, by simp, rfl⟩,
    fun e he hfile r hr => ⟨_, hget, ?_⟩⟩
  · rw [hget] at hd'
    cases hd'
    rcases Draft.mem_or_mem_of_mem_entered hr with hr | hr
    · -- something is remembered before this step only of files that were entered before it
      have hdone : d.isResolved := by
        by_contra hopen
        rw [hfits.unresolved (Bool.eq_false_iff.2 hopen)] at hr
        cases hr
      obtain ⟨e, he, hfind⟩ := hpass.remembered d (Pass.get?_of_isResolved hd hdone) r hr
      exact ⟨e, List.mem_append_left _ he, hfind⟩
    · exact ⟨⟨p, step.2.macros⟩, by simp, rfl, hfound ▸ hr⟩
  · rcases List.mem_append.1 he with he | he
    · obtain ⟨d', hd', u, hu, hsame⟩ := hpass.found e he hfile r hr
      rw [Pass.look?_of_get? hd'] at hd
      cases hd
      exact ⟨u, Draft.resolved_isPrefix_entered.subset hu, hsame⟩
    · rw [List.mem_singleton.1 he, hfound] at hr
      exact hfits.exists_same_of_mem hr

/-- One step adds one entry to the trail. -/
theorem traced_enter (hw : w.Sound c) (hp : p.IsCanonical) (hpass : w.pass.Traced c trail') :
    (w.enter c p).2.pass.Traced c (trail' ++ [⟨p, (w.enter c p).2.macros⟩]) where
  canonical e he := by
    rcases List.mem_append.1 he with he | he
    · exact hpass.canonical e he
    · rw [List.mem_singleton.1 he]
      exact hp
  files q hq := by
    have hold := hpass.files q hq
    -- only what is known of the entered file changes
    by_cases heq : compare q p = .eq
    · obtain rfl := hq.eq_of_compare hp heq
      rcases enter_cases hw hp with ⟨d, hd, h⟩ | ⟨hd, h⟩
      · exact h.tracedAt hw hp hd hold
      · -- nothing is known of a file that cannot be read, before the step and after it
        obtain ⟨e, he⟩ := (Pass.look?_eq_none_iff hw.pass hp).1 hd
        have hget : (w.enter c q).2.pass.files.get? q = none := by
          rw [h.pass.files, Pass.get?_eq_none_of_look? hd]
        refine ⟨fun d hd' => ?_, fun d hd' => ?_, fun e' he' hfile r hr => ?_⟩
        · rw [hget] at hd'
          cases hd'
        · rw [hget] at hd'
          cases hd'
        · obtain ⟨file, macros⟩ := e'
          obtain rfl : file = q := hfile
          rw [Entry.found_of_error he] at hr
          cases hr
    · refine hold.of_ne (fun hfile => ?_) (Explores.get?_enter_of_ne hw hp heq)
      rw [← hfile] at heq
      exact heq Std.ReflCmp.compare_self

/-- What a walk remembers was found on its trail, or before it.  The trail has every file with the
macros that are known once its own are taken in, and the entries of a file are those that are found
with these. -/
theorem traced_run (hw : w.Sound c) (hs : ∀ p ∈ stack, p.IsCanonical)
    (hpass : w.pass.Traced c trail') :
    (run c fuel stack w).pass.Traced c (trail' ++ trail c fuel stack w) := by
  -- the trail before the walk is general, so that each step can be counted to it
  induction fuel generalizing stack w trail' with
  | zero => simpa [run, trail] using hpass
  | succ fuel ih =>
    unfold run trail
    cases hstack : stack.dropWhile w.visited.contains with
    | nil => simpa using hpass
    | cons p rest =>
      have hsub : ∀ q ∈ p :: rest, q.IsCanonical := fun q hq =>
        hs q ((List.dropWhile_suffix _).subset (hstack ▸ hq))
      have hp := hsub p List.mem_cons_self
      have hnext := ih (sound_enter hw hp) (canonical_push hw hsub) (traced_enter hw hp hpass)
      rw [List.append_assoc] at hnext
      exact hnext

end Walk

namespace Pass

variable {c : PassContext} {pass : Pass} {trail' : List Walk.Entry} {source : Path}
  {sources : List Path}

lemma traced_visit (hc : pass.Coherent c) (hs : source.IsCanonical) (h : pass.Traced c trail') :
    (pass.visit c source).Traced c (trail' ++ pass.trail c source) := by
  have hwalk : (Walk.run c (c.reader.budget + 1) [source] (pass.setOut c)).pass.Traced c
      (trail' ++ pass.trail c source) :=
    Walk.traced_run hc.sound_setOut (by simpa using hs) h
  -- that the source is noted as walked leaves the files alone
  exact ⟨hwalk.canonical, fun p hp => ⟨(hwalk.files p hp).remembered, (hwalk.files p hp).entered,
    (hwalk.files p hp).found⟩⟩

/-- What is remembered after the walks from all sources was found on their trails, one after the
other.  Nothing that one walk has found for a file is taken away by another. -/
theorem traced_visitAll (hc : pass.Coherent c) (hs : ∀ s ∈ sources, s.IsCanonical)
    (h : pass.Traced c trail') :
    (pass.visitAll c sources).Traced c (trail' ++ pass.trailAll c sources) := by
  induction sources generalizing pass trail' with
  | nil => simpa [visitAll, trailAll] using h
  | cons s rest ih =>
    have hcanonical : s.IsCanonical := hs s List.mem_cons_self
    have hrest := ih (coherent_visit hc hcanonical) (fun q hq => hs q (List.mem_cons_of_mem _ hq))
      (traced_visit hc hcanonical h)
    rw [List.append_assoc] at hrest
    exact hrest

lemma trailAll_append {sources' : List Path} : pass.trailAll c (sources ++ sources') =
    pass.trailAll c sources ++ (pass.visitAll c sources).trailAll c sources' := by
  induction sources generalizing pass with
  | nil => rfl
  | cons s rest ih =>
    rw [List.cons_append, trailAll, trailAll, ih, List.append_assoc]
    rfl

end Pass

/-! ## Passes that know the same -/

/-- The two passes get the same to see of every file, be it that they have read it already or that
they read it now. -/
def Pass.LooksLike (c : PassContext) (pass pass' : Pass) : Prop :=
  ∀ p, p.IsCanonical → pass'.look? c p = pass.look? c p

namespace Walk

/-- Two walks at the same point, in passes that look alike. -/
structure LooksLike (c : PassContext) (w w' : Walk) : Prop where
  macros : w'.macros = w.macros
  visited : w'.visited = w.visited
  pass : w.pass.LooksLike c w'.pass

variable {c : PassContext} {w w' : Walk} {p : Path} {stack : List Path}

/-- From the same point a step leads to the same files. -/
lemma LooksLike.enter (h : w.LooksLike c w') (hw : w.Sound c) (hw' : w'.Sound c)
    (hp : p.IsCanonical) :
    (w'.enter c p).1 = (w.enter c p).1 ∧ (w.enter c p).2.LooksLike c (w'.enter c p).2 := by
  rcases enter_cases hw hp with ⟨d, hd, hstep⟩ | ⟨hd, hstep⟩
  · have hstep' := enter_of_look? hw' hp ((h.pass p hp).trans hd)
    have hmacros : (w'.enter c p).2.macros = (w.enter c p).2.macros := by
      rw [hstep'.macros, hstep.macros, h.macros]
    have hvisited : (w'.enter c p).2.visited = (w.enter c p).2.visited := by
      rw [hstep'.visited, hstep.visited, h.visited]
    refine ⟨by rw [hstep'.next, hstep.next, hmacros], hmacros, hvisited, fun q hq => ?_⟩
    -- the file is seen with its includes now, and all others as before
    by_cases heq : compare q p = .eq
    · rw [Pass.look?_of_get? (by rw [hstep'.pass.files, if_pos heq]),
        Pass.look?_of_get? (by rw [hstep.pass.files, if_pos heq]), hmacros]
    · calc (w'.enter c p).2.pass.look? c q = w'.pass.look? c q :=
            Pass.look?_congr (by rw [hstep'.pass.files, if_neg heq])
        _ = w.pass.look? c q := h.pass q hq
        _ = (w.enter c p).2.pass.look? c q :=
            (Pass.look?_congr (by rw [hstep.pass.files, if_neg heq])).symm
  · have hstep' := enter_of_error hw' hp ((h.pass p hp).trans hd)
    have hvisited : (w'.enter c p).2.visited = (w.enter c p).2.visited := by
      rw [hstep'.visited, hstep.visited, h.visited]
    refine ⟨by rw [hstep'.next, hstep.next], by rw [hstep'.macros, hstep.macros, h.macros],
      hvisited, fun q hq => ?_⟩
    calc (w'.enter c p).2.pass.look? c q = w'.pass.look? c q :=
          Pass.look?_congr (by rw [hstep'.pass.files])
      _ = w.pass.look? c q := h.pass q hq
      _ = (w.enter c p).2.pass.look? c q := (Pass.look?_congr (by rw [hstep.pass.files])).symm

/-- So whole walks enter the same files, each with the same macros. -/
theorem LooksLike.run (fuel : ℕ) (h : w.LooksLike c w') (hw : w.Sound c) (hw' : w'.Sound c)
    (hs : ∀ p ∈ stack, p.IsCanonical) :
    trail c fuel stack w' = trail c fuel stack w ∧
      (Walk.run c fuel stack w).LooksLike c (Walk.run c fuel stack w') := by
  induction fuel generalizing stack w w' with
  | zero => exact ⟨rfl, h⟩
  | succ fuel ih =>
    unfold trail Walk.run
    rw [h.visited]
    cases hstack : stack.dropWhile w.visited.contains with
    | nil => exact ⟨rfl, h⟩
    | cons p rest =>
      have hsub : ∀ q ∈ p :: rest, q.IsCanonical := fun q hq =>
        hs q ((List.dropWhile_suffix _).subset (hstack ▸ hq))
      have hp := hsub p List.mem_cons_self
      obtain ⟨hnext, hstep⟩ := h.enter hw hw' hp
      obtain ⟨htrail, hrun⟩ :=
        ih hstep (sound_enter hw hp) (sound_enter hw' hp) (canonical_push hw hsub)
      simp only [hnext, hstep.macros]
      exact ⟨congrArg _ htrail, hrun⟩

end Walk

namespace Pass

variable {c : PassContext} {pass pass' : Pass} {source : Path} {sources : List Path}

lemma LooksLike.visit (h : pass.LooksLike c pass') (hc : pass.Coherent c) (hc' : pass'.Coherent c)
    (hs : source.IsCanonical) : pass'.trail c source = pass.trail c source ∧
      (pass.visit c source).LooksLike c (pass'.visit c source) := by
  have hstart : (pass.setOut c).LooksLike c (pass'.setOut c) := ⟨rfl, rfl, h⟩
  have hstack : ∀ q ∈ [source], q.IsCanonical := by simpa using hs
  obtain ⟨htrail, hrun⟩ :=
    hstart.run (c.reader.budget + 1) hc.sound_setOut hc'.sound_setOut hstack
  exact ⟨htrail, hrun.pass⟩

/-- The walks from all sources enter the same files, whatever else has been read before. -/
theorem LooksLike.trailAll_eq (h : pass.LooksLike c pass') (hc : pass.Coherent c)
    (hc' : pass'.Coherent c) (hs : ∀ s ∈ sources, s.IsCanonical) :
    pass'.trailAll c sources = pass.trailAll c sources := by
  induction sources generalizing pass pass' with
  | nil => rfl
  | cons s rest ih =>
    have hcanonical : s.IsCanonical := hs s List.mem_cons_self
    obtain ⟨htrail, hvisit⟩ := h.visit hc hc' hcanonical
    rw [trailAll, trailAll, htrail, ih hvisit (coherent_visit hc hcanonical)
      (coherent_visit hc' hcanonical) fun q hq => hs q (List.mem_cons_of_mem _ hq)]

end Pass

end IncludeDeps
