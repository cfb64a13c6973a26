import IncludeDeps.Proofs.Pass

/-!
# What an analysis asks

An analysis depends on the answers to the questions that it asks, and on nothing else: which of the
files that it looks for are there, and what is read of the files that it tries to read.

* `Pass.HasTried`, and `Pass.probes`, are the questions that a pass has asked;
* `PassContext.AgreesOn`: two contexts give the same answers to the questions of a pass;
* `Walk.enter_eq_of_agreesOn` is about one step, `Walk.Explores.of_agreesOn` about a whole walk, and
  `Analysis.run_eq_of_agreesOn` about an analysis.

Which questions are asked depends on the answers to those before.  So the contexts have to agree on
the questions of one pass, the last one of the first context, and `Pass.Grows` carries it back to
every point before: what was asked up to there has been asked in the end.
-/

namespace IncludeDeps

/-! ## Searching -/

namespace Search

variable {s s' : Search} {dirs : List Path} {target : String} {macros : MacroTable} {file : Path}
  {d : Directives}

lemma probes_cons (s : Search) (dir : Path) (dirs : List Path) (target : String) :
    s.probes (dir :: dirs) target =
      candidate target dir ::
        if s.isFile (candidate target dir) then [] else s.probes dirs target := by
  unfold probes
  cases h : s.isFile (candidate target dir) with
  | true => simp [h]
  | false => simp [h]

lemma find?_cons (s : Search) (dir : Path) (dirs : List Path) (target : String) :
    s.find? (dir :: dirs) target =
      if s.isFile (candidate target dir) then some ⟨candidate target dir, dir⟩
      else s.find? dirs target := by
  unfold find?
  cases h : s.isFile (candidate target dir) with
  | true => simp [h]
  | false => simp [h]

lemma find?_congr (h : ∀ p ∈ s.probes dirs target, s'.isFile p = s.isFile p) :
    s'.find? dirs target = s.find? dirs target ∧ s'.probes dirs target = s.probes dirs target := by
  induction dirs with
  | nil => exact ⟨rfl, rfl⟩
  | cons dir rest ih =>
    rw [probes_cons] at h
    have hfirst := h _ List.mem_cons_self
    rw [find?_cons, find?_cons, probes_cons, probes_cons, hfirst]
    cases hfile : s.isFile (candidate target dir) with
    | true => exact ⟨rfl, rfl⟩
    | false =>
      obtain ⟨hfind, hprobes⟩ := ih fun p hp => h p (by simp [hfile, hp])
      exact ⟨by simp [hfind], by simp [hprobes]⟩

lemma directories_congr (hroots : s'.roots = s.roots) (kind : IncludeKind) :
    s'.directories file kind = s.directories file kind := by
  cases kind with
  | quoted => exact congrArg (file.parent?.toList ++ ·) hroots
  | system => exact hroots
  | computed => exact hroots

/-- What the includes of a file resolve to depends on the files that are looked at. -/
lemma resolveAll_congr (hroots : s'.roots = s.roots)
    (h : ∀ p ∈ s.probesAll macros file d, s'.isFile p = s.isFile p) :
    s'.resolveAll macros file d = s.resolveAll macros file d ∧
      s'.probesAll macros file d = s.probesAll macros file d := by
  have hfind : ∀ i ∈ d.includes, ∀ t ∈ (targets macros i).paths,
      s'.find? (s'.directories file t.1) t.2 = s.find? (s.directories file t.1) t.2 ∧
        s'.probes (s'.directories file t.1) t.2 = s.probes (s.directories file t.1) t.2 := by
    intro i hi t ht
    rw [directories_congr hroots]
    refine find?_congr fun p hp => h p ?_
    exact List.mem_flatMap.2 ⟨i, hi, List.mem_flatMap.2 ⟨t, ht, hp⟩⟩
  have hresolve : ∀ i ∈ d.includes, s'.resolve macros file i = s.resolve macros file i := by
    intro i hi
    unfold resolve
    refine congrArg (· ++ _) (List.map_congr_left fun t ht => ?_)
    exact congrArg (ResolvedInclude.mk i t.2) (hfind i hi t ht).1
  constructor
  · rw [resolveAll, resolveAll, List.flatMap_congr hresolve]
  · refine List.flatMap_congr fun i hi => List.flatMap_congr fun t ht => ?_
    exact (hfind i hi t ht).2

end Search

/-! ## Questions -/

/-- The pass has tried to read the file, with success or without. -/
def Pass.HasTried (pass : Pass) (p : Path) : Prop :=
  pass.files.contains p ∨ pass.unreadable.contains p

/-- The context `c'` gives the answers that `c` gave to a pass. -/
structure PassContext.AgreesOn (c c' : PassContext) (pass : Pass) : Prop where
  settings : c'.settings = c.settings
  draft : ∀ p, p.IsCanonical → pass.HasTried p → c'.draft p = c.draft p
  isFile : ∀ p ∈ pass.probes, c'.reader.isFile p = c.reader.isFile p

namespace Pass

variable {c c' : PassContext} {pass pass' last : Pass} {p : Path}

lemma hasTried_of_get? {d : Draft} (h : pass.files.get? p = some d) : pass.HasTried p := by
  left
  rw [OrderedMap.contains_eq_isSome, h]
  rfl

/-- A pass that goes on asks more: it knows what it knew, and has looked at the files that it had
looked at. -/
structure Grows (pass pass' : Pass) : Prop where
  extends_pass : pass.Extends pass'
  probes : pass.probes ⊆ pass'.probes

lemma Grows.refl (pass : Pass) : pass.Grows pass := ⟨.refl _, List.Subset.refl _⟩

lemma Grows.trans {pass'' : Pass} (h : pass.Grows pass') (h' : pass'.Grows pass'') :
    pass.Grows pass'' :=
  ⟨h.extends_pass.trans h'.extends_pass, List.Subset.trans h.probes h'.probes⟩

lemma Grows.hasTried (h : pass.Grows pass') (hp : p.IsCanonical) (htried : pass.HasTried p) :
    pass'.HasTried p := by
  rcases htried with hfile | hun
  · rw [OrderedMap.contains_eq_isSome] at hfile
    obtain ⟨d, hd⟩ := Option.isSome_iff_exists.1 hfile
    obtain ⟨d', hd', -⟩ := h.extends_pass.files p d hp hd
    exact hasTried_of_get? hd'
  · exact .inr (h.extends_pass.unreadable p hun)

lemma read_eq_of_draft (h : c'.draft p = c.draft p) : pass.read c' p = pass.read c p := by
  rw [read, read, h]

lemma readHeader_eq_of_draft (h : c'.draft p = c.draft p) :
    pass.readHeader c' p = pass.readHeader c p := by
  rw [readHeader, readHeader, read_eq_of_draft h]

@[simp] lemma probes_read (c : PassContext) (pass : Pass) (p : Path) :
    (pass.read c p).2.probes = pass.probes := by
  unfold read
  split
  · rfl
  · simp only
    split
    · rfl
    · rfl

@[simp] lemma probes_readHeader (c : PassContext) (pass : Pass) (p : Path) :
    (pass.readHeader c p).2.probes = pass.probes := by
  unfold readHeader
  split
  · rfl
  · have hread := probes_read c pass p
    split
    · next h =>
      rw [h] at hread
      exact hread
    · next h =>
      rw [h] at hread
      exact hread

end Pass

/-! ## Walks -/

namespace Walk

variable {c c' : PassContext} {w w' : Walk} {p : Path} {stack : List Path} {last : Pass}

/-- The files that a step looks for are remembered. -/
lemma probes_enter (c : PassContext) (w : Walk) (p : Path) :
    w.pass.probes ⊆ (w.enter c p).2.pass.probes := by
  have hread := Pass.probes_readHeader c w.pass p
  unfold enter
  simp only
  split
  · next h =>
    rw [h] at hread
    rw [hread]
    exact List.Subset.refl _
  · next h =>
    rw [h] at hread
    split
    · rw [hread]
      exact List.Subset.refl _
    · rw [hread]
      exact List.subset_append_left _ _

lemma grows_enter (hw : w.Sound c) (hp : p.IsCanonical) :
    w.pass.Grows (w.enter c p).2.pass :=
  ⟨extends_enter hw hp, probes_enter c w p⟩

lemma Explores.grows (h : Explores c stack w w') (hw : w.Sound c)
    (hs : ∀ p ∈ stack, p.IsCanonical) : w.pass.Grows w'.pass :=
  (h.preserves (P := fun v => w.pass.Grows v.pass)
    (fun _ _ hv hp _ hgrows => hgrows.trans (grows_enter hv hp)) hw hs (.refl _)).2

lemma hasTried_enter (hw : w.Sound c) (hp : p.IsCanonical) :
    (w.enter c p).2.pass.HasTried p := by
  have hself : compare p p = .eq := Std.ReflCmp.compare_self
  rcases enter_cases hw hp with ⟨d, -, h⟩ | ⟨-, h⟩
  · exact Pass.hasTried_of_get? (by rw [h.pass.files, if_pos hself])
  · exact .inr ((h.pass.unreadable p).2 (.inl hself))

/-- A step is the same in two contexts that answer its questions in the same way. -/
lemma enter_eq_of_agreesOn (h : c.AgreesOn c' last) (hw : w.Sound c) (hp : p.IsCanonical)
    (hlast : (w.enter c p).2.pass.Grows last) : w.enter c' p = w.enter c p := by
  have hdraft := h.draft p hp (hlast.hasTried hp (hasTried_enter hw hp))
  have hroots : c'.search.roots = c.search.roots := congrArg Settings.roots h.settings
  have hfile : ∀ q ∈ (w.enter c p).2.pass.probes, c'.search.isFile q = c.search.isFile q :=
    fun q hq => h.isFile q (hlast.probes hq)
  revert hfile
  unfold enter
  simp only
  rw [Pass.readHeader_eq_of_draft hdraft]
  split
  · exact fun _ => rfl
  · split
    · exact fun _ => rfl
    · intro hfile
      obtain ⟨hresolve, hprobes⟩ := Search.resolveAll_congr hroots
        fun q hq => hfile q (List.mem_append_right _ hq)
      rw [hresolve, hprobes]

/-- So is a whole walk.  Both contexts have to agree only on the files that the walk has looked at,
and these are fixed by the pass that comes out in the end. -/
theorem Explores.of_agreesOn (hwalk : Explores c stack w w') (h : c.AgreesOn c' last)
    (hw : w.Sound c) (hs : ∀ p ∈ stack, p.IsCanonical) (hlast : w'.pass.Grows last) :
    Explores c' stack w w' := by
  induction hwalk with
  | done w => exact .done w
  | skip hp _ ih => exact .skip hp (ih hw (fun q hq => hs q (List.mem_cons_of_mem _ hq)) hlast)
  | @enter p rest w w' hp hrest ih =>
    have hcanonical : p.IsCanonical := hs p List.mem_cons_self
    have hsound := sound_enter hw hcanonical
    have hpush := canonical_push hw hs
    have henter := enter_eq_of_agreesOn h hw hcanonical ((hrest.grows hsound hpush).trans hlast)
    refine .enter hp ?_
    rw [henter]
    exact ih hsound hpush hlast

end Walk

/-! ## Passes -/

namespace Pass

variable {c c' : PassContext} {pass pass' last : Pass} {p source : Path} {sources : List Path}

lemma grows_visit (hc : pass.Coherent c) (hs : source.IsCanonical) :
    pass.Grows (pass.visit c source) := by
  obtain ⟨w, hw, heq⟩ := visit_eq hc hs
  refine ⟨extends_visit hc hs, ?_⟩
  rw [heq]
  exact (hw.grows hc.sound_setOut (by simpa using hs)).probes

lemma grows_visitAll (hc : pass.Coherent c) (hs : ∀ s ∈ sources, s.IsCanonical) :
    pass.Grows (pass.visitAll c sources) := by
  induction sources generalizing pass with
  | nil => exact .refl _
  | cons s rest ih =>
    have hcanonical : s.IsCanonical := hs s List.mem_cons_self
    exact (grows_visit hc hcanonical).trans
      (ih (coherent_visit hc hcanonical) fun q hq => hs q (List.mem_cons_of_mem _ hq))

lemma visit_eq_of_agreesOn (h : c.AgreesOn c' last) (hc : pass.Coherent c)
    (hc' : pass.Coherent c') (hs : source.IsCanonical) (hlast : (pass.visit c source).Grows last) :
    pass.visit c' source = pass.visit c source := by
  obtain ⟨w, hw, heq⟩ := visit_eq hc hs
  obtain ⟨w', hw', heq'⟩ := visit_eq hc' hs
  have hgrows : w.pass.Grows last := by
    rw [heq] at hlast
    obtain ⟨⟨hfiles, hun, hflag⟩, hprobes⟩ := hlast
    exact ⟨⟨hfiles, hun, hflag⟩, hprobes⟩
  have hsame := hw.of_agreesOn h hc.sound_setOut (by simpa using hs) hgrows
  have hstart : pass.setOut c' = pass.setOut c := by rw [setOut, setOut, h.settings]
  rw [hstart] at hw'
  rw [heq, heq', hw'.unique hsame]

lemma visitAll_eq_of_agreesOn (h : c.AgreesOn c' last) (hc : pass.Coherent c)
    (hc' : pass.Coherent c') (hs : ∀ s ∈ sources, s.IsCanonical)
    (hlast : (pass.visitAll c sources).Grows last) :
    pass.visitAll c' sources = pass.visitAll c sources := by
  induction sources generalizing pass with
  | nil => rfl
  | cons s rest ih =>
    have hcanonical : s.IsCanonical := hs s List.mem_cons_self
    have hrest : ∀ q ∈ rest, q.IsCanonical := fun q hq => hs q (List.mem_cons_of_mem _ hq)
    have hcoherent := coherent_visit hc hcanonical
    have hvisit := visit_eq_of_agreesOn h hc hc' hcanonical
      ((grows_visitAll hcoherent hrest).trans hlast)
    have hcoherent' := coherent_visit hc' hcanonical
    rw [hvisit] at hcoherent'
    show (pass.visit c' s).visitAll c' rest = _
    rw [hvisit]
    exact ih hcoherent hcoherent' hrest hlast

lemma readSources_eq_of_draft (h : ∀ s ∈ sources, c'.draft s = c.draft s) :
    pass.readSources c' sources = pass.readSources c sources := by
  induction sources generalizing pass with
  | nil => rfl
  | cons s rest ih =>
    unfold readSources
    rw [read_eq_of_draft (h s List.mem_cons_self)]
    split
    · exact ih fun q hq => h q (List.mem_cons_of_mem _ hq)
    · rfl

end Pass

namespace Analysis

variable {c c' : PassContext} {sources : OrderedSet Path} {last : Pass} {a : Analysis}

/-- An analysis that succeeds is the same in every context that answers its questions in the same
way, but for the comparison with the previous state. -/
theorem run_eq_of_agreesOn (hs : ∀ s ∈ sources.toList, s.IsCanonical)
    (hrun : run c sources = (.ok a, last)) (h : c.AgreesOn c' last) :
    run c' sources = (.ok (ofPass c' sources last), last) := by
  obtain ⟨pass, hpass, hpasses⟩ := PassContext.passes_of_run hs hrun
  have hlast : pass.Grows last := by
    rw [hpasses.last_eq]
    exact Pass.grows_visitAll hpasses.opened.coherent hs
  -- a source that was read was tried, so both contexts agree on it
  have hdraft : ∀ s ∈ sources.toList, c'.draft s = c.draft s := by
    intro s hmem
    obtain ⟨d, hd⟩ := hpasses.readable s hmem
    have hget := (hpasses.opened.files s d (hs s hmem)).2 ⟨hmem, hd⟩
    exact h.draft s (hs s hmem) (hlast.hasTried (hs s hmem) (Pass.hasTried_of_get? hget))
  have hread : ∀ s ∈ sources.toList, ∃ d, c'.draft s = .ok d := by
    intro s hmem
    rw [hdraft s hmem]
    exact hpasses.readable s hmem
  obtain ⟨pass', hpass', hopened', heq⟩ := run_eq_of_readable hs hread
  rw [Pass.readSources_eq_of_draft hdraft, hpass] at hpass'
  cases hpass'
  -- both begin with the same pass, and every walk asks only what has been asked by the end of the
  -- first analysis
  have hvisit := Pass.visitAll_eq_of_agreesOn h hpasses.opened.coherent hopened'.coherent hs
    (by rw [← hpasses.last_eq]; exact .refl _)
  rw [heq, hvisit, ← hpasses.last_eq]

end Analysis

end IncludeDeps
