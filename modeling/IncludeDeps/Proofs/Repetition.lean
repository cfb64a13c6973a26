import IncludeDeps.Proofs.Incremental
import IncludeDeps.Proofs.Locality
import IncludeDeps.Proofs.Lookup
import IncludeDeps.Proofs.Run

/-!
# Analyses again

An analysis against the state that one of the same sources has just left, on the same files.

The second analysis asks the questions of the first one, and gets the same answers: what is known of
a file that could be read is what was read of it, and the lookups that are remembered are those that
would be made (`Lookup.isFile_rememberAll`, `PassContext.Repeats.agreesOn`).  So its state is the
same, and `RunM.analyse_again` tells that nothing has changed but for headers that cannot be read.

The first analysis may have been against any state, and that state may be mistaken about what files
say: what is told is that the second one does not come to anything else.  Headers that cannot be
read make the difference, as nothing is remembered of them (`PassContext.IsCut`).
-/

namespace IncludeDeps

/-! ## Reading again -/

namespace PassContext

variable {c c' : PassContext} {sources : OrderedSet Path} {pass last : Pass} {p q s : Path}
  {a : Analysis} {d : Draft}

lemma draft_of_known {digest : Digest} {directives : Directives}
    (hdigest : c.reader.digest p = .ok digest)
    (hknown : c.knownDirectives? p digest = some directives) :
    c.draft p = .ok ⟨digest, directives, [], false⟩ := by
  rw [draft, hdigest]
  simp only [bind, Except.bind, hknown]
  rfl

/-- A file that cannot be read cannot be read where nothing is known of it either. -/
lemma draft_eq_error {e : Fault} (h : c.draft p = .error e)
    (hdigest : c'.reader.digest p = c.reader.digest p)
    (hcontent : c'.reader.content p = c.reader.content p)
    (hknown : ∀ digest, c'.knownDirectives? p digest = none) : c'.draft p = .error e := by
  unfold draft at h ⊢
  rw [hdigest]
  cases hd : c.reader.digest p with
  | error e' =>
    rw [hd] at h
    exact h
  | ok digest =>
    rw [hd] at h
    simp only [bind, Except.bind, hknown] at h ⊢
    split at h
    · cases h
    · rw [hcontent]
      cases hx : c.reader.content p with
      | error e' =>
        rw [hx] at h
        exact h
      | ok x =>
        rw [hx] at h
        cases h

/-- The context `c'` is `c` after an analysis, with its state in the place of the one before. -/
structure Repeats (c c' : PassContext) (a : Analysis) : Prop where
  isFile : ∀ p, c'.reader.isFile p = c.reader.isFile p
  digest : c'.reader.digest = c.reader.digest
  content : c'.reader.content = c.reader.content
  settings : c'.settings = c.settings
  previous : c'.previous = a.state

/-- What was read is what is known. -/
lemma Repeats.draft_of_get? (h : c.Repeats c' a) (hpasses : c.Passes sources pass last a)
    (hp : p.IsCanonical) (hd : last.files.get? p = some d) : c'.draft p = c.draft p := by
  have hfresh := (hpasses.coherent.fits hp hd).fresh
  have hdigest : c'.reader.digest p = .ok d.digest := by
    rw [h.digest]
    exact digest_of_draft (d := d.fresh) hfresh
  have hsnapshot : c'.previous.snapshot? p = some (d.snapshot p) := by
    rw [h.previous, hpasses.snapshot?_eq hp, hd]
    rfl
  -- the state was left under the same settings, so what it knows may be used
  have hreuse : c'.reusesPrevious = true := by
    rw [reusesPrevious, h.previous, h.settings, hpasses.outcome]
    exact decide_eq_true rfl
  have hknown : c'.knownDirectives? p d.digest = some d.directives := by
    rw [knownDirectives?, hsnapshot]
    simp [hreuse, Draft.snapshot]
  rw [draft_of_known hdigest hknown, hfresh]
  rfl

/-- What could not be read cannot be read. -/
lemma Repeats.draft_of_unreadable (h : c.Repeats c' a) (hpasses : c.Passes sources pass last a)
    (hp : p.IsCanonical) (hun : last.unreadable.contains p) : c'.draft p = c.draft p := by
  obtain ⟨e, he⟩ := hpasses.coherent.draft_of_unreadable hp hun
  have hfiles : last.files.get? p = none :=
    Pass.get?_eq_none_of_look? ((Pass.look?_eq_none_iff hpasses.coherent hp).2 ⟨e, he⟩)
  have hsnapshot : c'.previous.snapshot? p = none := by
    rw [h.previous, hpasses.snapshot?_eq hp, hfiles]
    rfl
  rw [he]
  refine draft_eq_error he (congrFun h.digest p) (congrFun h.content p) fun digest => ?_
  rw [knownDirectives?, hsnapshot]

lemma Repeats.agreesOn (h : c.Repeats c' a) (hpasses : c.Passes sources pass last a) :
    c.AgreesOn c' last where
  settings := h.settings
  draft p hp htried := by
    rcases htried with hfile | hun
    · rw [OrderedMap.contains_eq_isSome] at hfile
      obtain ⟨d, hd⟩ := Option.isSome_iff_exists.1 hfile
      exact h.draft_of_get? hpasses hp hd
    · exact h.draft_of_unreadable hpasses hp hun
  isFile p _ := h.isFile p

/-! ## What is compiled again -/

/-- On the walk from the source `s` the file `q` is entered. -/
def Reaches (c : PassContext) (sources : OrderedSet Path) (s q : Path) : Prop :=
  ∃ l, (Analysis.run c sources).2.reachable.get? s = some l ∧ q ∈ l.toList

/-- On the walk from the source `s` a file is entered that cannot be read. -/
def IsCut (c : PassContext) (sources : OrderedSet Path) (s : Path) : Prop :=
  ∃ q, c.Reaches sources s q ∧ ∃ e, c.draft q = .error e

lemma Passes.exists_reachable (h : c.Passes sources pass last a) (hs : s ∈ sources.toList) :
    ∃ l, last.reachable.get? s = some l ∧ ∀ q ∈ l.toList, q.IsCanonical ∧ last.IsDone c q := by
  obtain ⟨before, after, hsplit⟩ := List.append_of_mem hs
  obtain ⟨v, hv, hextends, hreach⟩ := h.exists_walk hsplit
  have hbefore : ∀ s ∈ before, s.IsCanonical := fun s hs => h.canonical s (by simp [hsplit, hs])
  have hsound := (Pass.coherent_visitAll h.opened.coherent hbefore).sound_setOut
  have hstack : ∀ q ∈ [s], q.IsCanonical := by simpa using h.canonical s hs
  refine ⟨v.visited, hreach, fun q hq => ?_⟩
  have hcanonical := (hv.sound hsound hstack).visited q hq
  have hdone := hv.isDone hsound hstack rfl hcanonical (OrderedSet.contains_of_mem hq)
  exact ⟨hcanonical, hextends.isDone hcanonical hdone⟩

/-- Against the state that a pass has left, its files have changed if they cannot be read. -/
lemma Passes.hasChanged_iff (h : c.Passes sources pass last a) (hq : q.IsCanonical)
    (hdone : last.IsDone c q) : last.hasChanged a.state q ↔ ∃ e, c.draft q = .error e := by
  unfold Pass.hasChanged
  rcases hdone with ⟨d, hd, -⟩ | ⟨he, hun⟩
  · have hfresh := (h.coherent.fits hq hd).fresh
    have hun := h.coherent.not_unreadable hq hfresh
    rw [h.snapshot?_eq hq, hd, hun, hfresh]
    simp [Draft.snapshot, ResolvedInclude.sameAll_self]
  · rw [hun]
    simpa using he

lemma Repeats.findings_eq (h : c.Repeats c' a) (hpasses : c.Passes sources pass last a) :
    (Analysis.ofPass c' sources last).findings = a.findings := by
  rw [hpasses.outcome]
  unfold Analysis.findings Analysis.ofPass
  rw [h.settings]

lemma Repeats.removed_eq (h : c.Repeats c' a) (hpasses : c.Passes sources pass last a) :
    (Analysis.ofPass c' sources last).removed = ∅ := by
  apply OrderedSet.ext
  show c'.previous.sources.toList.filter _ = []
  rw [h.previous, hpasses.sources_eq, List.filter_eq_nil_iff]
  intro p hp
  simpa using OrderedSet.contains_of_mem hp

/-- Against the state that a pass has left, those sources are compiled again from which the walk
comes to a file that cannot be read. -/
lemma Repeats.mem_recompile (h : c.Repeats c' a) (hpasses : c.Passes sources pass last a)
    (hlast : (Analysis.run c sources).2 = last) :
    s ∈ (Analysis.ofPass c' sources last).recompile.toList ↔
      s ∈ a.state.sources.toList ∧ c.IsCut a.state.sources s := by
  rw [hpasses.sources_eq]
  refine List.mem_filter.trans (and_congr_right fun hs => ?_)
  have hsettings : (c'.previous.settings != some c'.settings.fingerprint) = false := by
    rw [h.previous, h.settings, hpasses.outcome]
    exact bne_self_eq_false _
  -- neither the settings nor being a new source is a reason to compile again; only the walk is
  -- left
  have hsource : c'.previous.isSource s = true := by
    rw [h.previous, TaskState.isSource, hpasses.sources_eq]
    exact OrderedSet.contains_of_mem hs
  obtain ⟨l, hl, hreached⟩ := hpasses.exists_reachable hs
  rw [hsettings, hsource, hl, h.previous, IsCut]
  simp only [Bool.not_true, Bool.false_or, Bool.or_self, List.any_eq_true, Reaches, hlast, hl,
    Option.some.injEq, exists_eq_left']
  refine exists_congr fun q => and_congr_right fun hq => ?_
  exact hpasses.hasChanged_iff (hreached q hq).1 (hreached q hq).2

end PassContext

lemma Analysis.isUpToDate_iff {a : Analysis} :
    a.isUpToDate ↔ (∀ s, s ∉ a.recompile.toList) ∧ a.removed.toList = [] := by
  rw [isUpToDate, Bool.and_eq_true, OrderedSet.isEmpty, OrderedSet.isEmpty, List.isEmpty_iff,
    List.isEmpty_iff, List.eq_nil_iff_forall_not_mem]

namespace RunM

variable {settings : Settings} {hasher : Hasher} {previous : TaskState} {sources : List Path}
  {r r' : Run} {a : Analysis}

/-- An analysis against the state that one of the same sources has left, whatever that one was
against, finds out the same; nothing is gone, and a source is compiled again if and only if the walk
from it comes to a file that cannot be read. -/
theorem analyse_again (h : (analyse settings hasher previous sources).run.run r = (.ok a, r')) :
    ∃ a' r'', (analyse settings hasher a.state sources).run.run r' = (.ok a', r'') ∧
      a'.findings = a.findings ∧ a'.removed = ∅ ∧
      (∀ s, s ∈ a'.recompile.toList ↔ s ∈ a.state.sources.toList ∧
        (r.context settings hasher previous).IsCut a.state.sources s) ∧
      (a'.isUpToDate ↔ ∀ s ∈ a.state.sources.toList,
        ¬ (r.context settings hasher previous).IsCut a.state.sources s) := by
  obtain ⟨l, pass, last, habsolute, hrun, hpasses, hfiles, hlookup⟩ := passes_of_analyse h
  have hrepeats :
      (r.context settings hasher previous).Repeats (r'.context settings hasher a.state) a := by
    refine ⟨fun p => ?_, congrArg hasher hfiles, congrArg Workspace.read hfiles, rfl, rfl⟩
    show r'.lookup.isFile r'.files p = r.lookup.isFile r.files p
    rw [hfiles, hlookup, Lookup.isFile_rememberAll]
  have hrun' := Analysis.run_eq_of_agreesOn hpasses.canonical hrun (hrepeats.agreesOn hpasses)
  obtain ⟨phases, heq⟩ := analyse_run (by rw [hfiles]; exact habsolute) hrun'
  have hrecompile := fun s => hrepeats.mem_recompile (s := s) hpasses (by rw [hrun])
  refine ⟨_, _, heq, hrepeats.findings_eq hpasses, hrepeats.removed_eq hpasses, hrecompile, ?_⟩
  rw [Analysis.isUpToDate_iff, hrepeats.removed_eq hpasses]
  simp only [hrecompile, not_and]
  exact and_iff_left rfl

/-- A source with a header of which a state knows an include that it does not have. -/
def misled : Run where
  files := Workspace.ofTexts "p" [("a.c", "#include \"b.h\"\n"), ("b.h", ""), ("c.h", "")]

/-- The state that knows it. -/
def mistaken : TaskState where
  sources := ∅
  files := .ofList [(⟨"/p/b.h"⟩,
    ⟨⟨"/p/b.h"⟩, .ofBytes [], ⟨[⟨.quoted, "c.h", false, none⟩], []⟩, []⟩)]
  settings := some (Settings.fingerprint ⟨[], true, ∅⟩)

theorem analyse_again_misled : ∃ a r' a' r'',
    (analyse ⟨[], true, ∅⟩ contentHasher mistaken [⟨"a.c"⟩]).run.run misled = (.ok a, r') ∧
      a.state.files.keys = [⟨"/p/a.c"⟩, ⟨"/p/b.h"⟩, ⟨"/p/c.h"⟩] ∧
      (analyse ⟨[], true, ∅⟩ contentHasher a.state [⟨"a.c"⟩]).run.run r' = (.ok a', r'') ∧
      a'.findings = a.findings ∧ a'.removed = ∅ := by
  have hrun := Except.prod_eq_ok_get (x := (analyse ⟨[], true, ∅⟩ contentHasher mistaken
    [⟨"a.c"⟩]).run.run misled) (by decide +kernel)
  obtain ⟨a', r'', hrun', hfindings, hremoved, -⟩ := analyse_again hrun
  exact ⟨_, _, a', r'', hrun, by decide +kernel, hrun', hfindings, hremoved⟩

end RunM

end IncludeDeps
