import IncludeDeps.Proofs.Coverage
import IncludeDeps.Proofs.Detection
import IncludeDeps.Proofs.Repetition

/-!
# Analyses of other sources

An analysis against the state that one of other sources has just left, on the same files.

Everything that both analyses know of a file is the same, except for what became of the includes of
a file with an include that has to be expanded: that is put together from all the walks on which the
file was entered, and so depends on the sources (`TaskState.ExpandsAnew`).  A source of both
analyses leads to the same files in the second one as in the first, up to the first file that
differs; so it is compiled again if and only if its walk comes to such a file, or to one that cannot
be read (`PassContext.Repeats.mem_recompile_iff_reaches`).  Beyond that, exactly the new sources are
compiled, and exactly the missing ones are removed (`RunM.analyse_regrouped`).
-/

namespace IncludeDeps

/-- Both states know the file, it has an include that has to be expanded, and what became of its
includes is not the same. -/
def TaskState.ExpandsAnew (before after : TaskState) (p : Path) : Prop :=
  ∃ f f', before.snapshot? p = some f ∧ after.snapshot? p = some f' ∧
    f'.directives.hasComputedIncludes ∧ ¬ ResolvedInclude.sameAll f.resolved f'.resolved

/-! ## Includes that became the same -/

namespace ResolvedInclude

/-- Includes that became the same were found in the same file, where paths are canonical. -/
lemma file_eq_of_same {r t : ResolvedInclude} (h : r.same t) (hr : ∀ q ∈ r.file?, q.IsCanonical)
    (ht : ∀ q ∈ t.file?, q.IsCanonical) : r.file? = t.file? := by
  cases hfile : r.file? with
  | some p =>
    obtain ⟨q, hq, hcompare⟩ := compare_file_of_same h hfile
    rw [hq, (hr p hfile).eq_of_compare (ht q hq) hcompare]
  | none =>
    have hlocation : r.location = none := by simpa [file?] using hfile
    unfold same at h
    rw [hlocation] at h
    cases htlocation : t.location with
    | none => simp [file?, htlocation]
    | some m => simp [htlocation] at h

lemma filterMap_file_eq_of_sameAll {l m : List ResolvedInclude} (h : sameAll l m)
    (hl : ∀ r ∈ l, ∀ q ∈ r.file?, q.IsCanonical) (hm : ∀ r ∈ m, ∀ q ∈ r.file?, q.IsCanonical) :
    l.filterMap file? = m.filterMap file? := by
  induction l generalizing m with
  | nil =>
    cases m with
    | nil => rfl
    | cons u m => cases h
  | cons r l ih =>
    cases m with
    | nil => cases h
    | cons u m =>
      rw [sameAll, Bool.and_eq_true] at h
      have hhead := file_eq_of_same h.1 (hl r List.mem_cons_self) (hm u List.mem_cons_self)
      have htail := ih h.2 (fun t ht => hl t (List.mem_cons_of_mem _ ht))
        (fun t ht => hm t (List.mem_cons_of_mem _ ht))
      rw [List.filterMap_cons, List.filterMap_cons, hhead, htail]

end ResolvedInclude

lemma Draft.next_eq_of_sameAll {c c' : PassContext} {p p' : Path} {d d' : Draft} (hd : d.Fits c p)
    (hd' : d'.Fits c' p') (h : ResolvedInclude.sameAll d.resolved d'.resolved) :
    d.next = d'.next := by
  apply ResolvedInclude.filterMap_file_eq_of_sameAll h
  · exact fun r hr q hq => (hd.files q (List.mem_filterMap.2 ⟨r, hr, hq⟩)).1
  · exact fun r hr q hq => (hd'.files q (List.mem_filterMap.2 ⟨r, hr, hq⟩)).1

namespace PassContext

variable {c c' : PassContext} {sources sources' l : OrderedSet Path} {pass last pass' last' : Pass}
  {a a' : Analysis} {d d' : Draft} {p q s : Path}

/-! ## What a walk has entered -/

/-- A walk goes on from its source within the files that it enters. -/
lemma Passes.reaches_within (h : c.Passes sources pass last a) (hs : s ∈ sources.toList)
    (hl : last.reachable.get? s = some l) : s ∈ l.toList ∧ ∀ q ∈ l.toList,
      Relation.ReflTransGen (fun p q => (p ∈ l.toList ∧ q ∈ l.toList) ∧ last.Leads p q) s q := by
  obtain ⟨before, after, hsplit⟩ := List.append_of_mem hs
  obtain ⟨v, hv, hextends, hreach⟩ := h.exists_walk hsplit
  rw [hl] at hreach
  cases hreach
  have hbefore : ∀ s ∈ before, s.IsCanonical := fun s hs => h.canonical s (by simp [hsplit, hs])
  have hsound := (Pass.coherent_visitAll h.opened.coherent hbefore).sound_setOut
  have hcanonical := h.canonical s hs
  have hstack : ∀ q ∈ [s], q.IsCanonical := by simpa using hcanonical
  have hentered := (hv.sound hsound hstack).visited
  have hmem : ∀ {q}, q.IsCanonical → v.visited.contains q → q ∈ v.visited.toList := by
    intro q hq hin
    exact (OrderedSet.mem_iff_of_canonical hentered hq).2 hin
  -- what is entered is on a path from the source that stays within what is entered
  have hsource : s ∈ v.visited.toList := hmem hcanonical (hv.visited_of_mem List.mem_cons_self)
  refine ⟨hsource, fun q hq => ?_⟩
  obtain ⟨s', hs', hpath⟩ := (hv.reached hsound hstack (hentered q hq)
    (OrderedSet.contains_of_mem hq)).resolve_left fun hstart => nomatch hstart
  rw [List.mem_singleton.1 hs'] at hpath
  refine (reflTransGen_on (P := fun p => p ∈ v.visited.toList) ?_ hsource hpath).2
  intro p q hp hleads
  have hpcanonical := hentered p hp
  have hleads' := hextends.leads hpcanonical hleads
  have hqcanonical := h.coherent.canonical_of_leads hpcanonical hleads'
  have hin := hv.closed hsound hstack hpcanonical (OrderedSet.contains_of_mem hp) rfl hleads
  exact ⟨hmem hqcanonical hin, ⟨hp, hmem hqcanonical hin⟩, hleads'⟩

/-- What a closed pass leads to from a file that it is done with, it is done with. -/
lemma Passes.isDone_of_reaches (h : c.Passes sources pass last a) (hp : p.IsCanonical)
    (hdone : last.IsDone c p) (hpath : Relation.ReflTransGen last.Leads p q) :
    q.IsCanonical ∧ last.IsDone c q := by
  induction hpath with
  | refl => exact ⟨hp, hdone⟩
  | @tail p' q _ hlast ih =>
    exact ⟨h.coherent.canonical_of_leads ih.1 hlast, h.isClosed.1 p' q ih.1 hlast⟩

/-! ## Comparing the two passes -/

namespace Repeats

lemma search_eq (h : c.Repeats c' a) : c'.search = c.search := by
  rw [search, search, h.settings, funext h.isFile]

/-- Of a file that it was done with before, the second pass knows nothing else but what became of
its includes. -/
lemma fresh_eq (h : c.Repeats c' a) (hpasses : c.Passes sources pass last a)
    (hpasses' : c'.Passes sources' pass' last' a') (hp : p.IsCanonical)
    (hd : last.files.get? p = some d) (hd' : last'.files.get? p = some d') :
    d'.fresh = d.fresh := by
  have hfresh := (hpasses.coherent.fits hp hd).fresh
  have hfresh' := (hpasses'.coherent.fits hp hd').fresh
  rw [h.draft_of_get? hpasses hp hd, hfresh] at hfresh'
  exact (Except.ok.inj hfresh').symm

/-- Without includes that have to be expanded, it knows the same of these. -/
lemma resolved_eq (h : c.Repeats c' a) (hd : d.Fits c p) (hd' : d'.Fits c' p)
    (hdone : d.isResolved) (hdone' : d'.isResolved) (hfresh : d'.fresh = d.fresh)
    (hliteral : d'.directives.hasComputedIncludes = false) : d'.resolved = d.resolved := by
  have hdirectives : d'.directives = d.directives := by
    rw [← Draft.directives_fresh, hfresh, Draft.directives_fresh]
  rw [hd'.literal hdone' hliteral, hd.literal hdone (hdirectives ▸ hliteral), hdirectives,
    h.search_eq]

/-- What is found out about a file with which both passes are done. -/
lemma hasChanged_iff (h : c.Repeats c' a) (hpasses : c.Passes sources pass last a)
    (hpasses' : c'.Passes sources' pass' last' a') (hp : p.IsCanonical)
    (hdone : last.IsDone c p) (hdone' : last'.IsDone c' p) :
    last'.hasChanged a.state p ↔ (∃ e, c'.draft p = .error e) ∨ a.state.ExpandsAnew a'.state p := by
  unfold Pass.hasChanged TaskState.ExpandsAnew
  rw [hpasses.snapshot?_eq hp, hpasses'.snapshot?_eq hp]
  rcases hdone' with ⟨d', hd', hresolved'⟩ | ⟨he, hun⟩
  · have hfits' := hpasses'.coherent.fits hp hd'
    have hreadable := hpasses'.coherent.not_unreadable hp hfits'.fresh
    rcases hdone with ⟨d, hd, hresolved⟩ | ⟨⟨e, he⟩, hun⟩
    · have hfits := hpasses.coherent.fits hp hd
      -- the bytes are the same, so only what the includes became can have changed, and that only
      -- if they are expressions
      have hfresh := h.fresh_eq hpasses hpasses' hp hd hd'
      have hdigest : d'.digest = d.digest := by
        rw [← Draft.digest_fresh, hfresh, Draft.digest_fresh]
      rw [hreadable, hd, hd', hfits'.fresh]
      cases hliteral : d'.directives.hasComputedIncludes with
      | true => simp [Draft.snapshot, hdigest, hliteral]
      | false =>
        have heq := h.resolved_eq hfits hfits' hresolved hresolved' hfresh hliteral
        simp [Draft.snapshot, hdigest, hliteral, heq, ResolvedInclude.sameAll_self]
    · -- a file that one pass can read is not unreadable for the other one
      have hfresh' := hfits'.fresh
      rw [h.draft_of_unreadable hpasses hp hun, he] at hfresh'
      cases hfresh'
  · rw [hun]
    simpa using .inl he

lemma hasChanged_of_expandsAnew (hpasses' : c'.Passes sources' pass' last' a')
    (hp : p.IsCanonical) (h : a.state.ExpandsAnew a'.state p) : last'.hasChanged a.state p := by
  obtain ⟨f, f', hf, hf', -, hdiffer⟩ := h
  rw [hpasses'.snapshot?_eq hp] at hf'
  obtain ⟨d', hd', rfl⟩ := Option.map_eq_some_iff.1 hf'
  have hsame : ResolvedInclude.sameAll f.resolved d'.resolved = false :=
    Bool.eq_false_iff.2 hdiffer
  simp [Pass.hasChanged, hf, hd', hsame]

/-- A file that has not changed leads to the files that it led to. -/
lemma leads_of_unchanged (hpasses : c.Passes sources pass last a)
    (hpasses' : c'.Passes sources' pass' last' a') (hp : p.IsCanonical)
    (hunchanged : ¬ last'.hasChanged a.state p) (h : last'.Leads p q) : last.Leads p q := by
  obtain ⟨d', hd', hq⟩ := h
  unfold Pass.hasChanged at hunchanged
  rw [hpasses.snapshot?_eq hp, hd'] at hunchanged
  cases hd : last.files.get? p with
  | none => simp [hd] at hunchanged
  | some d =>
    simp only [hd, Option.map_some, Draft.snapshot, Bool.or_eq_true, not_or] at hunchanged
    have hsame : ResolvedInclude.sameAll d.resolved d'.resolved := by simpa using hunchanged.2.2
    refine ⟨d, hd, ?_⟩
    have hfits := hpasses.coherent.fits hp hd
    have hfits' := hpasses'.coherent.fits hp hd'
    rw [Draft.next_eq_of_sameAll hfits hfits' hsame]
    exact hq

/-- On the walk from a source of both passes there is a file that has changed, if and only if there
is one that cannot be read or is resolved anew.  Before the first change the walk is on files with
which the first pass was done; after it the second walk may go where the first pass never was, and
then nothing has to be told about those files. -/
lemma exists_hasChanged_iff (h : c.Repeats c' a) (hpasses : c.Passes sources pass last a)
    (hpasses' : c'.Passes sources' pass' last' a') (hs : s ∈ sources.toList)
    (hs' : s ∈ sources'.toList) (hl : last'.reachable.get? s = some l) :
    (∃ q ∈ l.toList, last'.hasChanged a.state q) ↔
      ∃ q ∈ l.toList, (∃ e, c'.draft q = .error e) ∨ a.state.ExpandsAnew a'.state q := by
  obtain ⟨l₁, hl₁, hentered₁⟩ := hpasses.exists_reachable hs
  have hdone := (hentered₁ s (hpasses.reaches_within hs hl₁).1).2
  have hentered : ∀ q ∈ l.toList, q.IsCanonical ∧ last'.IsDone c' q := by
    obtain ⟨l₂, hl₂, hentered⟩ := hpasses'.exists_reachable hs'
    rw [hl] at hl₂
    cases hl₂
    exact hentered
  obtain ⟨hsource, hwithin⟩ := hpasses'.reaches_within hs' hl
  have hboth : ∀ q ∈ l.toList, Relation.ReflTransGen last.Leads s q →
      (last'.hasChanged a.state q ↔
        (∃ e, c'.draft q = .error e) ∨ a.state.ExpandsAnew a'.state q) := by
    intro q hq hpath
    obtain ⟨hcanonical, hdone'⟩ := hentered q hq
    have hq' := (hpasses.isDone_of_reaches (hpasses.canonical s hs) hdone hpath).2
    exact h.hasChanged_iff hpasses hpasses' hcanonical hq' hdone'
  constructor
  · rintro ⟨q, hq, hchanged⟩
    have hstep : ∀ p q, ¬ last'.hasChanged a.state p →
        ((p ∈ l.toList ∧ q ∈ l.toList) ∧ last'.Leads p q) → last.Leads p q :=
      fun p q hunchanged hleads =>
        leads_of_unchanged hpasses hpasses' (hentered p hleads.1.1).1 hunchanged hleads.2
    -- the first pass need not have come to `q`, but it has come to the first file that differs
    rcases reflTransGen_or_exists hstep (hwithin q hq) with hpath | ⟨p, hpath, hpath', hchanged⟩
    · exact ⟨q, hq, (hboth q hq hpath).1 hchanged⟩
    · have hp : p ∈ l.toList := by
        cases hpath with
        | refl => exact hsource
        | tail _ hlast => exact hlast.1.2
      exact ⟨p, hp, (hboth p hp hpath').1 hchanged⟩
  · rintro ⟨q, hq, ⟨e, he⟩ | hanew⟩
    · obtain ⟨-, ⟨d, hd, -⟩ | ⟨-, hun⟩⟩ := hentered q hq
      · have hfresh := (hpasses'.coherent.fits (hentered q hq).1 hd).fresh
        rw [he] at hfresh
        cases hfresh
      · exact ⟨q, hq, by simp [Pass.hasChanged, hun]⟩
    · exact ⟨q, hq, hasChanged_of_expandsAnew hpasses' (hentered q hq).1 hanew⟩

/-- The sources that are compiled again: those that are new, and those from which the walk comes to
a file that cannot be read, or to one whose includes became something else. -/
theorem mem_recompile_iff_reaches (h : c.Repeats c' a) (hpasses : c.Passes sources pass last a)
    (hpasses' : c'.Passes sources' pass' last' a')
    (hrun : Analysis.run c' sources' = (.ok a', last')) :
    s ∈ a'.recompile.toList ↔ s ∈ sources'.toList ∧ (s ∉ sources.toList ∨
      ∃ q, c'.Reaches sources' s q ∧
        ((∃ e, c'.draft q = .error e) ∨ a.state.ExpandsAnew a'.state q)) := by
  rw [hpasses'.outcome]
  refine List.mem_filter.trans (and_congr_right fun hs' => ?_)
  have hsettings : (c'.previous.settings != some c'.settings.fingerprint) = false := by
    rw [h.previous, h.settings, hpasses.outcome]
    exact bne_self_eq_false _
  have hsource : c'.previous.isSource s ↔ s ∈ sources.toList := by
    rw [h.previous, TaskState.isSource, hpasses.sources_eq,
      OrderedSet.mem_iff_of_canonical hpasses.canonical (hpasses'.canonical s hs')]
  obtain ⟨l, hl, -⟩ := hpasses'.exists_reachable hs'
  rw [hsettings, hl, h.previous]
  -- a source that both have is compiled again for what is on its walk, a new one in any case
  by_cases hs : s ∈ sources.toList
  · simp only [h.previous ▸ hsource.2 hs, hs, Bool.not_true, Bool.false_or, Bool.or_self,
      List.any_eq_true, not_true_eq_false, false_or, Reaches, hrun, hl, Option.some.injEq,
      exists_eq_left']
    rw [← hpasses'.outcome]
    exact h.exists_hasChanged_iff hpasses hpasses' hs hs' hl
  · have hnew : a.state.isSource s = false := by
      rw [Bool.eq_false_iff, ← h.previous]
      exact fun hin => hs (hsource.1 hin)
    simp [hnew, hs]

lemma mem_removed_iff (h : c.Repeats c' a) (hpasses : c.Passes sources pass last a)
    (hpasses' : c'.Passes sources' pass' last' a') :
    s ∈ a'.removed.toList ↔ s ∈ sources.toList ∧ s ∉ sources'.toList := by
  rw [hpasses'.outcome]
  refine List.mem_filter.trans ?_
  rw [h.previous, hpasses.sources_eq]
  refine and_congr_right fun hs => ?_
  rw [OrderedSet.mem_iff_of_canonical hpasses'.canonical (hpasses.canonical s hs)]
  simp

end Repeats

lemma exists_draft_of_reads {digest : Digest} {x : Bytes} (hdigest : c.reader.digest p = .ok digest)
    (hx : c.reader.content p = .ok x) : ∃ d, c.draft p = .ok d := by
  unfold draft
  rw [hdigest]
  simp only [bind, Except.bind]
  split
  · exact ⟨_, rfl⟩
  · rw [hx]
    exact ⟨_, rfl⟩

end PassContext

namespace RunM

variable {settings : Settings} {hasher : Hasher} {previous : TaskState}
  {sources sources' : List Path} {r r' : Run} {a : Analysis}

/-- After an analysis in a run, another one in what it leaves repeats it. -/
lemma repeats_of_files {pass : Pass} (hfiles : r'.files = r.files)
    (hlookup : r'.lookup = r.lookup.rememberAll r.files pass.probes) :
    (r.context settings hasher previous).Repeats (r'.context settings hasher a.state) a := by
  refine ⟨fun p => ?_, congrArg hasher hfiles, congrArg Workspace.read hfiles, rfl, rfl⟩
  show r'.lookup.isFile r'.files p = r.lookup.isFile r.files p
  rw [hfiles, hlookup, Lookup.isFile_rememberAll]

/-- An analysis against the state that one of other sources has left, if all of its own can be read,
finds out exactly the sources that are gone; and it compiles exactly the sources that are new and
those from which the walk comes to a file that cannot be read, or to one with an include that has to
be expanded and whose includes became something else than they did for the other sources. -/
theorem analyse_regrouped (h : (analyse settings hasher previous sources).run.run r = (.ok a, r'))
    (hread : ∀ s ∈ sources', ∃ p digest x, r.files.absolute s = .ok p ∧
      hasher r.files p.normalize = .ok digest ∧ r.files.read p.normalize = .ok x) :
    ∃ a' r'', (analyse settings hasher a.state sources').run.run r' = (.ok a', r'') ∧
      (∀ p, p ∈ a'.state.sources.toList ↔
        ∃ s ∈ sources', ∃ q, r.files.absolute s = .ok q ∧ q.normalize = p) ∧
      (∀ s, s ∈ a'.removed.toList ↔
        s ∈ a.state.sources.toList ∧ s ∉ a'.state.sources.toList) ∧
      ∀ s, s ∈ a'.recompile.toList ↔ s ∈ a'.state.sources.toList ∧
        (s ∉ a.state.sources.toList ∨
          ∃ q, (r'.context settings hasher a.state).Reaches a'.state.sources s q ∧
            ((∃ e, (r'.context settings hasher a.state).draft q = .error e) ∨
              a.state.ExpandsAnew a'.state q)) := by
  obtain ⟨l, pass, last, -, -, hpasses, hfiles, hlookup⟩ := passes_of_analyse h
  have hrepeats : (r.context settings hasher previous).Repeats
      (r'.context settings hasher a.state) a := repeats_of_files hfiles hlookup
  let P : Path → Prop := fun p => ∃ d, (r'.context settings hasher a.state).draft p = .ok d
  have hdraft : ∀ s ∈ sources', ∃ p, r.files.absolute s = .ok p ∧ P p.normalize := by
    intro s hs
    obtain ⟨p, digest, x, hp, hdigest, hx⟩ := hread s hs
    refine ⟨p, hp, ?_⟩
    apply PassContext.exists_draft_of_reads
    · rw [hrepeats.digest]
      exact hdigest
    · rw [hrepeats.content]
      exact hx
  obtain ⟨l', habsolute, hsources⟩ := exists_absoluteAll_of_forall (P := P) hdraft
  have hcanonical : ∀ s ∈ (OrderedSet.ofList l').toList, s.IsCanonical := fun s hs =>
    (hsources s hs).1
  obtain ⟨opened, -, -, hrun'⟩ := Analysis.run_eq_of_readable hcanonical fun s hs =>
    (hsources s hs).2
  obtain ⟨pass', -, hpasses'⟩ := PassContext.passes_of_run hcanonical hrun'
  obtain ⟨phases, heq⟩ := analyse_run (by rw [hfiles]; exact habsolute) hrun'
  -- the second analysis succeeds, so its findings are those of its passes
  refine ⟨_, _, heq, fun p => ?_, fun s => ?_, fun s => ?_⟩
  · rw [hpasses'.sources_eq]
    exact mem_ofList_absoluteAll habsolute
  · rw [hpasses.sources_eq, hpasses'.sources_eq]
    exact hrepeats.mem_removed_iff hpasses hpasses'
  · rw [hpasses.sources_eq, hpasses'.sources_eq]
    exact hrepeats.mem_recompile_iff_reaches hpasses hpasses' hrun'

/-- Two sources that give a macro different values, and share a header that includes what it says;
and another source. -/
def sharing : Run where
  files := Workspace.ofTexts "p"
    [("a.c", "#define H \"x.h\"\n#include \"f.h\"\n"),
      ("b.c", "#define H \"y.h\"\n#include \"f.h\"\n"), ("d.c", ""),
      ("f.h", "#include H\n"), ("x.h", ""), ("y.h", "")]

/-- All files of `sharing` can be read. -/
lemma reads_sharing (h : ∀ s ∈ sources, ∃ p ∈ (sharing.files.absolute s).toOption,
    sharing.files.isFile p.normalize) : ∀ s ∈ sources, ∃ p digest x,
      sharing.files.absolute s = .ok p ∧ contentHasher sharing.files p.normalize = .ok digest ∧
        sharing.files.read p.normalize = .ok x := by
  intro s hs
  obtain ⟨p, hp, hfile⟩ := h s hs
  obtain ⟨digest, hdigest⟩ := exists_contentHasher hfile
  obtain ⟨x, hx⟩ := Workspace.exists_read_of_isFile hfile
  exact ⟨p, digest, x, Except.eq_ok_of_toOption hp, hdigest, hx⟩

theorem analyse_regrouped_sharing : ∃ a r' a' r'',
    (analyse ⟨[], true, ∅⟩ contentHasher ∅ [⟨"a.c"⟩, ⟨"b.c"⟩]).run.run sharing = (.ok a, r') ∧
      (analyse ⟨[], true, ∅⟩ contentHasher a.state [⟨"a.c"⟩, ⟨"d.c"⟩]).run.run r' =
        (.ok a', r'') ∧
      (∀ s, s ∈ a'.removed.toList ↔ s = ⟨"/p/b.c"⟩) ∧ ⟨"/p/d.c"⟩ ∈ a'.recompile.toList := by
  let first := (analyse ⟨[], true, ∅⟩ contentHasher ∅ [⟨"a.c"⟩, ⟨"b.c"⟩]).run.run sharing
  have hfindings : first.1.toOption.any fun a =>
      a.state.sources.toList = [⟨"/p/a.c"⟩, ⟨"/p/b.c"⟩] := by
    decide +kernel
  have hfiles : ∀ s ∈ ([⟨"a.c"⟩, ⟨"d.c"⟩] : List Path),
      ∃ p ∈ (sharing.files.absolute s).toOption, sharing.files.isFile p.normalize := by
    decide +kernel
  obtain ⟨a, r', hrun, hsources⟩ := Except.exists_of_any hfindings
  obtain ⟨a', r'', hrun', hsources', hremoved, hrecompile⟩ :=
    analyse_regrouped hrun (reads_sharing hfiles)
  have ha : sharing.files.absolute ⟨"a.c"⟩ = .ok ⟨"/p/a.c"⟩ := rfl
  have hd : sharing.files.absolute ⟨"d.c"⟩ = .ok ⟨"/p/d.c"⟩ := rfl
  have hnormal : (⟨"/p/a.c"⟩ : Path).normalize = ⟨"/p/a.c"⟩ ∧
      (⟨"/p/d.c"⟩ : Path).normalize = ⟨"/p/d.c"⟩ := by decide +kernel
  rw [decide_eq_true_eq] at hsources
  simp only [List.mem_cons, List.not_mem_nil, or_false, exists_eq_or_imp, exists_eq_left, ha, hd,
    Except.ok.injEq, exists_eq_left', hnormal] at hsources'
  refine ⟨a, r', a', r'', hrun, hrun', fun s => ?_, ?_⟩
  · rw [hremoved, hsources, hsources']
    constructor
    · rintro ⟨hs, hnot⟩
      rw [List.mem_cons, List.mem_singleton] at hs
      exact hs.resolve_left fun heq => hnot (.inl heq.symm)
    · rintro rfl
      decide
  · rw [hrecompile, hsources, hsources']
    exact ⟨.inr rfl, .inl (by decide)⟩

/-- A source of both analyses may be compiled again although nothing has changed: without the other
source, the header that they share leads to fewer headers. -/
theorem exists_recompiled : ∃ a r' a' r'',
    (analyse ⟨[], true, ∅⟩ contentHasher ∅ [⟨"a.c"⟩, ⟨"b.c"⟩]).run.run sharing = (.ok a, r') ∧
      (analyse ⟨[], true, ∅⟩ contentHasher a.state [⟨"a.c"⟩]).run.run r' = (.ok a', r'') ∧
      ⟨"/p/a.c"⟩ ∈ a.state.sources.toList ∧ ⟨"/p/a.c"⟩ ∈ a'.state.sources.toList ∧
      ⟨"/p/a.c"⟩ ∈ a'.recompile.toList := by
  let first := (analyse ⟨[], true, ∅⟩ contentHasher ∅ [⟨"a.c"⟩, ⟨"b.c"⟩]).run.run sharing
  have hfindings : first.1.toOption.any fun a => ⟨"/p/a.c"⟩ ∈ a.state.sources.toList ∧
      ((analyse ⟨[], true, ∅⟩ contentHasher a.state [⟨"a.c"⟩]).run.run
        first.2).1.toOption.any fun a' =>
          ⟨"/p/a.c"⟩ ∈ a'.state.sources.toList ∧ ⟨"/p/a.c"⟩ ∈ a'.recompile.toList := by
    decide +kernel
  obtain ⟨a, r', hfirst, hrest⟩ := Except.exists_of_any hfindings
  rw [decide_eq_true_eq, show first.2 = r' from congrArg Prod.snd hfirst] at hrest
  obtain ⟨a', r'', hsecond, hsources'⟩ := Except.exists_of_any hrest.2
  rw [decide_eq_true_eq] at hsources'
  exact ⟨a, r', a', r'', hfirst, hsecond, hrest.1, hsources'⟩

end RunM

end IncludeDeps
