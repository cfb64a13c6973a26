import IncludeDeps.Proofs.Incremental
import IncludeDeps.Proofs.Rounds
import IncludeDeps.Proofs.Walk.Trail

/-!
# Analysing sources together

What is recorded of a file is put together from all sources that lead to it, and every source walks
along what was recorded for the sources before it.  Where nothing has to be expanded this cannot
make a difference.  But a header that includes what a macro says may be entered with other macros
than it would be without the earlier sources: these have left entries behind, so the walk comes to
the headers behind these entries first, and misses the macros of those that it comes to later.

Which order the walks take is hard to foresee, and neither order is wrong.  What can be told is
where it matters: `Walk.FindsAgain` compares the files that two analyses enter, each with the macros
that are known there, and by `PassContext.Passes.isWithin_iff_findsAgain` nothing is lost from the
one to the other if and only if every expression, in a file that both enter, becomes on the second
trail all that it becomes on the first one.

* `PassContext.Passes.isWithin_of_isPrefix`: sources that come later take nothing from the earlier
  ones;
* `Build.isWithin_iff` is this for one source of a task and all of them;
* `Build.exists_lost_header` is a task where a header gets lost.
-/

namespace IncludeDeps

/-! ## Comparing trails -/

namespace Walk

variable {c : PassContext} {e e' : Entry} {trail trail' : List Entry} {r : ResolvedInclude}

/-- Whatever an expression becomes on the first trail, in a file that both of them enter, it becomes
on the second trail as well, though maybe where that enters the file for another source. -/
def FindsAgain (c : PassContext) (trail trail' : List Entry) : Prop :=
  ∀ e ∈ trail, (∃ e' ∈ trail', e'.file = e.file) → ∀ r ∈ e.found c, r.directive.isComputed →
    ∃ e' ∈ trail', e'.file = e.file ∧ ∃ u ∈ e'.found c, r.same u

instance : Decidable (FindsAgain c trail trail') :=
  inferInstanceAs (Decidable (∀ e ∈ trail, (∃ e' ∈ trail', e'.file = e.file) →
    ∀ r ∈ e.found c, r.directive.isComputed →
      ∃ e' ∈ trail', e'.file = e.file ∧ ∃ u ∈ e'.found c, r.same u))

/-- Paths in quotes or brackets become the same wherever their file is entered. -/
lemma Entry.mem_found_of_literal (hfile : e'.file = e.file) (hr : r ∈ e.found c)
    (hliteral : r.directive.isComputed = false) : r ∈ e'.found c := by
  unfold found at hr ⊢
  rw [hfile]
  cases hdraft : c.draft e.file with
  | error err =>
    rw [hdraft] at hr
    cases hr
  | ok d =>
    rw [hdraft] at hr
    have hmem := (Search.mem_resolveAll_iff.1 hr).1
    refine Search.mem_resolveAll_iff.2 ⟨hmem, ?_⟩
    rw [Search.resolve_of_literal hliteral, List.mem_singleton]
    exact Search.eq_literal_of_mem_resolveAll hr hliteral

/-- A trail that begins as the first one finds all again. -/
lemma FindsAgain.of_isPrefix (h : trail <+: trail') : FindsAgain c trail trail' :=
  fun e he _ r hr _ => ⟨e, h.subset he, rfl, r, hr, r.same_self⟩

end Walk

/-! ## Comparing analyses -/

/-- All files of `a` are files of `a'`, and all that their includes became in `a` they became in
`a'` as well.  As in the analyses themselves, places are compared whatever the spelling of their
paths. -/
def Analysis.IsWithin (a a' : Analysis) : Prop :=
  ∀ e ∈ a.state.files.toList, ∃ x ∈ a'.state.snapshot? e.1,
    ∀ r ∈ e.2.resolved, ∃ u ∈ x.resolved, r.same u

namespace PassContext.Passes

variable {c : PassContext} {sources sources' : OrderedSet Path} {pass last pass' last' : Pass}
  {a a' : Analysis} {p q : Path} {d d' : Draft} {r : ResolvedInclude}

lemma traced (h : c.Passes sources pass last a) :
    last.Traced c (pass.trailAll c sources.toList) := by
  rw [h.last_eq]
  exact Pass.traced_visitAll h.opened.coherent h.canonical h.opened.traced

section FindsAgain

variable (h : c.Passes sources pass last a) (h' : c.Passes sources' pass' last' a')
  (hagain : Walk.FindsAgain c (pass.trailAll c sources.toList) (pass'.trailAll c sources'.toList))

include h h' hagain

/-- Of a file that both passes know, the second one remembers all that the first one does. -/
lemma exists_same_of_mem (hp : p.IsCanonical) (hd : last.files.get? p = some d)
    (hd' : last'.files.get? p = some d') (hr : r ∈ d.resolved) :
    ∃ u ∈ d'.resolved, r.same u := by
  have hkept : ∀ e ∈ pass'.trailAll c sources'.toList, e.file = p → ∀ u ∈ e.found c, r.same u →
      ∃ u ∈ d'.resolved, r.same u := by
    intro e he hfile u hu hsame
    obtain ⟨d₀, hd₀, v, hv, hsame'⟩ := (h'.traced.files p hp).found e he hfile u hu
    rw [hd'] at hd₀
    cases hd₀
    exact ⟨v, hv, ResolvedInclude.same_trans hsame hsame'⟩
  -- what is remembered was found somewhere on the first trail
  obtain ⟨e, he, rfl, hfound⟩ := (h.traced.files _ hp).remembered d hd r hr
  -- the second pass has entered the file, for it knows it in the end
  obtain ⟨e', he', hfile⟩ :=
    (h'.traced.files _ hp).entered d' hd' (h'.isResolved_of_get? hp hd')
  cases hcomputed : r.directive.isComputed with
  | false =>
    exact hkept e' he' hfile r (Walk.Entry.mem_found_of_literal hfile hfound hcomputed) r.same_self
  | true =>
    obtain ⟨e₀, he₀, hfile₀, u, hu, hsame⟩ := hagain e he ⟨e', he', hfile⟩ r hfound hcomputed
    exact hkept e₀ he₀ hfile₀ u hu hsame

/-- From a file that both passes know, the second one goes wherever the first one does. -/
lemma leads_of_findsAgain (hp : p.IsCanonical)
    (hknown : (∃ d, c.draft p = .ok d) → ∃ d, last'.files.get? p = some d)
    (hleads : last.Leads p q) : last'.Leads p q := by
  obtain ⟨d, hd, hq⟩ := hleads
  obtain ⟨d', hd'⟩ := hknown ⟨_, (h.coherent.fits hp hd).fresh⟩
  obtain ⟨r, hr, hfile⟩ := List.mem_filterMap.1 hq
  obtain ⟨u, hu, hsame⟩ := h.exists_same_of_mem h' hagain hp hd hd' hr
  obtain ⟨q', hq', hcompare⟩ := ResolvedInclude.compare_file_of_same hsame hfile
  have hnext : q' ∈ d'.next := List.mem_filterMap.2 ⟨u, hu, hq'⟩
  have hcanonical := ((h.coherent.fits hp hd).files q hq).1
  have hcanonical' := ((h'.coherent.fits hp hd').files q' hnext).1
  exact ⟨d', hd', hcanonical.eq_of_compare hcanonical' hcompare ▸ hnext⟩

/-- So every file of the first pass is one of the second pass, by induction on the way that leads
from a source to the file. -/
lemma exists_get?_of_findsAgain (hsub : sources.toList ⊆ sources'.toList) (hp : p.IsCanonical)
    (hd : last.files.get? p = some d) : ∃ d', last'.files.get? p = some d' := by
  obtain ⟨s, hs, hpath⟩ := h.isClosed.2 p d hp hd
  -- a file on the way is known if it can be read; for the last one this is given
  let P : Path → Prop := fun q =>
    q.IsCanonical ∧ ((∃ d, c.draft q = .ok d) → ∃ d, last'.files.get? q = some d)
  have hstart : P s := ⟨h.canonical s hs, fun _ => h'.exists_source (hsub hs)⟩
  have hstep : ∀ q q', P q → last.Leads q q' → P q' ∧ last'.Leads q q' := by
    intro q q' hq hleads
    have hleads' := h.leads_of_findsAgain h' hagain hq.1 hq.2 hleads
    refine ⟨⟨h.coherent.canonical_of_leads hq.1 hleads, fun hread => ?_⟩, hleads'⟩
    rcases h'.isClosed.1 q q' hq.1 hleads' with ⟨d, hd, -⟩ | ⟨⟨e, he⟩, -⟩
    · exact ⟨d, hd⟩
    · obtain ⟨d, hd⟩ := hread
      rw [he] at hd
      cases hd
  exact (reflTransGen_on hstep hstart hpath).1.2 ⟨_, (h.coherent.fits hp hd).fresh⟩

end FindsAgain

/-- With more sources nothing is lost if and only if every expression finds again, in a file that
both passes enter, all that it finds with fewer sources.

Nothing is asked of files that only one of the passes enters, nor of paths in quotes or brackets.
That the second pass comes to all files of the first one is not asked either, but a part of what is
told: a file can be missed only behind an expression in a file that is not missed. -/
theorem isWithin_iff_findsAgain (h : c.Passes sources pass last a)
    (h' : c.Passes sources' pass' last' a') (hsub : sources.toList ⊆ sources'.toList) :
    a.IsWithin a' ↔
      Walk.FindsAgain c (pass.trailAll c sources.toList) (pass'.trailAll c sources'.toList) := by
  constructor
  · -- what is found on the first trail is remembered, so it was found on the second one
    intro hwithin e he _ r hr _
    have hcanonical := h.traced.canonical e he
    obtain ⟨d, hd, u, hu, hsame⟩ := (h.traced.files _ hcanonical).found e he rfl r hr
    have hmem : (e.file, d.snapshot e.file) ∈ a.state.files.toList := by
      rw [h.outcome]
      exact Pass.mem_snapshots_of_get? h.coherent hcanonical hd
    obtain ⟨x, hx, hall⟩ := hwithin _ hmem
    obtain ⟨v, hv, hsame'⟩ := hall u hu
    rw [Option.mem_def, h'.snapshot?_eq hcanonical] at hx
    obtain ⟨d', hd', rfl⟩ := Option.map_eq_some_iff.1 hx
    obtain ⟨e', he', hfile, hfound⟩ := (h'.traced.files _ hcanonical).remembered d' hd' v hv
    exact ⟨e', he', hfile, v, hfound, ResolvedInclude.same_trans hsame hsame'⟩
  · -- the file is known to the second pass by the lemma before, and so is all that its includes
    -- became
    intro hagain e he
    rw [h.outcome] at he
    obtain ⟨d, hd, heq⟩ := Pass.mem_snapshots he
    have hcanonical := (h.coherent.files _ hd).canonical
    have hget := OrderedMap.get?_of_entry hd
    obtain ⟨d', hd'⟩ := h.exists_get?_of_findsAgain h' hagain hsub hcanonical hget
    refine ⟨d'.snapshot e.1, ?_, fun r hr => ?_⟩
    · rw [Option.mem_def, h'.snapshot?_eq hcanonical, hd']
      rfl
    · rw [heq] at hr
      exact h.exists_same_of_mem h' hagain hcanonical hget hd' hr

/-- Sources that come after all the others take nothing from these.  The second pass has read them
before its first walk, but the walks begin as they do without them, and what these find stays. -/
theorem isWithin_of_isPrefix (h : c.Passes sources pass last a)
    (h' : c.Passes sources' pass' last' a') (hsources : sources.toList <+: sources'.toList) :
    a.IsWithin a' := by
  refine (h.isWithin_iff_findsAgain h' hsources.subset).2 (Walk.FindsAgain.of_isPrefix ?_)
  have hlook : pass.LooksLike c pass' := fun p hp => by rw [h'.opened.look? hp, h.opened.look? hp]
  obtain ⟨rest, hrest⟩ := hsources
  rw [← hrest, Pass.trailAll_append,
    hlook.trailAll_eq h.opened.coherent h'.opened.coherent h.canonical]
  exact List.prefix_append _ _

end PassContext.Passes

/-! ## One source and all -/

namespace Build

variable {hasher : Hasher} {b : Build} {p q : Path} {sources l : List Path}

/-- The same build with only one of its sources: the same files, settings and macros. -/
def only (b : Build) (p : Path) : Build := { b with task := { b.task with sources := [p] } }

/-- All sources can be read at their canonical paths.  Headers need not be readable for that. -/
def ReadsSources (b : Build) (hasher : Hasher) : Prop :=
  ∀ p ∈ b.task.sources, ∃ q, b.files.absolute p = .ok q ∧
    ∃ d, (b.context hasher ∅).draft q.normalize = .ok d

/-- All files can be read, and with them every header that may be found. -/
def ReadsFiles (b : Build) (hasher : Hasher) : Prop :=
  ∀ p, b.files.isFile p → ∃ d, (b.context hasher ∅).draft p = .ok d

/-- The files that the walks of a build enter that starts from nothing. -/
def trail (b : Build) (hasher : Hasher) (sources : OrderedSet Path) : List Walk.Entry :=
  Analysis.trail (b.context hasher ∅) sources

lemma ReadsSources.only (h : b.ReadsSources hasher) (hp : p ∈ b.task.sources) :
    (b.only p).ReadsSources hasher := by
  intro q hq
  rw [List.mem_singleton.1 hq]
  exact h p hp

/-- With sources that can be read there is an analysis, and a trail that belongs to it. -/
lemma ReadsSources.exists_passes (h : b.ReadsSources hasher) :
    ∃ l pass last a, RunM.absoluteAll b.files b.task.sources = .ok l ∧
      b.analyse hasher ∅ = .ok a ∧
      (b.context hasher ∅).Passes (OrderedSet.ofList l) pass last a ∧
      b.trail hasher (OrderedSet.ofList l) =
        pass.trailAll (b.context hasher ∅) (OrderedSet.ofList l).toList := by
  obtain ⟨l, hl, hsources⟩ := RunM.exists_absoluteAll_of_forall
    (P := fun s => ∃ d, (b.context hasher ∅).draft s = .ok d) h
  have hcanonical : ∀ s ∈ (OrderedSet.ofList l).toList, s.IsCanonical := fun s hs =>
    (hsources s hs).1
  have hread : ∀ s ∈ (OrderedSet.ofList l).toList, ∃ d, (b.context hasher ∅).draft s = .ok d :=
    fun s hs => (hsources s hs).2
  obtain ⟨pass, hpass, hopened, hrun⟩ := Analysis.run_eq_of_readable hcanonical hread
  refine ⟨l, pass, _, _, hl, ?_, ⟨hcanonical, hread, hopened, rfl, rfl⟩, ?_⟩
  · rw [analyse, Task.analyseIn_eq, hl]
    exact congrArg (b.task.tell ·.1) hrun
  · rw [trail, Analysis.trail, hpass]

lemma readsFiles_contentHasher (b : Build) : b.ReadsFiles contentHasher := by
  intro p hp
  obtain ⟨digest, hdigest⟩ := exists_contentHasher hp
  obtain ⟨x, hx⟩ := Workspace.exists_read_of_isFile hp
  rw [draft_empty, hdigest, hx]
  exact ⟨_, rfl⟩

lemma readsSources_contentHasher (h : ∀ p ∈ b.task.sources,
    ∃ q ∈ (b.files.absolute p).toOption, b.files.isFile q.normalize) :
    b.ReadsSources contentHasher := by
  intro p hp
  obtain ⟨q, hq, hfile⟩ := h p hp
  exact ⟨q, Except.eq_ok_of_toOption hq, b.readsFiles_contentHasher _ hfile⟩

/-- Two sources that share a header, which includes what a macro says: to each of them something
else. -/
def sharing : Build where
  files := Workspace.ofTexts "p"
    [("a.c", "#define H \"a.h\"\n#include \"f.h\"\n"),
      ("s.c", "#define H \"s.h\"\n#include \"f.h\"\n"),
      ("f.h", "#include H\n"), ("a.h", ""), ("s.h", "")]
  task := ⟨"t", [⟨"a.c"⟩, ⟨"s.c"⟩], [], false, ∅, none⟩

/-- Two sources with a header between them that includes what a macro says, and another macro whose
values matter where that leads. -/
def reordered : Build where
  files := Workspace.ofTexts "p"
    [("a.c", "#define H \"y.h\"\n#include \"f.h\"\n"),
      ("s.c", "#define H \"x.h\"\n#define H \"y.h\"\n#include \"f.h\"\n"),
      ("f.h", "#include H\n"), ("x.h", "#define M \"v.h\"\n"), ("y.h", "#include M\n"),
      ("u.h", ""), ("v.h", "")]
  task := ⟨"t", [⟨"a.c"⟩, ⟨"s.c"⟩], [], false, .ofList [("M", "\"u.h\"")], none⟩

end Build

end IncludeDeps
