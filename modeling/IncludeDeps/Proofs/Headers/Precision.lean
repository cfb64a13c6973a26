import IncludeDeps.Proofs.Headers

/-!
# The headers of a precise run

The headers that an analysis finds are the files of the final state that some file of the state includes
(`Analysis.Covers.mem_headers_iff`).  Every file that is no source is such a file, since it was reached
along an include.  A source is one only if another file, or the source itself, includes it.  So the
headers are the files of the state that are no sources, and the sources that are included
(`PassContext.Passes.mem_headers_iff`).

As long as every expression could be expanded, these are what a task publishes: `Task.headers_of_precise`.
`Task.exists_included_source` is a source that is published as a header.
-/

namespace IncludeDeps

/-- A set of canonical paths is made from any list of its members. -/
lemma OrderedSet.eq_ofList_of_canonical {s : OrderedSet Path} {l : List Path}
    (hl : ∀ p ∈ l, p.IsCanonical) (h : ∀ p, p ∈ s.toList ↔ p ∈ l) : s = ofList l := by
  have hs : ∀ p ∈ s.toList, p.IsCanonical := fun p hp => hl p ((h p).1 hp)
  have hlist : ∀ p ∈ (ofList l).toList, p.IsCanonical := fun p hp => hl p (mem_ofList hp)
  refine ext_of_contains (fun p q hp hq => hp.eq_of_compare hq) hs hlist fun p hp => ?_
  rw [← mem_iff_of_canonical hs hp, h]
  constructor
  · exact contains_ofList
  · exact fun hin => mem_ofList ((mem_iff_of_canonical hlist hp).2 hin)

/-- The headers of a map are those that are found under some path. -/
lemma Pass.IsTidy.mem_headers_iff {m : HeaderMap} {p : Path} (hm : Pass.IsTidy m) :
    p ∈ m.headers.toList ↔ ∃ target, Pass.Holds m target p := by
  have hvalues : ∀ {q}, q ∈ m.values.flatMap OrderedSet.toList → ∃ target, Pass.Holds m target q := by
    intro q hq
    obtain ⟨l, hl, hq⟩ := List.mem_flatMap.1 hq
    obtain ⟨⟨target, l⟩, he, rfl⟩ := List.mem_map.1 hl
    exact ⟨target, l, OrderedMap.get?_of_entry he, hq⟩
  have hmembers : ∀ {q}, q ∈ m.headers.toList → ∃ target, Pass.Holds m target q :=
    fun hq => hvalues (OrderedSet.mem_ofList hq)
  have hcanonical : ∀ q ∈ m.headers.toList, q.IsCanonical := by
    intro q hq
    obtain ⟨target, h⟩ := hmembers hq
    exact hm.canonical target q h
  constructor
  · exact hmembers
  · rintro ⟨target, h⟩
    rw [OrderedSet.mem_iff_of_canonical hcanonical (hm.canonical target p h)]
    obtain ⟨l, hl, hp⟩ := h
    exact HeaderMap.contains_headers ⟨target, l, hl, OrderedSet.contains_of_mem hp⟩

namespace Analysis.Covers

variable {a : Analysis} {c : PassContext} {p q : Path}

/-- The headers that were found are the files of the state that some file of the state includes. -/
theorem mem_headers_iff (h : a.Covers c) (htidy : Pass.IsTidy a.found) :
    p ∈ a.headers.toList ↔ p ∈ a.state.files.keys ∧ ∃ q, a.state.Leads q p := by
  refine htidy.mem_headers_iff.trans ⟨?_, ?_⟩
  · rintro ⟨target, hholds⟩
    obtain ⟨hkey, e, he, r, hr, -, hfile⟩ := (h.found target p).1 hholds
    exact ⟨hkey, e.1, e.2, OrderedMap.get?_of_entry he, List.mem_filterMap.2 ⟨r, hr, hfile⟩⟩
  · rintro ⟨hkey, q, f, hf, hp⟩
    obtain ⟨k, hk, -⟩ := OrderedMap.exists_mem_of_get?_eq_some hf
    obtain ⟨r, hr, hfile⟩ := List.mem_filterMap.1 hp
    exact ⟨r.candidate, (h.found r.candidate p).2 ⟨hkey, (k, f), hk, r, hr, rfl, hfile⟩⟩

/-- A file of the state that is no source was reached along an include. -/
lemma exists_leads (h : a.Covers c) (hp : p ∈ a.state.files.keys) (hsource : p ∉ a.state.sources.toList) :
    ∃ q, a.state.Leads q p := by
  obtain ⟨-, s, hs, hpath⟩ := (h.file p).1 hp
  rcases hpath.cases_tail with rfl | ⟨q, -, hleads⟩
  · exact absurd hs hsource
  · exact ⟨q, hleads⟩

/-- The snapshots of headers are those of the files that are no sources. -/
lemma exists_header_iff (h : a.Covers c) (hkeys : ∀ p ∈ a.state.files.keys, p.IsCanonical)
    (hsources : ∀ p ∈ a.state.sources.toList, p.IsCanonical) :
    (∃ f ∈ a.state.headers, f.path = p) ↔ p ∈ a.state.files.keys ∧ p ∉ a.state.sources.toList := by
  have hsource : ∀ e ∈ a.state.files.toList,
      ((!a.state.isSource e.2.path) ↔ e.1 ∉ a.state.sources.toList) := by
    intro e he
    rw [OrderedSet.mem_iff_of_canonical hsources (hkeys _ (List.mem_map_of_mem he)), h.path e he,
      TaskState.isSource]
    simp
  constructor
  · rintro ⟨f, hf, rfl⟩
    obtain ⟨hvalue, hheader⟩ := List.mem_filter.1 hf
    obtain ⟨e, he, rfl⟩ := List.mem_map.1 hvalue
    rw [h.path e he]
    exact ⟨List.mem_map_of_mem he, (hsource e he).1 hheader⟩
  · rintro ⟨hkey, hnone⟩
    obtain ⟨e, he, rfl⟩ := List.mem_map.1 hkey
    exact ⟨e.2, List.mem_filter.2 ⟨List.mem_map_of_mem he, (hsource e he).2 hnone⟩, h.path e he⟩

end Analysis.Covers

namespace PassContext.Passes

variable {c : PassContext} {sources : OrderedSet Path} {pass last : Pass} {a : Analysis} {p : Path}

lemma exists_header_iff (h : c.Passes sources pass last a) :
    (∃ f ∈ a.state.headers, f.path = p) ↔ p ∈ a.state.files.keys ∧ p ∉ a.state.sources.toList := by
  refine h.covers.exists_header_iff (fun p hp => (h.mem_keys_iff.1 hp).1) ?_
  rw [h.sources_eq]
  exact h.canonical

/-- The headers that were found are the files of the state that are no sources, and the sources that are
included. -/
theorem mem_headers_iff (h : c.Passes sources pass last a) :
    p ∈ a.headers.toList ↔ (∃ f ∈ a.state.headers, f.path = p) ∨
      p ∈ a.state.sources.toList ∧ ∃ q, a.state.Leads q p := by
  have htidy : Pass.IsTidy a.found := by
    rw [h.outcome]
    exact h.coherent.isTidy_found
  rw [h.covers.mem_headers_iff htidy, h.exists_header_iff]
  constructor
  · rintro ⟨hkey, hleads⟩
    by_cases hp : p ∈ a.state.sources.toList
    · exact .inr ⟨hp, hleads⟩
    · exact .inl ⟨hkey, hp⟩
  · rintro (⟨hkey, hp⟩ | ⟨hp, hleads⟩)
    · exact ⟨hkey, h.covers.exists_leads hkey hp⟩
    · exact ⟨h.mem_keys_of_mem (h.sources_eq ▸ hp), hleads⟩

/-- Where no source is included, the headers that were found are the files of the state that are no
sources. -/
theorem headers_eq (h : c.Passes sources pass last a)
    (hfree : ∀ p ∈ a.state.sources.toList, ∀ q, ¬ a.state.Leads q p) :
    a.headers = OrderedSet.ofList (a.state.headers.map Snapshot.path) := by
  refine OrderedSet.eq_ofList_of_canonical (fun p hp => ?_) fun p => ?_
  · exact (h.mem_keys_iff.1 (h.exists_header_iff.1 (List.mem_map.1 hp)).1).1
  · rw [h.mem_headers_iff, List.mem_map]
    exact or_iff_left fun ⟨hp, q, hleads⟩ => hfree p hp q hleads

end PassContext.Passes

namespace Task

variable {t : Task} {hasher : Hasher} {cache cache' : StateCache} {r r' : Run} {o : Outcome}

/-- As long as every expression could be expanded, the headers that a task publishes are the files of the
final state that are no sources, and the sources that are included.  Where no source is included, they
are exactly the former. -/
theorem headers_of_precise (h : (t.detect hasher cache).run.run r = (.ok (o, cache'), r'))
    (hprecise : o.isIncomplete = false) :
    ∃ a r₁, (t.analyse hasher cache).run.run r = (.ok a, r₁) ∧
      (∀ p, p ∈ o.headers.toList ↔ (∃ f ∈ a.state.headers, f.path = p) ∨
        p ∈ a.state.sources.toList ∧ ∃ q, a.state.Leads q p) ∧
      ((∀ p ∈ a.state.sources.toList, ∀ q, ¬ a.state.Leads q p) →
        o.headers = OrderedSet.ofList (a.state.headers.map Snapshot.path)) := by
  obtain ⟨a, r₁, m, hanalyse, hcollect, rfl⟩ := collect_of_detect h
  obtain ⟨r₂, hrun, hfiles⟩ : ∃ r₂, (t.analyse hasher cache).run.run r =
      (t.analyseIn hasher r.files (cache.get r.files), r₂) ∧ r₂.files = r.files := analyse_run
  obtain ⟨hin, rfl⟩ := Prod.mk.inj (hanalyse.symm.trans hrun)
  -- all that was found is there
  have hfound : m = a.found := by
    rw [hfiles, collect_of_precise hin.symm hprecise] at hcollect
    exact (Except.ok.inj hcollect).symm
  subst hfound
  obtain ⟨sources, pass, last, hpass⟩ := passes_of_analyseIn hin.symm
  exact ⟨a, _, hanalyse, fun _ => hpass.passes.mem_headers_iff, hpass.passes.headers_eq⟩

/-- A source that includes a header in two spellings, and one that cannot be read; the former includes
itself. -/
def spelled : Run where
  files := Workspace.ofTexts "p" [("a.c", "#include \"b.h\"\n#include \"./b.h\"\n#include \"c.h\"\n"),
    ("b.h", "#include \"b.h\"\n"), ("c.h", "")]

/-- The task of compiling sources without include roots. -/
def plainTask (sources : List Path) : Task := ⟨":p:main", sources, [], false, ∅, none⟩

theorem headers_of_precise_spelled : ∃ o cache' r' a r₁,
    ((plainTask [⟨"a.c"⟩]).detect (RunM.hasherWithout ⟨"/p/c.h"⟩) (.memory none)).run.run spelled =
        (.ok (o, cache'), r') ∧ o.isIncomplete = false ∧
      ((plainTask [⟨"a.c"⟩]).analyse (RunM.hasherWithout ⟨"/p/c.h"⟩) (.memory none)).run.run spelled =
        (.ok a, r₁) ∧
      o.headers = OrderedSet.ofList (a.state.headers.map Snapshot.path) ∧
      a.state.headers.map Snapshot.path = [⟨"/p/b.h"⟩] := by
  have hdetect : ((plainTask [⟨"a.c"⟩]).detect (RunM.hasherWithout ⟨"/p/c.h"⟩)
      (.memory none)).run.run spelled |>.1.toOption.any fun x => !x.1.isIncomplete := by
    decide +kernel
  have hfindings : ((plainTask [⟨"a.c"⟩]).analyse (RunM.hasherWithout ⟨"/p/c.h"⟩)
      (.memory none)).run.run spelled |>.1.toOption.any fun a =>
        a.state.headers.map Snapshot.path = [⟨"/p/b.h"⟩] ∧
          ∀ p ∈ a.state.sources.toList, ∀ e ∈ a.state.files.toList, p ∉ e.2.files := by
    decide +kernel
  obtain ⟨⟨o, cache'⟩, r', hrun, hprecise⟩ := Except.exists_of_any hdetect
  obtain ⟨a, r₁, hanalyse, hfound⟩ := Except.exists_of_any hfindings
  rw [Bool.not_eq_true'] at hprecise
  rw [decide_eq_true_eq] at hfound
  obtain ⟨a', r₁', hanalyse', -, hexact⟩ := headers_of_precise hrun hprecise
  rw [hanalyse] at hanalyse'
  cases hanalyse'
  refine ⟨o, cache', r', a, r₁, hrun, hprecise, hanalyse, hexact ?_, hfound.1⟩
  rintro p hp q ⟨f, hf, hin⟩
  obtain ⟨k, hk, -⟩ := OrderedMap.exists_mem_of_get?_eq_some hf
  exact hfound.2 p hp _ hk hin

/-- A source that includes another one. -/
def including : Run where
  files := Workspace.ofTexts "p" [("a.c", "#include \"b.c\"\n"), ("b.c", "")]

/-- A source that another one includes is published as a header, although the final state has no files
but sources. -/
theorem exists_included_source : ∃ o cache' r' a r₁,
    ((plainTask [⟨"a.c"⟩, ⟨"b.c"⟩]).detect contentHasher (.memory none)).run.run including =
        (.ok (o, cache'), r') ∧ o.isIncomplete = false ∧
      ((plainTask [⟨"a.c"⟩, ⟨"b.c"⟩]).analyse contentHasher (.memory none)).run.run including =
        (.ok a, r₁) ∧
      o.headers.toList = [⟨"/p/b.c"⟩] ∧ a.state.headers = [] := by
  have hdetect : ((plainTask [⟨"a.c"⟩, ⟨"b.c"⟩]).detect contentHasher
      (.memory none)).run.run including |>.1.toOption.any fun x =>
        x.1.isIncomplete = false ∧ x.1.headers.toList = [⟨"/p/b.c"⟩] := by
    decide +kernel
  have hfindings : ((plainTask [⟨"a.c"⟩, ⟨"b.c"⟩]).analyse contentHasher
      (.memory none)).run.run including |>.1.toOption.any fun a => a.state.headers = [] := by
    decide +kernel
  obtain ⟨⟨o, cache'⟩, r', hrun, hpublished⟩ := Except.exists_of_any hdetect
  obtain ⟨a, r₁, hanalyse, hempty⟩ := Except.exists_of_any hfindings
  rw [decide_eq_true_eq] at hpublished hempty
  exact ⟨o, cache', r', a, r₁, hrun, hpublished.1, hanalyse, hpublished.2, hempty⟩

end Task

end IncludeDeps
