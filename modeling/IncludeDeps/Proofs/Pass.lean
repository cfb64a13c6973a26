import IncludeDeps.Analysis
import IncludeDeps.Proofs.Walk.Budget

/-!
# Passes

What a pass over several sources knows, put together from its walks.

* `Pass.Extends`: a pass that goes on knows more, and nothing else, of every file;
* `Pass.visit_eq`: the walk from one source is a whole walk in the sense of `Walk.Explores`;
* `Pass.visitAll_append_cons` singles out the walk from one of the sources;
* `Pass.readSources_of_readable` and `Pass.readSources_of_error`: the sources are read first, and
  the first one that cannot be read ends the pass;
* `PassContext.Passes` is the analysis in these terms, and `PassContext.passes_of_run` tells that
  there is a pass behind every analysis that succeeds.
-/

namespace IncludeDeps

namespace Pass

variable {c : PassContext} {pass pass' pass'' : Pass} {p q : Path} {d : Draft}

/-! ## Knowing more -/

/-- `pass'` knows all that `pass` knows, and maybe more.  Of a file that both know, the contents
are the same, and entries may have been added behind those that were there. -/
structure Extends (pass pass' : Pass) : Prop where
  files : ∀ p d, p.IsCanonical → pass.files.get? p = some d →
    ∃ d', pass'.files.get? p = some d' ∧ d'.fresh = d.fresh ∧ d.resolved <+: d'.resolved ∧
      (d.isResolved → d'.isResolved)
  unreadable : ∀ p, pass.unreadable.contains p → pass'.unreadable.contains p
  isIncomplete : pass.isIncomplete → pass'.isIncomplete

@[refl]
lemma Extends.refl (pass : Pass) : pass.Extends pass where
  files _ d _ h := ⟨d, h, rfl, List.prefix_rfl, id⟩
  unreadable _ := id
  isIncomplete := id

@[trans]
lemma Extends.trans (h : pass.Extends pass') (h' : pass'.Extends pass'') :
    pass.Extends pass'' where
  files p d hp hd := by
    obtain ⟨d', hd', hfresh, hprefix, hdone⟩ := h.files p d hp hd
    obtain ⟨d'', hd'', hfresh', hprefix', hdone'⟩ := h'.files p d' hp hd'
    exact ⟨d'', hd'', hfresh'.trans hfresh, hprefix.trans hprefix', fun h => hdone' (hdone h)⟩
  unreadable p hp := h'.unreadable p (h.unreadable p hp)
  isIncomplete hflag := h'.isIncomplete (h.isIncomplete hflag)

/-- The includes of a file were followed, or it was found that it cannot be read. -/
def IsDone (c : PassContext) (pass : Pass) (p : Path) : Prop :=
  (∃ d, pass.files.get? p = some d ∧ d.isResolved) ∨
    (∃ e, c.draft p = .error e) ∧ pass.unreadable.contains p

lemma Extends.isDone (h : pass.Extends pass') (hp : p.IsCanonical) (hdone : pass.IsDone c p) :
    pass'.IsDone c p := by
  rcases hdone with ⟨d, hd, hdone⟩ | ⟨he, hun⟩
  · obtain ⟨d', hd', -, -, hdone'⟩ := h.files p d hp hd
    exact .inl ⟨d', hd', hdone' hdone⟩
  · exact .inr ⟨he, h.unreadable p hun⟩

end Pass

namespace Walk

variable {c : PassContext} {w w' : Walk} {p q : Path} {stack : List Path}

lemma extends_enter (hw : w.Sound c) (hp : p.IsCanonical) :
    w.pass.Extends (w.enter c p).2.pass := by
  rcases enter_cases hw hp with ⟨d, hd, h⟩ | ⟨-, h⟩
  · refine ⟨fun q d' hq hd' => ?_, fun q hq => by rw [h.pass.unreadable]; exact hq, ?_⟩
    · by_cases heq : compare q p = .eq
      · obtain rfl := hq.eq_of_compare hp heq
        rw [Pass.look?_of_get? hd'] at hd
        cases hd
        refine ⟨_, by rw [h.pass.files, if_pos heq], Draft.fresh_entered, ?_, fun _ => ?_⟩
        · exact Draft.resolved_isPrefix_entered
        · exact Draft.isResolved_entered
      · refine ⟨d', by rw [h.pass.files, if_neg heq, hd'], rfl, List.prefix_rfl, id⟩
    · intro hflag
      rw [h.isIncomplete, hflag]
      rfl
  · refine ⟨fun q d' _ hd' => ?_, fun q hq => (h.pass.unreadable q).2 (.inr hq), ?_⟩
    · exact ⟨d', by rw [h.pass.files, hd'], rfl, List.prefix_rfl, id⟩
    · rw [h.isIncomplete]
      exact id

namespace Explores

lemma extends_pass (h : Explores c stack w w') (hw : w.Sound c)
    (hs : ∀ p ∈ stack, p.IsCanonical) : w.pass.Extends w'.pass :=
  (h.preserves (P := fun v => w.pass.Extends v.pass)
    (fun _ _ hv hp _ hext => hext.trans (extends_enter hv hp)) hw hs (.refl _)).2

/-- Walking tells nothing about other sources. -/
lemma reachable_eq (h : Explores c stack w w') (hw : w.Sound c)
    (hs : ∀ p ∈ stack, p.IsCanonical) : w'.pass.reachable = w.pass.reachable := by
  refine (h.preserves (P := fun v => v.pass.reachable = w.pass.reachable) ?_ hw hs rfl).2
  intro v p hv hp _ heq
  rcases enter_cases hv hp with ⟨d, -, h⟩ | ⟨-, h⟩
  · rw [h.pass.reachable, heq]
  · rw [h.pass.reachable, heq]

/-- The pass is done with every file that was entered on the way. -/
lemma isDone (h : Explores c stack w w') (hw : w.Sound c) (hs : ∀ p ∈ stack, p.IsCanonical)
    (hstart : w.visited = ∅) (hq : q.IsCanonical) (hvisited : w'.visited.contains q) :
    w'.pass.IsDone c q := by
  let P : Walk → Prop := fun v => v.visited.contains q → v.pass.IsDone c q
  have hbegin : P w := by
    intro hvisited
    rw [hstart] at hvisited
    cases hvisited
  refine (h.preserves (P := P) ?_ hw hs hbegin).2 hvisited
  intro v p hv hp _ hP hin
  by_cases heq : compare q p = .eq
  · obtain rfl := hq.eq_of_compare hp heq
    rcases enter_cases hv hp with ⟨d, -, h⟩ | ⟨hd, h⟩
    · exact .inl ⟨_, by rw [h.pass.files, if_pos heq], Draft.isResolved_entered⟩
    · exact .inr ⟨(Pass.look?_eq_none_iff hv.pass hq).1 hd, (h.pass.unreadable q).2 (.inl heq)⟩
  · exact (extends_enter hv hp).isDone hq (hP ((contains_visited_enter.1 hin).resolve_left heq))

end Explores

end Walk

namespace Pass

variable {c : PassContext} {pass pass' pass'' : Pass} {p q source : Path} {d : Draft}
  {sources : List Path}

/-! ## Walks from sources -/

/-- A walk that has not begun. -/
def setOut (c : PassContext) (pass : Pass) : Walk :=
  ⟨pass, MacroTable.ofMap c.settings.macros, ∅⟩

lemma Coherent.sound_setOut (hc : pass.Coherent c) : (pass.setOut c).Sound c :=
  ⟨hc, fun _ h => (nomatch h)⟩

/-- The walk from a source is a whole walk. -/
theorem visit_eq (hc : pass.Coherent c) (hs : source.IsCanonical) :
    ∃ w, Walk.Explores c [source] (pass.setOut c) w ∧
      pass.visit c source =
        { w.pass with reachable := w.pass.reachable.insert source w.visited } := by
  have hconfined : Walk.Confined c source [source] (pass.setOut c) := by
    refine ⟨hc.sound_setOut, ?_, fun _ h => (nomatch h), ?_⟩
    · intro p hp
      rw [List.mem_singleton.1 hp]
      exact hs
    · intro p hp
      exact .inl (List.mem_singleton.1 hp)
  have hfuel : c.reader.budget < (pass.setOut c).visited.size + (c.reader.budget + 1) := by
    omega
  exact ⟨_, Walk.explores_run hconfined hfuel, rfl⟩

lemma coherent_visit (hc : pass.Coherent c) (hs : source.IsCanonical) :
    (pass.visit c source).Coherent c := by
  obtain ⟨w, hw, heq⟩ := visit_eq hc hs
  have hsound := hw.sound hc.sound_setOut (by simpa using hs)
  rw [heq]
  exact ⟨hsound.pass.files, hsound.pass.unreadable⟩

lemma extends_visit (hc : pass.Coherent c) (hs : source.IsCanonical) :
    pass.Extends (pass.visit c source) := by
  obtain ⟨w, hw, heq⟩ := visit_eq hc hs
  have hextends := hw.extends_pass hc.sound_setOut (by simpa using hs)
  rw [heq]
  exact ⟨hextends.files, hextends.unreadable, hextends.isIncomplete⟩

lemma coherent_visitAll (hc : pass.Coherent c) (hs : ∀ s ∈ sources, s.IsCanonical) :
    (pass.visitAll c sources).Coherent c := by
  induction sources generalizing pass with
  | nil => exact hc
  | cons s rest ih =>
    exact ih (coherent_visit hc (hs s List.mem_cons_self))
      fun q hq => hs q (List.mem_cons_of_mem _ hq)

lemma extends_visitAll (hc : pass.Coherent c) (hs : ∀ s ∈ sources, s.IsCanonical) :
    pass.Extends (pass.visitAll c sources) := by
  induction sources generalizing pass with
  | nil => exact .refl _
  | cons s rest ih =>
    have hcanonical : s.IsCanonical := hs s List.mem_cons_self
    exact (extends_visit hc hcanonical).trans
      (ih (coherent_visit hc hcanonical) fun q hq => hs q (List.mem_cons_of_mem _ hq))

lemma reachable_visitAll (hc : pass.Coherent c) (hs : ∀ s ∈ sources, s.IsCanonical)
    (hp : ∀ s ∈ sources, compare p s ≠ .eq) :
    (pass.visitAll c sources).reachable.get? p = pass.reachable.get? p := by
  induction sources generalizing pass with
  | nil => rfl
  | cons s rest ih =>
    have hcanonical : s.IsCanonical := hs s List.mem_cons_self
    obtain ⟨w, hw, heq⟩ := visit_eq hc hcanonical
    have hreach := hw.reachable_eq hc.sound_setOut (by simpa using hcanonical)
    show ((pass.visit c s).visitAll c rest).reachable.get? p = _
    rw [ih (coherent_visit hc hcanonical) (fun q hq => hs q (List.mem_cons_of_mem _ hq))
      (fun q hq => hp q (List.mem_cons_of_mem _ hq)), heq, OrderedMap.get?_insert,
      if_neg (hp s List.mem_cons_self), hreach]
    rfl

/-- The walk from one of the sources, in the midst of the others. -/
theorem visitAll_append_cons {before after : List Path} (hc : pass.Coherent c)
    (hs : ∀ s ∈ before ++ source :: after, s.IsCanonical)
    (hafter : ∀ s ∈ after, compare source s ≠ .eq) :
    ∃ w, Walk.Explores c [source] ((pass.visitAll c before).setOut c) w ∧
      w.pass.Extends (pass.visitAll c (before ++ source :: after)) ∧
      (pass.visitAll c (before ++ source :: after)).reachable.get? source = some w.visited := by
  have hbefore : ∀ s ∈ before, s.IsCanonical := fun s h => hs s (List.mem_append_left _ h)
  have hsource : source.IsCanonical := hs source (by simp)
  have hrest : ∀ s ∈ after, s.IsCanonical := fun s h => hs s (by simp [h])
  have hcoherent := coherent_visitAll hc hbefore
  obtain ⟨w, hw, heq⟩ := visit_eq hcoherent hsource
  have hvisit := coherent_visit hcoherent hsource
  have hall : pass.visitAll c (before ++ source :: after) =
      ((pass.visitAll c before).visit c source).visitAll c after := by
    rw [visitAll, List.foldl_append]
    rfl
  refine ⟨w, hw, ?_, ?_⟩
  · have hextends := extends_visitAll hvisit hrest
    rw [heq] at hextends
    rw [hall, heq]
    exact ⟨hextends.files, hextends.unreadable, hextends.isIncomplete⟩
  · rw [hall, reachable_visitAll hvisit hrest hafter, heq, OrderedMap.get?_insert_self]

/-! ## Reading the sources -/

/-- What a pass knows once its sources are read: these files, and nothing of where they lead. -/
structure Opened (c : PassContext) (sources : List Path) (pass : Pass) : Prop where
  coherent : pass.Coherent c
  files : ∀ p d, p.IsCanonical → (pass.files.get? p = some d ↔ p ∈ sources ∧ c.draft p = .ok d)
  unreadable : pass.unreadable = ∅
  reachable : pass.reachable = ∅
  isIncomplete : pass.isIncomplete = false

lemma opened_start : start.Opened c [] :=
  ⟨coherent_start, fun _ _ _ => by simp [start], rfl, rfl, rfl⟩

lemma Opened.look? (h : pass.Opened c sources) (hp : p.IsCanonical) :
    pass.look? c p = (c.draft p).toOption := by
  cases hfiles : pass.files.get? p with
  | none => rw [Pass.look?, hfiles]
  | some d =>
    rw [look?_of_get? hfiles, ((h.files p d hp).1 hfiles).2]
    rfl

lemma Opened.read (h : pass.Opened c sources) (hs : source.IsCanonical)
    (hd : c.draft source = .ok d) :
    ∃ pass', pass.read c source = (.ok d, pass') ∧ pass'.Opened c (sources ++ [source]) := by
  have hlook : pass.look? c source = some d := by
    rw [h.look? hs, hd]
    rfl
  obtain ⟨pass', hread, hputs, hflag⟩ := read_of_look? h.coherent hs hlook
  refine ⟨pass', hread, hputs.coherent, fun p e hp => ?_, ?_, ?_, ?_⟩
  · rw [hputs.files, List.mem_append, List.mem_singleton]
    by_cases heq : compare p source = .eq
    · obtain rfl := hp.eq_of_compare hs heq
      rw [if_pos heq, hd]
      simp
    · have hne : p ≠ source := by
        rintro rfl
        exact heq Std.ReflCmp.compare_self
      rw [if_neg heq, h.files p e hp]
      simp [hne]
  · rw [hputs.unreadable, h.unreadable]
  · rw [hputs.reachable, h.reachable]
  · rw [hflag, h.isIncomplete]

/-- Sources that can be read are read. -/
theorem readSources_of_readable {before : List Path} (h : pass.Opened c before)
    (hs : ∀ s ∈ sources, s.IsCanonical)
    (hread : ∀ s ∈ sources, ∃ d, c.draft s = .ok d) :
    ∃ pass', pass.readSources c sources = (.ok (), pass') ∧ pass'.Opened c (before ++ sources) := by
  induction sources generalizing pass before with
  | nil => exact ⟨pass, rfl, by rw [List.append_nil]; exact h⟩
  | cons s rest ih =>
    have hcanonical : s.IsCanonical := hs s List.mem_cons_self
    obtain ⟨d, hd⟩ := hread s List.mem_cons_self
    obtain ⟨pass₁, hone, hopened⟩ := h.read hcanonical hd
    obtain ⟨pass₂, hall, hopened'⟩ := ih hopened
      (fun q hq => hs q (List.mem_cons_of_mem _ hq))
      (fun q hq => hread q (List.mem_cons_of_mem _ hq))
    refine ⟨pass₂, ?_, ?_⟩
    · rw [readSources, hone]
      exact hall
    · rw [List.append_assoc] at hopened'
      exact hopened'

/-- The first source that cannot be read ends the pass.  The sources after it are not tried, so
nothing is told about them. -/
theorem readSources_of_error {before : List Path} (h : pass.Opened c before)
    (hs : ∀ s ∈ sources, s.IsCanonical)
    (hread : ¬ ∀ s ∈ sources, ∃ d, c.draft s = .ok d) :
    ∃ p e pass', pass.readSources c sources = (.error (p, e), pass') ∧ c.draft p = .error e := by
  induction sources generalizing pass before with
  | nil => exact absurd (fun s h => (nomatch h)) hread
  | cons s rest ih =>
    have hcanonical : s.IsCanonical := hs s List.mem_cons_self
    cases hdraft : c.draft s with
    | error e =>
      -- a source that is known has been read, and then it could be read
      have hfiles : pass.files.get? s = none := by
        cases hfiles : pass.files.get? s with
        | none => rfl
        | some d =>
          have hd := ((h.files s d hcanonical).1 hfiles).2
          rw [hdraft] at hd
          cases hd
      exact ⟨s, e, _, by rw [readSources, read_of_error hdraft hfiles], hdraft⟩
    | ok d =>
      obtain ⟨pass₁, hone, hopened⟩ := h.read hcanonical hdraft
      have hnot : ¬ ∀ q ∈ rest, ∃ d, c.draft q = .ok d := by
        intro hall
        refine hread fun q hq => ?_
        rcases List.mem_cons.1 hq with rfl | hq
        · exact ⟨d, hdraft⟩
        · exact hall q hq
      obtain ⟨p, e, pass₂, hall, he⟩ := ih hopened
        (fun q hq => hs q (List.mem_cons_of_mem _ hq)) hnot
      exact ⟨p, e, pass₂, by rw [readSources, hone]; exact hall, he⟩

end Pass

/-! ## Snapshots -/

namespace Pass

variable {c : PassContext} {pass : Pass} {p : Path}

/-- The snapshot of a file is what the pass knows of it. -/
lemma get?_snapshots (hc : pass.Coherent c) (hp : p.IsCanonical) :
    pass.snapshots.get? p = (pass.files.get? p).map fun d => d.snapshot p := by
  rw [snapshots, OrderedMap.get?_mapValues, OrderedMap.get?, Option.map_map]
  cases hfind : pass.files.find? p with
  | none => rfl
  | some e =>
    have hmem : e ∈ pass.files.toList := List.mem_of_find?_eq_some hfind
    have hcompare : compare p e.1 = .eq := by simpa using List.find?_some hfind
    have hkey := hp.eq_of_compare (hc.files e hmem).canonical hcompare
    simp [hkey]

lemma mem_snapshots {e : Path × Snapshot} (he : e ∈ pass.snapshots.toList) :
    ∃ d, (e.1, d) ∈ pass.files.toList ∧ e.2 = d.snapshot e.1 := by
  obtain ⟨e', he', rfl⟩ := List.mem_map.1 he
  exact ⟨e'.2, he', rfl⟩

lemma mem_snapshots_of_get? {d : Draft} (hc : pass.Coherent c) (hp : p.IsCanonical)
    (h : pass.files.get? p = some d) : (p, d.snapshot p) ∈ pass.snapshots.toList := by
  obtain ⟨k, hk, hcompare⟩ := OrderedMap.exists_mem_of_get?_eq_some h
  obtain rfl := hp.eq_of_compare (hc.files _ hk).canonical hcompare
  exact List.mem_map.2 ⟨(p, d), hk, rfl⟩

end Pass

namespace Analysis

variable {c : PassContext} {sources : OrderedSet Path} {pass : Pass} {p : Path} {a : Analysis}

/-- The state tells what the pass knows in the end. -/
lemma snapshot?_ofPass (hc : pass.Coherent c) (hp : p.IsCanonical) :
    (ofPass c sources pass).state.snapshot? p = (pass.files.get? p).map fun d => d.snapshot p :=
  Pass.get?_snapshots hc hp

/-- With sources that can be read, an analysis is the comparison of a pass over them: all sources
are read before the first walk begins, so a walk cannot fail. -/
theorem run_eq_of_readable (hs : ∀ s ∈ sources.toList, s.IsCanonical)
    (hread : ∀ s ∈ sources.toList, ∃ d, c.draft s = .ok d) :
    ∃ pass : Pass, Pass.start.readSources c sources.toList = (.ok (), pass) ∧
      pass.Opened c sources.toList ∧
      run c sources = (.ok (ofPass c sources (pass.visitAll c sources.toList)),
        pass.visitAll c sources.toList) := by
  obtain ⟨pass, hpass, hopened⟩ :=
    Pass.readSources_of_readable Pass.opened_start hs hread
  exact ⟨pass, hpass, hopened, by rw [run, hpass]⟩

theorem run_of_readable (hs : ∀ s ∈ sources.toList, s.IsCanonical)
    (hread : ∀ s ∈ sources.toList, ∃ d, c.draft s = .ok d) :
    ∃ pass : Pass, pass.Opened c sources.toList ∧
      (run c sources).1 = .ok (ofPass c sources (pass.visitAll c sources.toList)) := by
  obtain ⟨pass, -, hopened, heq⟩ := run_eq_of_readable hs hread
  exact ⟨pass, hopened, by rw [heq]⟩

/-- An analysis that succeeds has read all of its sources. -/
theorem readable_of_run (hs : ∀ s ∈ sources.toList, s.IsCanonical)
    (h : (run c sources).1 = .ok a) : ∀ s ∈ sources.toList, ∃ d, c.draft s = .ok d := by
  by_contra hread
  obtain ⟨p, e, pass, hpass, -⟩ :=
    Pass.readSources_of_error Pass.opened_start hs hread
  rw [run, hpass] at h
  cases h

end Analysis

/-! ## The pass behind an analysis -/

namespace PassContext

/-- The analysis `a` is the outcome of a pass over `sources`, which was `pass` when these had been
read, and `last` in the end. -/
structure Passes (c : PassContext) (sources : OrderedSet Path) (pass last : Pass) (a : Analysis) :
    Prop where
  canonical : ∀ s ∈ sources.toList, s.IsCanonical
  readable : ∀ s ∈ sources.toList, ∃ d, c.draft s = .ok d
  opened : pass.Opened c sources.toList
  last_eq : last = pass.visitAll c sources.toList
  outcome : a = Analysis.ofPass c sources last

variable {c : PassContext} {sources : OrderedSet Path} {pass last : Pass} {p : Path} {a : Analysis}

/-- Behind every analysis that succeeds there is a pass.  `Passes` has all that is needed of it, so
that what is said of analyses need not go back to how they are run. -/
theorem passes_of_run (hs : ∀ s ∈ sources.toList, s.IsCanonical)
    (h : Analysis.run c sources = (.ok a, last)) :
    ∃ pass, Pass.start.readSources c sources.toList = (.ok (), pass) ∧
      c.Passes sources pass last a := by
  have hread := Analysis.readable_of_run hs (a := a) (by rw [h])
  obtain ⟨pass, hpass, hopened, heq⟩ := Analysis.run_eq_of_readable hs hread
  rw [h] at heq
  cases heq
  exact ⟨pass, hpass, hs, hread, hopened, rfl, rfl⟩

namespace Passes

lemma sources_eq (h : c.Passes sources pass last a) : a.state.sources = sources := by
  rw [h.outcome]
  rfl

lemma coherent (h : c.Passes sources pass last a) : last.Coherent c := by
  rw [h.last_eq]
  exact Pass.coherent_visitAll h.opened.coherent h.canonical

lemma extends_last (h : c.Passes sources pass last a) : pass.Extends last := by
  rw [h.last_eq]
  exact Pass.extends_visitAll h.opened.coherent h.canonical

lemma snapshot?_eq (h : c.Passes sources pass last a) (hp : p.IsCanonical) :
    a.state.snapshot? p = (last.files.get? p).map fun d => d.snapshot p := by
  rw [h.outcome, Analysis.snapshot?_ofPass h.coherent hp]

/-- The walk from one of the sources, and what came before it.  The walks after it may add to the
files, but what this one has entered is fixed. -/
theorem exists_walk (h : c.Passes sources pass last a) {before after : List Path}
    (hs : sources.toList = before ++ p :: after) :
    ∃ v, Walk.Explores c [p] ((pass.visitAll c before).setOut c) v ∧
      v.pass.Extends last ∧ last.reachable.get? p = some v.visited := by
  have hcanonical := h.canonical
  have hnodup := sources.nodup_toList
  rw [h.last_eq]
  rw [hs] at hcanonical hnodup ⊢
  refine Pass.visitAll_append_cons h.opened.coherent hcanonical fun q hq hcompare => ?_
  have hp : p.IsCanonical := hcanonical p (by simp)
  have hq' : q.IsCanonical := hcanonical q (by simp [hq])
  obtain rfl := hp.eq_of_compare hq' hcompare
  exact (List.nodup_cons.1 (List.nodup_append.1 hnodup).2.1).1 hq

lemma exists_source (h : c.Passes sources pass last a) (hp : p ∈ sources.toList) :
    ∃ d, last.files.get? p = some d := by
  have hcanonical := h.canonical p hp
  obtain ⟨d, hd⟩ := h.readable p hp
  have hopened := (h.opened.files p d hcanonical).2 ⟨hp, hd⟩
  obtain ⟨d', hd', -⟩ := h.extends_last.files p d hcanonical hopened
  exact ⟨d', hd'⟩

lemma draft_of_mem (h : c.Passes sources pass last a) {e : Path × Snapshot}
    (he : e ∈ a.state.files.toList) :
    ∃ d, c.draft e.1 = .ok d ∧ e.2.digest = d.digest ∧ e.2.directives = d.directives := by
  rw [h.outcome] at he
  obtain ⟨d, hd, heq⟩ := Pass.mem_snapshots he
  have hfits := h.coherent.files _ hd
  exact ⟨d.fresh, hfits.fresh, by rw [heq]; rfl, by rw [heq]; rfl⟩

end Passes

end PassContext

end IncludeDeps
