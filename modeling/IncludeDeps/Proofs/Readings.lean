import IncludeDeps.Proofs.Rounds
import IncludeDeps.Proofs.Walk.Turns

/-!
# What is read

A pass counts how often it reads a file, with success or without, and every run notes as many readings.
Which files these are is told by a log beside the pass: `Analysis.readings` has an entry for each time that
the count goes up.

A file that was tried is known from then on, either with its directives or as one that cannot be read, and is
not tried again, whichever walk comes to it.  That is the invariant `Pass.Logs`: the log lists exactly the
files that were tried, each of them once.  A source that cannot be read is not remembered, but with it the
pass ends, so that of such a pass there is only `Pass.Counts` left to say.

`RunM.readings_of_analyse` puts this together with the number of turns that each walk takes.
-/

namespace IncludeDeps

/-! ## The log -/

/-- The file `p`, if between the two states of a pass one more reading was counted. -/
def Pass.counted (before after : Pass) (p : Path) : List Path :=
  if after.reads = before.reads then [] else [p]

/-- The files that `Walk.run` reads, in order: those on its way that the pass did not know, nor
find unreadable before. -/
def Walk.readings (c : PassContext) : (fuel : ℕ) → List Path → Walk → List Path
  | 0, _, _ => []
  | fuel + 1, stack, w =>
    match stack.dropWhile w.visited.contains with
    | [] => []
    | p :: rest =>
      let step := w.enter c p
      w.pass.counted step.2.pass p ++ readings c fuel (step.1 ++ rest) step.2

namespace Pass

/-- The files that `Pass.visit` reads. -/
def readings (c : PassContext) (pass : Pass) (source : Path) : List Path :=
  Walk.readings c (c.reader.budget + 1) [source] (pass.setOut c)

/-- The files that `Pass.visitAll` reads. -/
def readingsAll (c : PassContext) : Pass → List Path → List Path
  | _, [] => []
  | pass, source :: rest => pass.readings c source ++ readingsAll c (pass.visit c source) rest

/-- The files that `Pass.readSources` reads. -/
def readingsOpen (c : PassContext) : Pass → List Path → List Path
  | _, [] => []
  | pass, p :: rest =>
    pass.counted (pass.read c p).2 p ++
      match pass.read c p with
      | (.ok _, pass) => readingsOpen c pass rest
      | (.error _, _) => []

end Pass

/-- The files that `Analysis.run` reads. -/
def Analysis.readings (c : PassContext) (sources : OrderedSet Path) : List Path :=
  Pass.start.readingsOpen c sources.toList ++
    match Pass.start.readSources c sources.toList with
    | (.ok (), pass) => pass.readingsAll c sources.toList
    | (.error _, _) => []

/-- The files that `RunM.analyse` reads. -/
def Run.readings (r : Run) (settings : Settings) (hasher : Hasher) (previous : TaskState)
    (sources : List Path) : List Path :=
  match RunM.absoluteAll r.files sources with
  | .ok l => Analysis.readings (r.context settings hasher previous) (OrderedSet.ofList l)
  | .error _ => []

/-! ## What was tried -/

namespace Pass

variable {c : PassContext} {pass pass' : Pass} {p q source : Path} {d : Draft} {log sources before : List Path}

/-- Whether it was tried to read the file, so that it is known what became of it. -/
def isTried (pass : Pass) (p : Path) : Bool := pass.files.contains p || pass.unreadable.contains p

/-- As many readings were counted as the log has entries, and none is of a file that was read before. -/
structure Counts (pass : Pass) (log : List Path) : Prop where
  nodup : log.Nodup
  canonical : ∀ p ∈ log, p.IsCanonical
  length : pass.reads = log.length

/-- Moreover the log tells of all files that were tried, so it is what was read, up to the order. -/
structure Logs (pass : Pass) (log : List Path) : Prop extends pass.Counts log where
  mem_iff : ∀ p, p.IsCanonical → (p ∈ log ↔ pass.isTried p)

lemma logs_start : start.Logs [] where
  nodup := .nil
  canonical _ h := nomatch h
  length := rfl
  mem_iff _ _ := ⟨nofun, nofun⟩

lemma Logs.congr (h : pass.Logs log) (hfiles : pass'.files = pass.files)
    (hunreadable : pass'.unreadable = pass.unreadable) (hreads : pass'.reads = pass.reads) :
    pass'.Logs log := by
  refine ⟨⟨h.nodup, h.canonical, hreads.trans h.length⟩, fun p hp => ?_⟩
  rw [h.mem_iff p hp, isTried, isTried, hfiles, hunreadable]

/-- A file that was not tried is put to the log. -/
lemma Logs.counts_append (h : pass.Logs log) (hp : p.IsCanonical) (hnew : pass.isTried p = false)
    (hreads : pass'.reads = pass.reads + 1) : pass'.Counts (log ++ pass.counted pass' p) := by
  have hnot : p ∉ log := by
    rw [h.mem_iff p hp, hnew]
    exact Bool.false_ne_true
  rw [counted, if_neg (by rw [hreads]; exact Nat.succ_ne_self _)]
  refine ⟨List.Nodup.append h.nodup (List.nodup_singleton p) ?_, fun q hq => ?_, ?_⟩
  · exact List.disjoint_singleton.2 hnot
  · rcases List.mem_append.1 hq with hq | hq
    · exact h.canonical q hq
    · exact List.mem_singleton.1 hq ▸ hp
  · rw [hreads, h.length, List.length_append, List.length_singleton]

/-- The log goes on when a file is tried that was not tried before, and only then. -/
lemma Logs.append (h : pass.Logs log) (hp : p.IsCanonical)
    (hreads : pass'.reads = if pass.isTried p then pass.reads else pass.reads + 1)
    (htried : ∀ q, q.IsCanonical → (pass'.isTried q ↔ q = p ∨ pass.isTried q)) :
    pass'.Logs (log ++ pass.counted pass' p) := by
  cases hold : pass.isTried p with
  | true =>
    rw [hold, if_pos rfl] at hreads
    rw [counted, if_pos hreads, List.append_nil]
    refine ⟨⟨h.nodup, h.canonical, hreads.trans h.length⟩, fun q hq => ?_⟩
    rw [h.mem_iff q hq, htried q hq, or_iff_right_of_imp]
    rintro rfl
    exact hold
  | false =>
    rw [hold, if_neg Bool.false_ne_true] at hreads
    refine ⟨h.counts_append hp hold hreads, fun q hq => ?_⟩
    rw [counted, if_neg (by rw [hreads]; exact Nat.succ_ne_self _), List.mem_append, List.mem_singleton,
      h.mem_iff q hq, htried q hq, or_comm]

/-! ## Reading sources -/

lemma isTried_iff : pass.isTried p ↔ (pass.files.get? p).isSome ∨ pass.unreadable.contains p := by
  rw [isTried, Bool.or_eq_true, OrderedMap.contains_eq_isSome]

lemma reads_read (c : PassContext) (pass : Pass) (p : Path) : (pass.read c p).2.reads =
    if pass.files.contains p then pass.reads else pass.reads + 1 := by
  rw [OrderedMap.contains_eq_isSome]
  unfold read
  cases hfiles : pass.files.get? p with
  | some d => rfl
  | none =>
    cases hdraft : c.draft p with
    | ok d => rfl
    | error e => rfl

lemma Puts.isTried_iff (h : pass.Puts c p d pass') (hp : p.IsCanonical) (hq : q.IsCanonical) :
    pass'.isTried q ↔ q = p ∨ pass.isTried q := by
  rw [Pass.isTried_iff, Pass.isTried_iff, h.files, h.unreadable]
  by_cases heq : q = p
  · rw [if_pos ((hq.compare_eq_iff hp).2 heq)]
    simp [heq]
  · rw [if_neg fun hcompare => heq ((hq.compare_eq_iff hp).1 hcompare)]
    simp [heq]

lemma Marks.isTried_iff (h : pass.Marks c p pass') (hp : p.IsCanonical) (hq : q.IsCanonical) :
    pass'.isTried q ↔ q = p ∨ pass.isTried q := by
  rw [Pass.isTried_iff, Pass.isTried_iff, h.files, h.unreadable, hq.compare_eq_iff hp, or_left_comm]

lemma Opened.isTried_eq (h : pass.Opened c sources) : pass.isTried p = pass.files.contains p := by
  rw [isTried, h.unreadable, OrderedSet.contains_empty, Bool.or_false]

lemma Opened.not_isTried {e : Fault} (h : pass.Opened c sources) (hp : p.IsCanonical)
    (he : c.draft p = .error e) : pass.isTried p = false := by
  rw [h.isTried_eq, OrderedMap.contains_eq_isSome]
  cases hfiles : pass.files.get? p with
  | none => rfl
  | some d =>
    rw [((h.files p d hp).1 hfiles).2] at he
    cases he

/-- The sources are read once each, up to the first that cannot be read. -/
theorem Logs.readSources (h : pass.Logs log) (hopened : pass.Opened c before)
    (hs : ∀ s ∈ sources, s.IsCanonical) :
    (pass.readSources c sources).2.Counts (log ++ pass.readingsOpen c sources) ∧
      ((pass.readSources c sources).1 = .ok () →
        (pass.readSources c sources).2.Logs (log ++ pass.readingsOpen c sources)) := by
  -- the log grows with the sources that have been read; `before` keeps account of them
  induction sources generalizing pass before log with
  | nil =>
    rw [readingsOpen, List.append_nil]
    exact ⟨h.toCounts, fun _ => h⟩
  | cons s rest ih =>
    have hcanonical : s.IsCanonical := hs s List.mem_cons_self
    have hreads := reads_read c pass s
    rw [← hopened.isTried_eq] at hreads
    cases hdraft : c.draft s with
    | ok d =>
      obtain ⟨pass₁, hread, hopened'⟩ := hopened.read hcanonical hdraft
      have hlook : pass.look? c s = some d := by
        rw [hopened.look? hcanonical, hdraft]
        rfl
      obtain ⟨pass₂, hread', hputs, -⟩ := read_of_look? hopened.coherent hcanonical hlook
      obtain rfl : pass₁ = pass₂ := congrArg Prod.snd (hread.symm.trans hread')
      rw [hread] at hreads
      have hnext := h.append hcanonical hreads fun q hq => hputs.isTried_iff hcanonical hq
      have hrest := ih hnext hopened' fun q hq => hs q (List.mem_cons_of_mem _ hq)
      rw [Pass.readSources, readingsOpen, hread]
      rwa [List.append_assoc] at hrest
    | error e =>
      have hnew := hopened.not_isTried hcanonical hdraft
      have hfiles : pass.files.get? s = none := by
        rw [hopened.isTried_eq, OrderedMap.contains_eq_isSome, Option.isSome_eq_false_iff] at hnew
        exact Option.isNone_iff_eq_none.1 hnew
      have hread := read_of_error hdraft hfiles
      rw [hread, hnew, if_neg Bool.false_ne_true] at hreads
      have hcounts := h.counts_append hcanonical hnew hreads
      rw [Pass.readSources, readingsOpen, hread]
      constructor
      · rwa [List.append_nil]
      · intro hok
        cases hok

end Pass

/-! ## Walking -/

namespace Walk

variable {c : PassContext} {w : Walk} {p q : Path} {log stack : List Path} {fuel : ℕ}

/-- A step tries its file unless that was tried before. -/
lemma reads_enter (c : PassContext) (w : Walk) (p : Path) : (w.enter c p).2.pass.reads =
    if w.pass.isTried p then w.pass.reads else w.pass.reads + 1 := by
  -- only a file that the pass does not know and has not found unreadable is read
  have hheader : (w.pass.readHeader c p).2.reads =
      if w.pass.isTried p then w.pass.reads else w.pass.reads + 1 := by
    have hread := Pass.reads_read c w.pass p
    unfold Pass.readHeader Pass.isTried
    cases hfiles : w.pass.files.contains p with
    | true =>
      rw [hfiles, if_pos rfl] at hread
      simp only [Bool.not_true, Bool.false_and, Bool.false_eq_true, if_false, Bool.true_or, if_true]
      rw [← hread]
      split
      · next heq => rw [heq]
      · next heq => rw [heq]
    | false =>
      rw [hfiles, if_neg Bool.false_ne_true] at hread
      cases hun : w.pass.unreadable.contains p with
      | true => rfl
      | false =>
        simp only [Bool.not_false, Bool.true_and, Bool.false_eq_true, if_false, Bool.or_self]
        rw [← hread]
        split
        · next heq => rw [heq]
        · next heq => rw [heq]
  rw [← hheader]
  unfold enter
  simp only
  split
  · next heq => rw [heq]
  · next heq =>
    split
    · rw [heq]
    · rw [heq]

lemma isTried_enter (hw : w.Sound c) (hp : p.IsCanonical) (hq : q.IsCanonical) :
    (w.enter c p).2.pass.isTried q ↔ q = p ∨ w.pass.isTried q := by
  rcases enter_cases hw hp with ⟨d, -, h⟩ | ⟨-, h⟩
  · exact h.pass.isTried_iff hp hq
  · exact h.pass.isTried_iff hp hq

lemma logs_enter (h : w.pass.Logs log) (hw : w.Sound c) (hp : p.IsCanonical) :
    (w.enter c p).2.pass.Logs (log ++ w.pass.counted (w.enter c p).2.pass p) :=
  h.append hp (reads_enter c w p) fun _ hq => isTried_enter hw hp hq

theorem logs_run (h : w.pass.Logs log) (hw : w.Sound c) (hs : ∀ q ∈ stack, q.IsCanonical) :
    (run c fuel stack w).pass.Logs (log ++ readings c fuel stack w) := by
  induction fuel generalizing stack w log with
  | zero =>
    rw [readings, List.append_nil]
    exact h
  | succ fuel ih =>
    unfold run readings
    cases hstack : stack.dropWhile w.visited.contains with
    | nil =>
      rw [List.append_nil]
      exact h
    | cons p rest =>
      have hleft : ∀ q ∈ p :: rest, q.IsCanonical := fun q hq =>
        hs q ((List.dropWhile_suffix _).subset (hstack ▸ hq))
      have hp : p.IsCanonical := hleft p List.mem_cons_self
      have hrest := ih (logs_enter h hw hp) (sound_enter hw hp) (canonical_push hw hleft)
      rwa [List.append_assoc] at hrest

end Walk

namespace Pass

variable {c : PassContext} {pass : Pass} {p source : Path} {log sources all : List Path}

lemma Logs.visit (h : pass.Logs log) (hc : pass.Coherent c) (hs : source.IsCanonical) :
    (pass.visit c source).Logs (log ++ pass.readings c source) :=
  (Walk.logs_run (w := pass.setOut c) h hc.sound_setOut (by simpa using hs)).congr rfl rfl rfl

/-- No walk reads a file that was read before it. -/
theorem Logs.visitAll (h : pass.Logs log) (hc : pass.Coherent c) (hs : ∀ s ∈ sources, s.IsCanonical) :
    (pass.visitAll c sources).Logs (log ++ pass.readingsAll c sources) := by
  induction sources generalizing pass log with
  | nil =>
    rw [readingsAll, List.append_nil]
    exact h
  | cons s rest ih =>
    have hcanonical := hs s List.mem_cons_self
    have hrest := ih (h.visit hc hcanonical) (coherent_visit hc hcanonical)
      fun q hq => hs q (List.mem_cons_of_mem _ hq)
    rwa [List.append_assoc] at hrest

/-! ## Headers that cannot be read -/

/-- Every header that could not be read is one that the sources lead to. -/
def FailsWithin (sources : List Path) (pass : Pass) : Prop :=
  ∀ p, p.IsCanonical → pass.unreadable.contains p → ∃ s ∈ sources, Relation.ReflTransGen pass.Leads s p

end Pass

lemma Walk.Explores.unreadable_of_not_visited {c : PassContext} {w w' : Walk} {p : Path} {stack : List Path}
    (h : Explores c stack w w') (hw : w.Sound c) (hs : ∀ q ∈ stack, q.IsCanonical)
    (hp : w'.visited.contains p = false) (hun : w'.pass.unreadable.contains p) :
    w.pass.unreadable.contains p := by
  let P : Walk → Prop := fun v =>
    v.visited.contains p = false → v.pass.unreadable.contains p → w.pass.unreadable.contains p
  refine (h.preserves (P := P) ?_ hw hs fun _ => id).2 hp hun
  intro v q hv hq _ hP hnot hin
  obtain ⟨hne, hold⟩ := not_visited_enter.1 hnot
  rcases enter_cases hv hq with ⟨d, -, henter⟩ | ⟨-, hmiss⟩
  · exact hP hold (henter.pass.unreadable ▸ hin)
  · exact hP hold (((hmiss.pass.unreadable p).1 hin).resolve_left hne)

namespace Pass

variable {c : PassContext} {pass : Pass} {source : Path} {sources all : List Path}

lemma FailsWithin.visit (h : pass.FailsWithin all) (hc : pass.Coherent c) (hs : ∀ s ∈ all, s.IsCanonical)
    (hmem : source ∈ all) : (pass.visit c source).FailsWithin all := by
  have hsource := hs source hmem
  obtain ⟨w, hw, heq⟩ := visit_eq hc hsource
  have hsound := hc.sound_setOut
  have hstack : ∀ q ∈ [source], q.IsCanonical := by simpa using hsource
  rw [heq]
  intro p hp hun
  cases hvisited : w.visited.contains p with
  | true =>
    obtain ⟨s, hs, hpath⟩ :=
      (hw.reached hsound hstack hp hvisited).resolve_left fun hstart => nomatch hstart
    obtain rfl := List.mem_singleton.1 hs
    exact ⟨s, hmem, hpath⟩
  | false =>
    have hun' := hw.unreadable_of_not_visited hsound hstack hvisited hun
    obtain ⟨s, hmem', hpath⟩ := h p hp hun'
    exact ⟨s, hmem', (hw.extends_pass hsound hstack).reaches hc (hs s hmem') hpath⟩

lemma FailsWithin.visitAll (h : pass.FailsWithin all) (hc : pass.Coherent c)
    (hs : ∀ s ∈ all, s.IsCanonical) (hsub : sources ⊆ all) : (pass.visitAll c sources).FailsWithin all := by
  induction sources generalizing pass with
  | nil => exact h
  | cons s rest ih =>
    have hmem : s ∈ all := hsub List.mem_cons_self
    exact ih (h.visit hc hs hmem) (coherent_visit hc (hs s hmem))
      fun q hq => hsub (List.mem_cons_of_mem _ hq)

end Pass

/-! ## Analyses -/

/-- Every analysis has read the files that are listed, and none of them twice, whether it succeeds
or stops at a source that cannot be read. -/
theorem Analysis.counts_run {c : PassContext} {sources : OrderedSet Path}
    (hs : ∀ s ∈ sources.toList, s.IsCanonical) : (run c sources).2.Counts (readings c sources) := by
  obtain ⟨hcounts, hlogs⟩ := Pass.logs_start.readSources Pass.opened_start hs
  by_cases hread : ∀ s ∈ sources.toList, ∃ d, c.draft s = .ok d
  · obtain ⟨pass, hpass, hopened⟩ := Pass.readSources_of_readable Pass.opened_start hs hread
    rw [hpass] at hlogs
    have hall := (hlogs rfl).visitAll hopened.coherent hs
    rw [run, readings, hpass]
    exact hall.toCounts
  · obtain ⟨p, e, pass, hpass, -⟩ := Pass.readSources_of_error Pass.opened_start hs hread
    rw [hpass] at hcounts
    rw [run, readings, hpass, List.append_nil]
    exact hcounts

namespace PassContext.Passes

variable {c : PassContext} {sources : OrderedSet Path} {pass last : Pass} {a : Analysis} {q : Path}
  {log : List Path}

/-- A pass that succeeds has read the files that are listed, and tried no others. -/
lemma logs (h : c.Passes sources pass last a)
    (hpass : Pass.start.readSources c sources.toList = (.ok (), pass)) :
    last.Logs (Analysis.readings c sources) := by
  have hlogs := (Pass.logs_start.readSources (Pass.opened_start (c := c)) h.canonical).2
  rw [hpass] at hlogs
  have hall := (hlogs rfl).visitAll h.opened.coherent h.canonical
  rw [h.last_eq, Analysis.readings, hpass]
  exact hall

/-- The headers that could not be read are all that the sources lead to and that cannot be read. -/
lemma unreadable_iff (h : c.Passes sources pass last a) (hq : q.IsCanonical) :
    last.unreadable.contains q ↔
      (∃ e, c.draft q = .error e) ∧ ∃ s ∈ sources.toList, Relation.ReflTransGen last.Leads s q := by
  constructor
  · intro hun
    refine ⟨h.coherent.draft_of_unreadable hq hun, ?_⟩
    -- nothing was found unreadable while the sources were read, and no walk goes beyond what they
    -- lead to
    have hbegin : pass.FailsWithin sources.toList := by
      intro p _ hun
      rw [h.opened.unreadable] at hun
      cases hun
    have hlast := hbegin.visitAll h.opened.coherent h.canonical (List.Subset.refl _)
    rw [← h.last_eq] at hlast
    exact hlast q hq hun
  · rintro ⟨⟨e, he⟩, s, hs, hpath⟩
    have hsource := h.canonical s hs
    -- a pass is done with a source once the walk from it has ended, and with all that this leads to
    have hdone : last.IsDone c s := by
      obtain ⟨before, after, hsplit⟩ := List.append_of_mem hs
      have hbefore : ∀ s ∈ before, s.IsCanonical := fun s hs => h.canonical s (by simp [hsplit, hs])
      have hcoherent := Pass.coherent_visitAll h.opened.coherent hbefore
      obtain ⟨v, hv, hextends, -⟩ := h.exists_walk hsplit
      have hin := hv.visited_of_mem List.mem_cons_self
      exact hextends.isDone hsource
        (hv.isDone hcoherent.sound_setOut (by simpa using hsource) rfl hsource hin)
    rcases (h.isDone_of_reaches hsource hdone hpath).2 with ⟨d, hd, -⟩ | ⟨-, hun⟩
    · rw [(h.coherent.fits hq hd).fresh] at he
      cases he
    · exact hun

/-- The files that were read are those of the state, and the headers that cannot be read.  There
are no others, since a pass does not forget what it has read, and tries a file that cannot be read
once. -/
theorem exists_perm (h : c.Passes sources pass last a) (hlog : last.Logs log) :
    ∃ unreadable : List Path,
      (∀ q, q ∈ unreadable ↔ (∃ e, c.draft q = .error e) ∧
        ∃ s ∈ a.state.sources.toList, Relation.ReflTransGen a.state.Leads s q) ∧
      unreadable.Nodup ∧ log.Perm (a.state.files.keys ++ unreadable) := by
  have hmem : ∀ q, q ∈ last.unreadable.toList ↔ q.IsCanonical ∧ last.unreadable.contains q := by
    intro q
    constructor
    · exact fun hq => ⟨(h.coherent.unreadable q hq).1, OrderedSet.contains_of_mem hq⟩
    · rintro ⟨hq, hun⟩
      exact (OrderedSet.mem_iff_of_canonical (fun q hq => (h.coherent.unreadable q hq).1) hq).2 hun
  refine ⟨last.unreadable.toList, fun q => ?_, last.unreadable.nodup_toList, ?_⟩
  · rw [hmem, h.sources_eq]
    constructor
    · rintro ⟨hq, hun⟩
      obtain ⟨herror, s, hs, hpath⟩ := (h.unreadable_iff hq).1 hun
      exact ⟨herror, s, hs, (h.reaches_iff (h.canonical s hs)).2 hpath⟩
    · rintro ⟨herror, s, hs, hpath⟩
      obtain ⟨hq, hpath'⟩ := h.reaches (h.canonical s hs) hpath
      exact ⟨hq, (h.unreadable_iff hq).2 ⟨herror, s, hs, hpath'⟩⟩
  · have hkeys : a.state.files.keys.Nodup := (OrderedSet.ofKeys a.state.files).nodup_toList
    have hdisjoint : a.state.files.keys.Disjoint last.unreadable.toList := by
      intro q hfile hun
      obtain ⟨d, hd⟩ := h.draft_of_mem_keys hfile
      have hnot := h.coherent.not_unreadable (h.mem_keys_iff.1 hfile).1 hd
      rw [OrderedSet.contains_of_mem hun] at hnot
      cases hnot
    -- neither list has a file twice, so it is enough that they have the same files
    refine (List.perm_ext_iff_of_nodup hlog.nodup (hkeys.append last.unreadable.nodup_toList hdisjoint)).2
      fun q => ?_
    have htried : q ∈ log ↔ q.IsCanonical ∧ last.isTried q := by
      constructor
      · exact fun hq => ⟨hlog.canonical q hq, (hlog.mem_iff q (hlog.canonical q hq)).1 hq⟩
      · exact fun hq => (hlog.mem_iff q hq.1).2 hq.2
    rw [htried, List.mem_append, h.mem_keys_iff, hmem, Pass.isTried_iff, Option.isSome_iff_exists,
      and_or_left]

/-- Of every file, the state has at least the entries that were recorded at any time. -/
lemma recorded_le (h : c.Passes sources pass last a) {pass' : Pass} (hextends : pass'.Extends last)
    (hq : q.IsCanonical) :
    pass'.recorded q ≤ ((a.state.snapshot? q).map fun f => f.resolved.length).getD 0 := by
  rw [h.snapshot?_eq hq, Pass.recorded]
  cases hfiles : pass'.files.get? q with
  | none => exact Nat.zero_le _
  | some d =>
    obtain ⟨d', hd', -, hbegin, -⟩ := hextends.files q d hq hfiles
    rw [hd']
    exact hbegin.length_le

/-- The walk from a source is made by turns, and there are not many of them: one for the source,
and one for each entry that is recorded for a file on the way.  These entries are still there in
the final state. -/
theorem exists_ends (h : c.Passes sources pass last a) {before after : List Path} {source : Path}
    (hsplit : sources.toList = before ++ source :: after) : ∃ n w,
      Walk.Ends c ([source], (pass.visitAll c before).setOut c) n w ∧
        (pass.visitAll c before).visit c source =
          { w.pass with reachable := w.pass.reachable.insert source w.visited } ∧
        n ≤ 1 + w.load ∧
        ∀ p ∈ w.visited.toList, w.pass.recorded p ≤
          ((a.state.snapshot? p).map fun f => f.resolved.length).getD 0 := by
  have hsource : source.IsCanonical := h.canonical source (by simp [hsplit])
  have hcoherent : (pass.visitAll c before).Coherent c :=
    Pass.coherent_visitAll h.opened.coherent fun s hs => h.canonical s (by simp [hsplit, hs])
  obtain ⟨w, hw, hextends, -⟩ := h.exists_walk hsplit
  obtain ⟨w', hw', hvisit⟩ := Pass.visit_eq hcoherent hsource
  obtain rfl := hw.unique hw'
  obtain ⟨n, hends, hle⟩ := hw.exists_ends_le hcoherent hsource
  have hentered := (hw.sound hcoherent.sound_setOut (by simpa using hsource)).visited
  exact ⟨n, w, hends, hvisit, hle, fun p hp => h.recorded_le hextends (hentered p hp)⟩

end PassContext.Passes

namespace RunM

variable {settings : Settings} {hasher : Hasher} {previous : TaskState} {sources l : List Path}
  {r r' : Run} {a : Analysis} {x : Except (Path × Fault) Analysis}

/-- Every reading of the pass is noted. -/
lemma count_analyse (habsolute : absoluteAll r.files sources = .ok l)
    (h : (analyse settings hasher previous sources).run.run r = (x, r')) :
    r'.count .snapshot = r.count .snapshot +
      (Analysis.run (r.context settings hasher previous) (OrderedSet.ofList l)).2.reads := by
  unfold analyse at h
  simp only [ExceptT.run, ExceptT.mk, StateT.run, habsolute] at h
  obtain ⟨-, rfl⟩ := Prod.mk.inj h
  rw [Run.count, Run.count, List.count_append, List.count_append, List.count_replicate_self]
  rw [Run.context]
  split
  · simp [Nat.add_comm]
  · simp [Nat.add_comm]

/-- An analysis, whether it succeeds or not, reads no file twice, and notes every reading.

When it succeeds, the walk from each of its sources has taken no more turns than one and the number of all
entries that are recorded for the files that it entered, with the lists as they are when the walk ends, from
which nothing is taken away later.  What was read are the files of the state and the headers that the sources
lead to and that cannot be read. -/
theorem readings_of_analyse (h : (analyse settings hasher previous sources).run.run r = (x, r')) :
    let c := r.context settings hasher previous
    let log := r.readings settings hasher previous sources
    log.Nodup ∧ (∀ p ∈ log, p.IsCanonical) ∧ r'.count .snapshot = r.count .snapshot + log.length ∧
      ∀ a, x = .ok a →
        (∃ pass, Pass.start.readSources c a.state.sources.toList = (.ok (), pass) ∧
          a = Analysis.ofPass c a.state.sources (pass.visitAll c a.state.sources.toList) ∧
          ∀ before source after, a.state.sources.toList = before ++ source :: after → ∃ n w,
            Walk.Ends c ([source], (pass.visitAll c before).setOut c) n w ∧
              (pass.visitAll c before).visit c source =
                { w.pass with reachable := w.pass.reachable.insert source w.visited } ∧
              n ≤ 1 + (w.visited.toList.map w.pass.recorded).sum ∧
              ∀ p ∈ w.visited.toList, w.pass.recorded p ≤
                ((a.state.snapshot? p).map fun f => f.resolved.length).getD 0) ∧
        ∃ unreadable : List Path, (∀ q, q ∈ unreadable ↔ (∃ e, c.draft q = .error e) ∧
            ∃ s ∈ a.state.sources.toList, Relation.ReflTransGen a.state.Leads s q) ∧
          unreadable.Nodup ∧ log.length = a.state.files.size + unreadable.length := by
  cases habsolute : absoluteAll r.files sources with
  | error e =>
    have heq : (x, r') = (.error e, r) := by
      rw [← h]
      unfold analyse
      simp only [ExceptT.run, ExceptT.mk, StateT.run, habsolute]
    cases heq
    simp only [Run.readings, habsolute]
    refine ⟨.nil, fun p hp => absurd hp List.not_mem_nil, rfl, ?_⟩
    intro a ha
    cases ha
  | ok l =>
    have hcanonical : ∀ s ∈ (OrderedSet.ofList l).toList, s.IsCanonical := fun s hs =>
      isCanonical_of_absoluteAll habsolute s (OrderedSet.mem_ofList hs)
    have hcounts := Analysis.counts_run (c := r.context settings hasher previous) hcanonical
    simp only [Run.readings, habsolute]
    refine ⟨hcounts.nodup, hcounts.canonical, ?_, ?_⟩
    · rw [count_analyse habsolute h, hcounts.length]
    · rintro a rfl
      rcases hrun : Analysis.run (r.context settings hasher previous) (OrderedSet.ofList l)
        with ⟨y, last⟩
      obtain ⟨phases, heq⟩ := analyse_run habsolute hrun
      rw [h] at heq
      cases heq
      obtain ⟨pass, hpass, hpasses⟩ := PassContext.passes_of_run hcanonical hrun
      have hlogs := hpasses.logs hpass
      have houtcome := hpasses.outcome
      rw [hpasses.last_eq] at houtcome
      refine ⟨⟨pass, ?_⟩, ?_⟩
      · rw [hpasses.sources_eq]
        exact ⟨hpass, houtcome, fun before source after hsplit => hpasses.exists_ends hsplit⟩
      · obtain ⟨unreadable, hmem, hnodup, hperm⟩ := hpasses.exists_perm hlogs
        refine ⟨unreadable, hmem, hnodup, ?_⟩
        rw [hperm.length_eq, List.length_append]
        exact congrArg (· + unreadable.length) (List.length_map _)

/-- Two files that include each other are read once each, and so is a header that both walks come to and that
cannot be read. -/
theorem readings_of_analyse_tangled : ∃ a r', ∃ unreadable : List Path,
    (analyse ⟨[], true, ∅⟩ (hasherWithout ⟨"/p/c.h"⟩) ∅ [⟨"b.h"⟩, ⟨"./a.c"⟩]).run.run tangled =
        (.ok a, r') ∧
      r'.count .snapshot = 3 ∧ a.state.files.size = 2 ∧ unreadable.length = 1 ∧
      ∀ q, q ∈ unreadable ↔
        (∃ e, (tangled.context ⟨[], true, ∅⟩ (hasherWithout ⟨"/p/c.h"⟩) ∅).draft q = .error e) ∧
          ∃ s ∈ a.state.sources.toList, Relation.ReflTransGen a.state.Leads s q := by
  let run := (analyse ⟨[], true, ∅⟩ (hasherWithout ⟨"/p/c.h"⟩) ∅ [⟨"b.h"⟩, ⟨"./a.c"⟩]).run.run tangled
  have hfindings : run.1.toOption.any fun a => a.state.files.size = 2 ∧ run.2.count .snapshot = 3 := by
    decide +kernel
  obtain ⟨a, r', hrun, hfacts⟩ := Except.exists_of_any hfindings
  obtain ⟨hsize, hcount⟩ := of_decide_eq_true hfacts
  obtain ⟨-, -, hnoted, hlast⟩ := readings_of_analyse hrun
  obtain ⟨-, unreadable, hmem, -, hlength⟩ := hlast a rfl
  have hthree : r'.count .snapshot = 3 :=
    (congrArg (fun x => x.2.count .snapshot) hrun).symm.trans hcount
  have hstart : tangled.count .snapshot = 0 := rfl
  exact ⟨a, r', unreadable, hrun, hthree, hsize, by omega, hmem⟩

end RunM

end IncludeDeps
