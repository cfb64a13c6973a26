import IncludeDeps.Proofs.Run

/-!
# What a state covers

The files that a state remembers are those that its sources lead to along the includes that it
remembers, as far as they can be read.

What is known of the includes of a file grows while other sources are walked, so closure is an
invariant of passes and not of walks: `Pass.IsClosed` and `Pass.IsRooted` hold once the sources are
read, every walk keeps them, and `Analysis.Covers` is what they come to in the end.

`Pass.mem_found_iff` tells which headers are found, and `RunM.covers_of_analyse` is the result.
-/

namespace IncludeDeps

/-- Where one relation is part of another on a closed set, so is its closure. -/
lemma reflTransGen_on {α : Type} {r r' : α → α → Prop} {P : α → Prop} {s q : α}
    (hstep : ∀ p q, P p → r p q → P q ∧ r' p q) (hs : P s) (h : Relation.ReflTransGen r s q) :
    P q ∧ Relation.ReflTransGen r' s q := by
  induction h with
  | refl => exact ⟨hs, .refl⟩
  | tail _ hlast ih =>
    obtain ⟨hp, hpath⟩ := ih
    obtain ⟨hq, hlast'⟩ := hstep _ _ hp hlast
    exact ⟨hq, hpath.tail hlast'⟩

namespace Pass

variable {c : PassContext} {pass pass' : Pass} {p q source : Path} {d : Draft}
  {sources all : List Path}

/-! ## What a pass has followed -/

/-- The file `p` is known, and one of its includes was resolved to `q`. -/
def Leads (pass : Pass) (p q : Path) : Prop := ∃ d, pass.files.get? p = some d ∧ q ∈ d.next

/-- Whatever a known file leads to was entered as well, or could not be read. -/
def IsClosed (c : PassContext) (pass : Pass) : Prop :=
  ∀ p q, p.IsCanonical → pass.Leads p q → pass.IsDone c q

/-- Every file that is known is one that the sources lead to. -/
def IsRooted (sources : List Path) (pass : Pass) : Prop :=
  ∀ p d, p.IsCanonical → pass.files.get? p = some d →
    ∃ s ∈ sources, Relation.ReflTransGen pass.Leads s p

lemma Coherent.canonical_of_leads (hc : pass.Coherent c) (hp : p.IsCanonical)
    (h : pass.Leads p q) : q.IsCanonical := by
  obtain ⟨d, hd, hq⟩ := h
  exact ((hc.fits hp hd).files q hq).1

lemma Extends.leads (h : pass.Extends pass') (hp : p.IsCanonical) (hleads : pass.Leads p q) :
    pass'.Leads p q := by
  obtain ⟨d, hd, hq⟩ := hleads
  obtain ⟨d', hd', -, hbegin, -⟩ := h.files p d hp hd
  exact ⟨d', hd', (hbegin.filterMap ResolvedInclude.file?).subset hq⟩

lemma Extends.reaches (h : pass.Extends pass') (hc : pass.Coherent c) (hp : p.IsCanonical)
    (hpath : Relation.ReflTransGen pass.Leads p q) : Relation.ReflTransGen pass'.Leads p q := by
  refine (reflTransGen_on (P := Path.IsCanonical) (fun p q hp hleads => ?_) hp hpath).2
  exact ⟨hc.canonical_of_leads hp hleads, h.leads hp hleads⟩

/-! ## Sources that were read -/

lemma Opened.not_leads (h : pass.Opened c sources) (hp : p.IsCanonical) : ¬ pass.Leads p q := by
  rintro ⟨d, hd, hq⟩
  rw [Draft.next, PassContext.resolved_of_draft ((h.files p d hp).1 hd).2] at hq
  cases hq

lemma Opened.isClosed (h : pass.Opened c sources) : pass.IsClosed c :=
  fun _ _ hp hleads => absurd hleads (h.not_leads hp)

lemma Opened.isRooted (h : pass.Opened c sources) : pass.IsRooted sources :=
  fun p d hp hd => ⟨p, ((h.files p d hp).1 hd).1, .refl⟩

/-! ## Walks -/

/-- A walk keeps a pass closed.  What it has entered is closed by itself, and the includes of all
other files are those that were known before. -/
lemma IsClosed.visit (h : pass.IsClosed c) (hc : pass.Coherent c) (hs : source.IsCanonical) :
    (pass.visit c source).IsClosed c := by
  obtain ⟨w, hw, heq⟩ := visit_eq hc hs
  have hsound := hc.sound_setOut
  have hstack : ∀ q ∈ [source], q.IsCanonical := by simpa using hs
  rw [heq]
  intro p q hp hleads
  have hq : q.IsCanonical := by
    have hcoherent := (hw.sound hsound hstack).pass
    exact hcoherent.canonical_of_leads hp hleads
  show w.pass.IsDone c q
  cases hvisited : w.visited.contains p with
  | true => exact hw.isDone hsound hstack rfl hq (hw.closed hsound hstack hp hvisited rfl hleads)
  | false =>
    obtain ⟨d, hd, hnext⟩ := hleads
    have hd' : pass.files.get? p = some d := by
      rw [← hd]
      exact (hw.get?_of_not_visited hsound hstack hvisited).symm
    exact (hw.extends_pass hsound hstack).isDone hq (h p q hp ⟨d, hd', hnext⟩)

/-- A walk from one of the sources keeps a pass rooted in them. -/
lemma IsRooted.visit (h : pass.IsRooted sources) (hc : pass.Coherent c)
    (hs : ∀ s ∈ sources, s.IsCanonical) (hmem : source ∈ sources) :
    (pass.visit c source).IsRooted sources := by
  have hsource := hs source hmem
  obtain ⟨w, hw, heq⟩ := visit_eq hc hsource
  have hsound := hc.sound_setOut
  have hstack : ∀ q ∈ [source], q.IsCanonical := by simpa using hsource
  rw [heq]
  intro p d hp hd
  cases hvisited : w.visited.contains p with
  | true =>
    obtain ⟨s, hs, hpath⟩ :=
      (hw.reached hsound hstack hp hvisited).resolve_left fun hstart => nomatch hstart
    obtain rfl := List.mem_singleton.1 hs
    exact ⟨s, hmem, hpath⟩
  | false =>
    have hd' : pass.files.get? p = some d := by
      rw [← hd]
      exact (hw.get?_of_not_visited hsound hstack hvisited).symm
    obtain ⟨s, hmem', hpath⟩ := h p d hp hd'
    exact ⟨s, hmem', (hw.extends_pass hsound hstack).reaches hc (hs s hmem') hpath⟩

/-- All walks together keep a pass closed and rooted: with a file it knows all that the file leads
to, or that this cannot be read, and it knows nothing that the sources do not lead to. -/
theorem isClosed_visitAll (h : pass.IsClosed c) (hroot : pass.IsRooted all) (hc : pass.Coherent c)
    (hs : ∀ s ∈ all, s.IsCanonical) (hsub : sources ⊆ all) :
    (pass.visitAll c sources).IsClosed c ∧ (pass.visitAll c sources).IsRooted all := by
  induction sources generalizing pass with
  | nil => exact ⟨h, hroot⟩
  | cons s rest ih =>
    have hmem : s ∈ all := hsub List.mem_cons_self
    have hcanonical := hs s hmem
    exact ih (h.visit hc hcanonical) (hroot.visit hc hs hmem) (coherent_visit hc hcanonical)
      fun q hq => hsub (List.mem_cons_of_mem _ hq)

end Pass

/-! ## The headers that were found -/

/-- A canonical path is one of canonical paths if another spelling of it is. -/
lemma OrderedSet.mem_iff_of_canonical {s : OrderedSet Path} {p : Path}
    (hs : ∀ q ∈ s.toList, q.IsCanonical) (hp : p.IsCanonical) : p ∈ s.toList ↔ s.contains p :=
  mem_iff_contains fun q hq hcompare => hp.eq_of_compare (hs q hq) hcompare

namespace Pass

variable {c : PassContext} {pass : Pass} {p q : Path} {target : String}
  {m : OrderedMap String (OrderedSet Path)} {e : String × Path} {entries : List (String × Path)}

/-- Puts a header to those that were found under the same path. -/
def collect (m : OrderedMap String (OrderedSet Path)) (e : String × Path) :
    OrderedMap String (OrderedSet Path) :=
  m.insert e.1 (((m.get? e.1).getD ∅).insert e.2)

/-- The header `q` was found under the path `target`, be it with other headers: the same path may
be found in different directories. -/
def Holds (m : OrderedMap String (OrderedSet Path)) (target : String) (q : Path) : Prop :=
  ∃ l, m.get? target = some l ∧ q ∈ l.toList

/-- All headers that were found have canonical paths, and none is missing where there is an
entry. -/
structure IsTidy (m : OrderedMap String (OrderedSet Path)) : Prop where
  canonical : ∀ target q, Holds m target q → q.IsCanonical
  nonempty : ∀ target l, m.get? target = some l → ∃ q, q ∈ l.toList

lemma holds_collect (hm : IsTidy m) (he : e.2.IsCanonical) (hq : q.IsCanonical) :
    Holds (collect m e) target q ↔ Holds m target q ∨ (target, q) = e := by
  have hset : ∀ q ∈ ((m.get? e.1).getD ∅).toList, Holds m e.1 q := by
    intro q hq
    cases hget : m.get? e.1 with
    | none =>
      rw [hget] at hq
      cases hq
    | some l =>
      rw [hget] at hq
      exact ⟨l, hget, hq⟩
  have hcanonical : ∀ q ∈ (((m.get? e.1).getD ∅).insert e.2).toList, q.IsCanonical := by
    intro q hq
    rcases OrderedSet.mem_insert hq with rfl | hq
    · exact he
    · exact hm.canonical _ _ (hset q hq)
  -- only what is found under the path of the new pair changes
  by_cases htarget : target = e.1
  · subst htarget
    have hget : (collect m e).get? e.1 = some (((m.get? e.1).getD ∅).insert e.2) :=
      OrderedMap.get?_insert_self _ _ _
    have hmem : q ∈ (((m.get? e.1).getD ∅).insert e.2).toList ↔
        q = e.2 ∨ q ∈ ((m.get? e.1).getD ∅).toList := by
      rw [OrderedSet.mem_iff_of_canonical hcanonical hq, OrderedSet.contains_insert,
        hq.compare_eq_iff he, ← OrderedSet.mem_iff_of_canonical
          (fun q hq => hm.canonical _ _ (hset q hq)) hq]
    constructor
    · rintro ⟨l, hl, hin⟩
      rw [hget] at hl
      cases hl
      rcases hmem.1 hin with rfl | hin
      · exact .inr rfl
      · exact .inl (hset q hin)
    · intro h
      refine ⟨_, hget, hmem.2 ?_⟩
      rcases h with ⟨l, hl, hin⟩ | h
      · rw [hl]
        exact .inr hin
      · exact .inl (congrArg Prod.snd h)
  · have hget : (collect m e).get? target = m.get? target := by
      rw [collect, OrderedMap.get?_insert, if_neg]
      exact fun h => htarget (Std.LawfulEqCmp.eq_of_compare h)
    rw [Holds, hget]
    constructor
    · exact .inl
    · rintro (h | h)
      · exact h
      · exact absurd (congrArg Prod.fst h) htarget

lemma isTidy_empty : IsTidy ∅ where
  canonical _ _ h := by
    obtain ⟨l, hl, -⟩ := h
    cases hl
  nonempty _ _ h := nomatch h

lemma IsTidy.collect (hm : IsTidy m) (he : e.2.IsCanonical) : IsTidy (collect m e) := by
  constructor
  · rintro target q ⟨l, hl, hq⟩
    rw [Pass.collect, OrderedMap.get?_insert] at hl
    split at hl
    · cases hl
      rcases OrderedSet.mem_insert hq with rfl | hq
      · exact he
      · cases hget : m.get? e.1 with
        | none =>
          rw [hget] at hq
          cases hq
        | some l =>
          rw [hget] at hq
          exact hm.canonical e.1 q ⟨l, hget, hq⟩
    · exact hm.canonical target q ⟨l, hl, hq⟩
  · intro target l hl
    rw [Pass.collect, OrderedMap.get?_insert] at hl
    split at hl
    · cases hl
      have hin : (((m.get? e.1).getD ∅).insert e.2).contains e.2 :=
        (OrderedSet.contains_insert _ _ _).2 (.inl Std.ReflCmp.compare_self)
      obtain ⟨q, hq, -⟩ := OrderedSet.contains_iff.1 hin
      exact ⟨q, hq⟩
    · exact hm.nonempty target l hl

lemma holds_foldl_collect (hm : IsTidy m) (he : ∀ e ∈ entries, e.2.IsCanonical) :
    IsTidy (entries.foldl collect m) ∧ ∀ target q, q.IsCanonical →
      (Holds (entries.foldl collect m) target q ↔ Holds m target q ∨ (target, q) ∈ entries) := by
  induction entries generalizing m with
  | nil => exact ⟨hm, fun _ _ _ => by simp⟩
  | cons e rest ih =>
    have hcanonical := he e List.mem_cons_self
    obtain ⟨htidy, hholds⟩ := ih (hm.collect hcanonical) fun f hf => he f (List.mem_cons_of_mem _ hf)
    refine ⟨htidy, fun target q hq => ?_⟩
    rw [List.foldl_cons, hholds target q hq, holds_collect hm hcanonical hq, List.mem_cons, or_assoc]

/-- The headers that could be read, each with a path under which it was found. -/
def pairs (pass : Pass) : List (String × Path) :=
  (pass.snapshots.values.flatMap fun s => s.resolved.filterMap fun r =>
    r.file?.map fun file => (r.candidate, file)).filter fun e => !pass.unreadable.contains e.2

lemma found_eq : pass.found = pass.pairs.foldl collect ∅ := rfl

lemma mem_pairs_iff : (target, q) ∈ pass.pairs ↔ pass.unreadable.contains q = false ∧
    ∃ e ∈ pass.snapshots.toList, ∃ r ∈ e.2.resolved, r.candidate = target ∧ r.file? = some q := by
  rw [pairs, List.mem_filter, Bool.not_eq_true', and_comm]
  refine and_congr_right fun _ => ?_
  rw [List.mem_flatMap]
  constructor
  · rintro ⟨s, hs, hin⟩
    obtain ⟨e, he, rfl⟩ := List.mem_map.1 hs
    obtain ⟨r, hr, heq⟩ := List.mem_filterMap.1 hin
    obtain ⟨file, hfile, hpair⟩ := Option.map_eq_some_iff.1 heq
    cases hpair
    exact ⟨e, he, r, hr, rfl, hfile⟩
  · rintro ⟨e, he, r, hr, rfl, hfile⟩
    refine ⟨e.2, List.mem_map_of_mem he, List.mem_filterMap.2 ⟨r, hr, ?_⟩⟩
    rw [hfile]
    rfl

lemma leads_of_mem_snapshots {e : Path × Snapshot} {r : ResolvedInclude}
    (he : e ∈ pass.snapshots.toList) (hr : r ∈ e.2.resolved) (hq : r.file? = some q) :
    pass.Leads e.1 q := by
  obtain ⟨d, hd, hsnapshot⟩ := mem_snapshots he
  rw [hsnapshot] at hr
  exact ⟨d, OrderedMap.get?_of_entry hd, List.mem_filterMap.2 ⟨r, hr, hq⟩⟩

lemma Coherent.canonical_of_mem_snapshots (hc : pass.Coherent c) {e : Path × Snapshot}
    (he : e ∈ pass.snapshots.toList) : e.1.IsCanonical := by
  obtain ⟨d, hd, -⟩ := mem_snapshots he
  exact (hc.files _ hd).canonical

lemma Coherent.canonical_of_mem_pairs (hc : pass.Coherent c) (he : e ∈ pass.pairs) :
    e.2.IsCanonical := by
  obtain ⟨-, f, hf, r, hr, -, hfile⟩ := mem_pairs_iff.1 he
  exact hc.canonical_of_leads (hc.canonical_of_mem_snapshots hf) (leads_of_mem_snapshots hf hr hfile)

lemma Coherent.isTidy_found (hc : pass.Coherent c) : IsTidy pass.found :=
  (holds_foldl_collect isTidy_empty fun _ he => hc.canonical_of_mem_pairs he).1

/-- The headers that were found are those that could be read, under all paths for which they were
found.  One header may have several paths, and one path may stand for several headers, if different
files include it. -/
theorem mem_found_iff (hc : pass.Coherent c) :
    Holds pass.found target q ↔ pass.unreadable.contains q = false ∧
      ∃ e ∈ pass.snapshots.toList, ∃ r ∈ e.2.resolved, r.candidate = target ∧ r.file? = some q := by
  have hholds := (holds_foldl_collect isTidy_empty fun _ he => hc.canonical_of_mem_pairs he).2
  rw [← mem_pairs_iff]
  constructor
  · intro h
    have hq := hc.isTidy_found.canonical target q h
    rw [found_eq, hholds target q hq] at h
    refine h.resolve_left fun h => ?_
    obtain ⟨l, hl, -⟩ := h
    cases hl
  · intro h
    rw [found_eq, hholds target q (hc.canonical_of_mem_pairs h)]
    exact .inr h

end Pass

/-! ## The state -/

/-- The file `p` is remembered, and one of its includes was resolved to `q`. -/
def TaskState.Leads (s : TaskState) (p q : Path) : Prop := ∃ f, s.snapshot? p = some f ∧ q ∈ f.files

/-- The state of an analysis tells of exactly what its sources lead to. -/
structure Analysis.Covers (a : Analysis) (c : PassContext) : Prop where
  source : ∀ s ∈ a.state.sources.toList, (a.state.snapshot? s).isSome
  file : ∀ p, p ∈ a.state.files.keys ↔ (∃ d, c.draft p = .ok d) ∧
    ∃ s ∈ a.state.sources.toList, Relation.ReflTransGen a.state.Leads s p
  next : ∀ p q, p ∈ a.state.files.keys → a.state.Leads p q →
    q ∈ a.state.files.keys ∨ q ∉ a.state.sources.toList ∧ ∃ e, c.draft q = .error e
  path : ∀ e ∈ a.state.files.toList, e.2.path = e.1
  found : ∀ target q, (∃ l, a.found.get? target = some l ∧ q ∈ l.toList) ↔
    q ∈ a.state.files.keys ∧ ∃ e ∈ a.state.files.toList, ∃ r ∈ e.2.resolved,
      r.candidate = target ∧ r.file? = some q
  found_nonempty : ∀ target l, a.found.get? target = some l → ∃ q, q ∈ l.toList

namespace PassContext.Passes

variable {c : PassContext} {sources : OrderedSet Path} {pass last : Pass} {p q : Path}
  {a : Analysis}

lemma isClosed (h : c.Passes sources pass last a) :
    last.IsClosed c ∧ last.IsRooted sources.toList := by
  rw [h.last_eq]
  exact Pass.isClosed_visitAll h.opened.isClosed h.opened.isRooted h.opened.coherent h.canonical
    (List.Subset.refl _)

lemma leads_iff (h : c.Passes sources pass last a) (hp : p.IsCanonical) :
    a.state.Leads p q ↔ last.Leads p q := by
  rw [TaskState.Leads, h.snapshot?_eq hp]
  constructor
  · rintro ⟨f, hf, hq⟩
    obtain ⟨d, hd, rfl⟩ := Option.map_eq_some_iff.1 hf
    exact ⟨d, hd, hq⟩
  · rintro ⟨d, hd, hq⟩
    exact ⟨d.snapshot p, by rw [hd]; rfl, hq⟩

lemma reaches (h : c.Passes sources pass last a) (hp : p.IsCanonical)
    (hpath : Relation.ReflTransGen a.state.Leads p q) :
    q.IsCanonical ∧ Relation.ReflTransGen last.Leads p q := by
  refine reflTransGen_on (P := Path.IsCanonical) (fun p q hp hleads => ?_) hp hpath
  have hleads' := (h.leads_iff hp).1 hleads
  exact ⟨h.coherent.canonical_of_leads hp hleads', hleads'⟩

/-- The files of the state are those that the pass knows in the end. -/
lemma mem_keys_iff (h : c.Passes sources pass last a) :
    p ∈ a.state.files.keys ↔ p.IsCanonical ∧ ∃ d, last.files.get? p = some d := by
  rw [h.outcome]
  constructor
  · intro hp
    obtain ⟨e, he, rfl⟩ := List.mem_map.1 hp
    obtain ⟨d, hd, -⟩ := Pass.mem_snapshots he
    exact ⟨(h.coherent.files _ hd).canonical, d, OrderedMap.get?_of_entry hd⟩
  · rintro ⟨hp, d, hd⟩
    exact List.mem_map.2 ⟨_, Pass.mem_snapshots_of_get? h.coherent hp hd, rfl⟩

lemma mem_keys_of_isDone (h : c.Passes sources pass last a) (hp : p.IsCanonical)
    (hdone : last.IsDone c p) (hread : ∃ d, c.draft p = .ok d) : p ∈ a.state.files.keys := by
  rcases hdone with ⟨d, hd, -⟩ | ⟨⟨e, he⟩, -⟩
  · exact h.mem_keys_iff.2 ⟨hp, d, hd⟩
  · obtain ⟨d, hd⟩ := hread
    rw [he] at hd
    cases hd

lemma draft_of_mem_keys (h : c.Passes sources pass last a) (hp : p ∈ a.state.files.keys) :
    ∃ d, c.draft p = .ok d := by
  obtain ⟨hcanonical, d, hd⟩ := h.mem_keys_iff.1 hp
  exact ⟨d.fresh, (h.coherent.fits hcanonical hd).fresh⟩

lemma mem_keys_of_mem (h : c.Passes sources pass last a) (hp : p ∈ sources.toList) :
    p ∈ a.state.files.keys :=
  h.mem_keys_iff.2 ⟨h.canonical p hp, h.exists_source hp⟩

/-- What the sources lead to is remembered, if it can be read. -/
lemma mem_keys_of_reaches (h : c.Passes sources pass last a) {s : Path} (hs : s ∈ sources.toList)
    (hpath : Relation.ReflTransGen a.state.Leads s p) (hread : ∃ d, c.draft p = .ok d) :
    p ∈ a.state.files.keys := by
  have hcanonical := h.canonical s hs
  cases hpath.cases_tail with
  | inl heq => exact heq ▸ h.mem_keys_of_mem hs
  | inr hstep =>
    obtain ⟨q, hpath', hleads⟩ := hstep
    have hq := (h.reaches hcanonical hpath').1
    have hleads' := (h.leads_iff hq).1 hleads
    exact h.mem_keys_of_isDone (h.coherent.canonical_of_leads hq hleads')
      (h.isClosed.1 q p hq hleads') hread

/-- The outcome of a pass covers what its sources lead to.  Everything is told in terms of the
entries that are recorded: a header that no entry leads to is not missed here, although a
preprocessor may come to it. -/
theorem covers (h : c.Passes sources pass last a) : a.Covers c where
  source s hs := by
    rw [h.sources_eq] at hs
    obtain ⟨d, hd⟩ := h.exists_source hs
    rw [h.snapshot?_eq (h.canonical s hs), hd]
    rfl
  file p := by
    rw [h.sources_eq]
    constructor
    · intro hp
      refine ⟨h.draft_of_mem_keys hp, ?_⟩
      obtain ⟨hcanonical, d, hd⟩ := h.mem_keys_iff.1 hp
      obtain ⟨s, hs, hpath⟩ := h.isClosed.2 p d hcanonical hd
      refine ⟨s, hs, (reflTransGen_on (P := Path.IsCanonical) (fun p q hp hleads => ?_)
        (h.canonical s hs) hpath).2⟩
      exact ⟨h.coherent.canonical_of_leads hp hleads, (h.leads_iff hp).2 hleads⟩
    · rintro ⟨hread, s, hs, hpath⟩
      exact h.mem_keys_of_reaches hs hpath hread
  next p q hp hleads := by
    have hcanonical := (h.mem_keys_iff.1 hp).1
    have hleads' := (h.leads_iff hcanonical).1 hleads
    have hq := h.coherent.canonical_of_leads hcanonical hleads'
    -- a file that was entered is known if it can be read, and is no source if it cannot
    cases hdraft : c.draft q with
    | ok d =>
      exact .inl (h.mem_keys_of_isDone hq (h.isClosed.1 p q hcanonical hleads') ⟨d, hdraft⟩)
    | error e =>
      refine .inr ⟨fun hsource => ?_, e, rfl⟩
      rw [h.sources_eq] at hsource
      obtain ⟨d, hd⟩ := h.readable q hsource
      rw [hdraft] at hd
      cases hd
  path e he := by
    rw [h.outcome] at he
    obtain ⟨d, -, hd⟩ := Pass.mem_snapshots he
    rw [hd]
    rfl
  found target q := by
    rw [h.outcome]
    -- where there is an entry, to be found is to be readable, and that is to be a file of the
    -- state
    refine (Pass.mem_found_iff h.coherent).trans (and_congr_left fun hentry => ?_)
    obtain ⟨e, he, r, hr, -, hq⟩ := hentry
    have hcanonical := h.coherent.canonical_of_mem_snapshots he
    have hleads := Pass.leads_of_mem_snapshots he hr hq
    have hq := h.coherent.canonical_of_leads hcanonical hleads
    rw [← h.outcome]
    constructor
    · intro hreadable
      rcases h.isClosed.1 e.1 q hcanonical hleads with ⟨d, hd, -⟩ | ⟨-, hun⟩
      · exact h.mem_keys_iff.2 ⟨hq, d, hd⟩
      · rw [hreadable] at hun
        cases hun
    · intro hkey
      obtain ⟨d, hd⟩ := h.draft_of_mem_keys hkey
      exact h.coherent.not_unreadable hq hd
  found_nonempty target l hl := by
    rw [h.outcome] at hl
    exact h.coherent.isTidy_found.nonempty target l hl

end PassContext.Passes

namespace RunM

variable {settings : Settings} {hasher : Hasher} {previous : TaskState} {sources : List Path}
  {r r' : Run} {a : Analysis}

/-- An analysis that succeeds remembers the canonical forms of its sources, and covers exactly what
they lead to, whatever the previous state is and whichever lookups are remembered.  To lead to a
file is meant by the entries that are recorded: the state is closed under them, as far as files can
be read, and there is nothing else in it. -/
theorem covers_of_analyse (h : (analyse settings hasher previous sources).run.run r = (.ok a, r')) :
    (∀ p, p ∈ a.state.sources.toList ↔
        ∃ s ∈ sources, ∃ q, r.files.absolute s = .ok q ∧ q.normalize = p) ∧
      a.Covers (r.context settings hasher previous) := by
  obtain ⟨l, pass, last, habsolute, -, hpasses, -⟩ := passes_of_analyse h
  refine ⟨fun p => ?_, hpasses.covers⟩
  rw [hpasses.sources_eq]
  exact mem_ofList_absoluteAll habsolute

/-- A source and a header that include each other, the header by an expression, and another header. -/
def tangled : Run where
  files := Workspace.ofTexts "p"
    [("a.c", "#define SELF \"a.c\"\n#include \"b.h\"\n#include \"c.h\"\n"),
      ("b.h", "#include SELF\n"), ("c.h", "")]

/-- A hasher that fails on one header. -/
def hasherWithout (p : Path) : Hasher := fun w q =>
  if q = p then .error .notFound else contentHasher w q

/-- The header that can be read is reached by the walk only, the other one is left out. -/
theorem covers_tangled : ∃ a r',
    (analyse ⟨[], true, ∅⟩ (hasherWithout ⟨"/p/c.h"⟩) ∅ [⟨"./a.c"⟩]).run.run tangled = (.ok a, r') ∧
      a.state.sources.toList = [⟨"/p/a.c"⟩] ∧ a.state.files.keys = [⟨"/p/a.c"⟩, ⟨"/p/b.h"⟩] ∧
      a.Covers (tangled.context ⟨[], true, ∅⟩ (hasherWithout ⟨"/p/c.h"⟩) ∅) := by
  have hrun := Except.prod_eq_ok_get (x := (analyse ⟨[], true, ∅⟩ (hasherWithout ⟨"/p/c.h"⟩) ∅
    [⟨"./a.c"⟩]).run.run tangled) (by decide +kernel)
  exact ⟨_, _, hrun, by decide +kernel, by decide +kernel, (covers_of_analyse hrun).2⟩

end RunM

end IncludeDeps
