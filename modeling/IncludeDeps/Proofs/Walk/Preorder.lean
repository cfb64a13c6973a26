import IncludeDeps.Proofs.Run

/-!
# The walk as a recursion

A walk keeps the files that it has yet to enter on a stack.  Said recursively, it is the depth-first
preorder of the include graph: a file is entered, and then one after another all headers that its
includes were resolved to, each with everything that it leads to.  Here this recursion is a definition
of its own, and a pass is proved to come to the same.

* `Tour.visit` is the recursion, with a bound on its depth; `Survey.all` is its use for all sources;
* `Survey.Reflects` relates what the recursion knows to what a pass knows: they know the same of every
  file, except that a pass reads the sources before it walks;
* `Tour.exists_visit` tells that the two stay together, and that the bound is not reached;
* `RunM.analyse_eq_survey` is the outcome for an analysis.

What ties the recursion to a stack is `Walk.Explores.append_iff`: the headers of a file come to an end
before anything that was on the stack below them.
-/

namespace IncludeDeps

/-! ## The recursion -/

/-- What the recursion knows of the files: the counterpart of a pass, with the snapshots as they
will be remembered. -/
structure Survey where
  /-- The snapshots. -/
  snapshots : OrderedMap Path Snapshot := ∅
  /-- The files whose includes were resolved. -/
  followed : OrderedSet Path := ∅
  /-- The files that could not be read. -/
  unreadable : OrderedSet Path := ∅
  /-- The files that each source leads to, itself among them. -/
  reachable : OrderedMap Path (OrderedSet Path) := ∅
  /-- Whether some expression could not be expanded completely. -/
  isIncomplete : Bool := false

/-- The recursion in the midst of the files of one source: the counterpart of a walk, without a
stack. -/
structure Tour where
  /-- What is known of the files. -/
  survey : Survey
  /-- The macros that were seen. -/
  macros : MacroTable
  /-- The files that were visited. -/
  visited : OrderedSet Path

namespace Survey

/-- The snapshot of a file, which is taken unless there is one; none if the file cannot be read. -/
def take (c : PassContext) (s : Survey) (p : Path) : Option Snapshot × Survey :=
  match s.snapshots.get? p with
  | some x => (some x, s)
  | none =>
    match c.draft p with
    | .ok d => (some (d.snapshot p), { s with snapshots := s.snapshots.insert p (d.snapshot p) })
    | .error _ => (none, { s with unreadable := s.unreadable.insert p })

/-- Resolves the includes of a file against the macros, if that was never done or some of them are
expressions.  What is new comes to the end of its list. -/
def follow (c : PassContext) (macros : MacroTable) (s : Survey) (x : Snapshot) : Snapshot × Survey :=
  if s.followed.contains x.path && !x.directives.hasComputedIncludes then (x, s)
  else
    let resolution := c.search.resolveAll macros x.path x.directives
    let x := { x with resolved := resolution.resolved.foldl addNew x.resolved }
    (x, { s with
      snapshots := s.snapshots.insert x.path x
      followed := s.followed.insert x.path
      isIncomplete := s.isIncomplete || !resolution.isComplete })

end Survey

namespace Tour

/-- Visits a file and all that it leads to; no answer if that goes deeper than `depth`. -/
def visit (c : PassContext) : (depth : Nat) → Tour → Path → Option Tour
  | 0, _, _ => none
  | depth + 1, t, p =>
    if t.visited.contains p then some t
    else
      let visited := t.visited.insert p
      match t.survey.take c p with
      | (none, survey) => some ⟨survey, t.macros, visited⟩
      | (some x, survey) =>
        let macros := t.macros.defineAll x.directives.macros
        let (x, survey) := survey.follow c macros x
        x.files.foldlM (visit c depth) ⟨survey, macros, visited⟩

/-- The recursion at the beginning of a source: only the configured macros are defined. -/
def setOut (c : PassContext) (s : Survey) : Tour := ⟨s, MacroTable.ofMap c.settings.macros, ∅⟩

end Tour

namespace Survey

/-- Visits a source and all that it leads to. -/
def source (c : PassContext) (depth : Nat) (s : Survey) (source : Path) : Option Survey :=
  ((Tour.setOut c s).visit c depth source).map fun t =>
    { t.survey with reachable := t.survey.reachable.insert source t.visited }

/-- Visits the sources one after another. -/
def all (c : PassContext) (depth : Nat) (sources : List Path) : Option Survey :=
  sources.foldlM (source c depth) {}

/-! ## What is known of a file -/

variable {c : PassContext} {s : Survey} {p q : Path} {d : Draft} {t : MacroTable}
  {sources : List Path} {pass : Pass}

/-- A file as the recursion knows it, or else as it is read. -/
def look? (c : PassContext) (s : Survey) (p : Path) : Option Draft :=
  match s.snapshots.get? p with
  | some x => some ⟨x.digest, x.directives, x.resolved, s.followed.contains p⟩
  | none => (c.draft p).toOption

/-- Every snapshot is kept under its own canonical path. -/
structure Sound (s : Survey) : Prop where
  snapshots : ∀ e ∈ s.snapshots.toList, e.1.IsCanonical ∧ e.2.path = e.1
  followed : ∀ p, s.followed.contains p → s.snapshots.contains p
  unreadable : ∀ p ∈ s.unreadable.toList, p.IsCanonical

lemma sound_start : ({} : Survey).Sound :=
  ⟨fun _ h => (nomatch h), fun _ h => (nomatch h), fun _ h => (nomatch h)⟩

lemma Sound.path_eq {x : Snapshot} (hs : s.Sound) (hp : p.IsCanonical)
    (h : s.snapshots.get? p = some x) : x.path = p := by
  obtain ⟨k, hk, hcompare⟩ := OrderedMap.exists_mem_of_get?_eq_some h
  obtain ⟨hcanonical, hpath⟩ := hs.snapshots _ hk
  rw [hpath, hp.eq_of_compare hcanonical hcompare]

lemma Sound.insert {x : Snapshot} {s' : Survey} (hs : s.Sound) (hx : x.path.IsCanonical)
    (hsnapshots : s'.snapshots = s.snapshots.insert x.path x)
    (hfollowed : ∀ q, s'.followed.contains q → compare q x.path = .eq ∨ s.followed.contains q)
    (hunreadable : s'.unreadable = s.unreadable) : s'.Sound where
  snapshots e he := by
    rw [hsnapshots] at he
    rcases OrderedMap.mem_insert he with he | ⟨hv, hk | ⟨hk, old, hold⟩⟩
    · exact hs.snapshots e he
    · rw [hv, hk]
      exact ⟨hx, rfl⟩
    · have hkey := hx.eq_of_compare (hs.snapshots _ hold).1 hk
      rw [hv, ← hkey]
      exact ⟨hx, rfl⟩
  followed q hq := by
    rw [hsnapshots, OrderedMap.contains_eq_isSome, OrderedMap.get?_insert]
    split
    · rfl
    · next hne =>
      rw [← OrderedMap.contains_eq_isSome]
      exact hs.followed q ((hfollowed q hq).resolve_left hne)
  unreadable q hq := hs.unreadable q (hunreadable ▸ hq)

/-! ## One file -/

/-- What taking the snapshot of a file that can be read changes. -/
structure Takes (s : Survey) (p : Path) (d : Draft) (s' : Survey) : Prop where
  sound : s'.Sound
  snapshots : ∀ q, s'.snapshots.get? q =
    if compare q p = .eq then some (d.snapshot p) else s.snapshots.get? q
  followed : s'.followed = s.followed
  resolved : s.followed.contains p = d.isResolved
  unreadable : s'.unreadable = s.unreadable
  reachable : s'.reachable = s.reachable
  isIncomplete : s'.isIncomplete = s.isIncomplete

/-- What visiting a file that can be read changes, before its headers are visited. -/
structure Enters (c : PassContext) (s : Survey) (p : Path) (d : Draft) (t : MacroTable)
    (s' : Survey) : Prop where
  sound : s'.Sound
  snapshots : ∀ q, s'.snapshots.get? q =
    if compare q p = .eq then some ((d.entered c.search t p).snapshot p) else s.snapshots.get? q
  followed : ∀ q, s'.followed.contains q ↔ compare q p = .eq ∨ s.followed.contains q
  unreadable : s'.unreadable = s.unreadable
  reachable : s'.reachable = s.reachable
  isIncomplete : s'.isIncomplete =
    (s.isIncomplete || !(c.search.resolveAll t p d.directives).isComplete)

lemma Sound.take_of_look? (hs : s.Sound) (hp : p.IsCanonical) (h : s.look? c p = some d) :
    ∃ s', s.take c p = (some (d.snapshot p), s') ∧ s.Takes p d s' := by
  unfold look? at h
  cases hsnapshot : s.snapshots.get? p with
  | some x =>
    rw [hsnapshot] at h
    cases h
    have hx : (⟨x.digest, x.directives, x.resolved, s.followed.contains p⟩ : Draft).snapshot p = x := by
      rw [← hs.path_eq hp hsnapshot]
      rfl
    refine ⟨s, by rw [take, hsnapshot, hx], hs, fun q => ?_, rfl, rfl, rfl, rfl, rfl⟩
    split
    · next hq => rw [OrderedMap.get?_congr hq, hsnapshot, hx]
    · rfl
  | none =>
    rw [hsnapshot] at h
    have hdraft : c.draft p = .ok d := Except.eq_ok_of_toOption h
    have hnot : s.followed.contains p = false := by
      rw [Bool.eq_false_iff]
      intro hfollowed
      have hknown := hs.followed p hfollowed
      rw [OrderedMap.contains_eq_isSome, hsnapshot] at hknown
      cases hknown
    refine ⟨{ s with snapshots := s.snapshots.insert p (d.snapshot p) }, ?_, ?_, ?_, rfl, ?_, rfl, rfl,
      rfl⟩
    · rw [take, hsnapshot, hdraft]
    · exact hs.insert (x := d.snapshot p) hp rfl (fun q hq => .inr hq) rfl
    · exact fun q => OrderedMap.get?_insert s.snapshots _ _ _
    · rw [hnot, PassContext.isResolved_of_draft hdraft]

lemma Takes.follow {s' : Survey} (h : s.Takes p d s') (hp : p.IsCanonical) :
    ∃ s'', s'.follow c t (d.snapshot p) = ((d.entered c.search t p).snapshot p, s'') ∧
      s.Enters c p d t s'' := by
  -- both decide by the same question: whether the includes have been resolved and depend on no
  -- macro
  have hflag : s'.followed.contains p = d.isResolved := by rw [h.followed, h.resolved]
  by_cases hdone : (d.isResolved && !d.directives.hasComputedIncludes) = true
  · have hresolved := (Bool.and_eq_true_iff.1 hdone).1
    have hlit : d.directives.hasComputedIncludes = false := by
      simpa using (Bool.and_eq_true_iff.1 hdone).2
    have hsame := Draft.entered_of_done (s := c.search) (p := p) (t := t) hresolved hlit
    refine ⟨s', ?_, h.sound, ?_, fun q => ?_, h.unreadable, h.reachable, ?_⟩
    · rw [hsame, Survey.follow]
      exact if_pos (hflag ▸ hdone)
    · rw [hsame]
      exact h.snapshots
    · rw [h.followed]
      refine ⟨.inr, ?_⟩
      rintro (hq | hq)
      · rw [OrderedSet.contains_congr hq, h.resolved, hresolved]
      · exact hq
    · rw [h.isIncomplete, Search.resolveAll_of_literal hlit]
      simp
  · have hopen : d.isResolved = false ∨ d.directives.hasComputedIncludes := by
      rw [Bool.and_eq_true_iff, Bool.not_eq_true'] at hdone
      cases hresolved : d.isResolved with
      | false => exact .inl rfl
      | true => exact .inr (Bool.of_not_eq_false fun hlit => hdone ⟨hresolved, hlit⟩)
    have hsame := Draft.entered_of_open (s := c.search) (p := p) (t := t) hopen
    have hstep : s'.follow c t (d.snapshot p) = ((d.entered c.search t p).snapshot p,
        { s' with
          snapshots := s'.snapshots.insert p ((d.entered c.search t p).snapshot p)
          followed := s'.followed.insert p
          isIncomplete :=
            s'.isIncomplete || !(c.search.resolveAll t p d.directives).isComplete }) := by
      rw [hsame, Survey.follow]
      exact if_neg (hflag ▸ hdone)
    refine ⟨_, hstep, ?_, fun q => ?_, fun q => ?_, h.unreadable, h.reachable, ?_⟩
    · refine h.sound.insert (x := (d.entered c.search t p).snapshot p) hp rfl (fun q hq => ?_) rfl
      exact (OrderedSet.contains_insert _ _ q).1 hq
    · rw [OrderedMap.get?_insert, h.snapshots]
      split
      · rfl
      · rfl
    · rw [OrderedSet.contains_insert, h.followed]
    · simp only [h.isIncomplete]

/-! ## What a pass knows -/

/-- The recursion knows what a pass knows.  Only the sources may be known to the pass alone, which
has read them before. -/
structure Reflects (c : PassContext) (sources : List Path) (s : Survey) (pass : Pass) : Prop where
  sound : s.Sound
  coherent : pass.Coherent c
  look : ∀ p, p.IsCanonical → pass.look? c p = s.look? c p
  known : ∀ p, p.IsCanonical →
    (pass.files.contains p ↔ s.snapshots.contains p ∨ p ∈ sources)
  unreadable : ∀ p, pass.unreadable.contains p ↔ s.unreadable.contains p
  reachable : pass.reachable = s.reachable
  isIncomplete : pass.isIncomplete = s.isIncomplete

/-- The two know the same of a file again once both have entered it. -/
lemma Reflects.enter {w : Walk} {step : List Path × Walk} {s' : Survey}
    (h : Reflects c sources s w.pass) (hp : p.IsCanonical) (hwalk : w.Enters c p d step)
    (henter : s.Enters c p d step.2.macros s') : Reflects c sources s' step.2.pass where
  sound := henter.sound
  coherent := hwalk.pass.coherent
  look q hq := by
    rw [Pass.look?, Survey.look?, hwalk.pass.files, henter.snapshots]
    by_cases heq : compare q p = .eq
    · obtain rfl := hq.eq_of_compare hp heq
      have hfollowed : s'.followed.contains q = true := (henter.followed q).2 (.inl heq)
      have hdone : (d.entered c.search step.2.macros q).isResolved = true := Draft.isResolved_entered
      rw [if_pos heq, if_pos heq, hfollowed, ← hdone]
      rfl
    · have hfollowed : s'.followed.contains q = s.followed.contains q := by
        rw [Bool.eq_iff_iff, henter.followed]
        simp [heq]
      have hlook := h.look q hq
      rw [Pass.look?, Survey.look?] at hlook
      rw [if_neg heq, if_neg heq, hfollowed, hlook]
  known q hq := by
    have hknown := h.known q hq
    rw [OrderedMap.contains_eq_isSome, OrderedMap.contains_eq_isSome] at hknown ⊢
    rw [hwalk.pass.files, henter.snapshots]
    by_cases heq : compare q p = .eq
    · simp [heq]
    · rw [if_neg heq, if_neg heq]
      exact hknown
  unreadable q := by rw [hwalk.pass.unreadable, henter.unreadable, h.unreadable]
  reachable := by rw [hwalk.pass.reachable, henter.reachable, h.reachable]
  isIncomplete := by rw [hwalk.isIncomplete, henter.isIncomplete, h.isIncomplete]

lemma Sound.take_of_error (hs : s.Sound) (hp : p.IsCanonical) (h : s.look? c p = none) :
    s.take c p = (none, { s with unreadable := s.unreadable.insert p }) ∧
      ({ s with unreadable := s.unreadable.insert p } : Survey).Sound := by
  unfold look? at h
  cases hsnapshot : s.snapshots.get? p with
  | some x =>
    rw [hsnapshot] at h
    cases h
  | none =>
    rw [hsnapshot] at h
    cases hdraft : c.draft p with
    | ok d =>
      rw [hdraft] at h
      cases h
    | error e =>
      refine ⟨by rw [take, hsnapshot, hdraft], hs.snapshots, hs.followed, fun q hq => ?_⟩
      rcases OrderedSet.mem_insert hq with rfl | hq
      · exact hp
      · exact hs.unreadable q hq

lemma Reflects.miss {w : Walk} {step : List Path × Walk} (h : Reflects c sources s w.pass)
    (hsound : ({ s with unreadable := s.unreadable.insert p } : Survey).Sound)
    (hwalk : w.Misses c p step) :
    Reflects c sources { s with unreadable := s.unreadable.insert p } step.2.pass where
  sound := hsound
  coherent := hwalk.pass.coherent
  look q hq := by
    have hlook := h.look q hq
    rw [Pass.look?] at hlook ⊢
    rw [hwalk.pass.files, hlook]
    rfl
  known q hq := by
    rw [hwalk.pass.files]
    exact h.known q hq
  unreadable q := by rw [hwalk.pass.unreadable, OrderedSet.contains_insert, h.unreadable]
  reachable := hwalk.pass.reachable.trans h.reachable
  isIncomplete := hwalk.isIncomplete.trans h.isIncomplete

end Survey

namespace Tour

open Walk (Explores Confined)

variable {c : PassContext} {sources : List Path} {source : Path} {t : Tour} {w : Walk}
  {depth : Nat} {p : Path} {ps : List Path}

/-- A tour and a walk that know the same and have come the same way. -/
structure Mirrors (c : PassContext) (sources : List Path) (t : Tour) (w : Walk) : Prop where
  survey : t.survey.Reflects c sources w.pass
  macros : t.macros = w.macros
  visited : t.visited = w.visited

/-- A tour has arrived at `t'`, and a walk that set out from `w` with the given stack at the same. -/
def Arrives (c : PassContext) (sources : List Path) (source : Path) (stack : List Path) (w : Walk)
    (t' : Tour) : Prop :=
  ∃ w', Explores c stack w w' ∧ t'.Mirrors c sources w' ∧ Confined c source [] w' ∧
    w.visited.size ≤ w'.visited.size

/-- Files that are visited one after another are a stack that is walked through. -/
lemma exists_foldlM
    (hvisit : ∀ (t : Tour) (w : Walk) (p : Path), t.Mirrors c sources w → Confined c source [p] w →
      c.reader.budget < w.visited.size + depth →
      ∃ t', t.visit c depth p = some t' ∧ Arrives c sources source [p] w t')
    (ht : t.Mirrors c sources w) (hw : Confined c source ps w)
    (hdepth : c.reader.budget < w.visited.size + depth) :
    ∃ t', ps.foldlM (visit c depth) t = some t' ∧ Arrives c sources source ps w t' := by
  induction ps generalizing t w with
  | nil => exact ⟨t, rfl, w, .done w, ht, hw, le_rfl⟩
  | cons p rest ih =>
    have hone : Confined c source [p] w :=
      ⟨hw.sound, fun q hq => hw.canonical q (by simp [List.mem_singleton.1 hq]), hw.visited,
        fun q hq => hw.stack q (by simp [List.mem_singleton.1 hq])⟩
    obtain ⟨t₁, ht₁, w₁, hexplores, hmirrors, hconfined, hsize⟩ := hvisit t w p ht hone hdepth
    have hrest : Confined c source rest w₁ :=
      ⟨hconfined.sound, fun q hq => hw.canonical q (List.mem_cons_of_mem _ hq), hconfined.visited,
        fun q hq => hw.stack q (List.mem_cons_of_mem _ hq)⟩
    obtain ⟨t₂, ht₂, w₂, hexplores', hmirrors', hconfined', hsize'⟩ := ih hmirrors hrest (by omega)
    refine ⟨t₂, ?_, w₂, hexplores.append hexplores', hmirrors', hconfined', hsize.trans hsize'⟩
    rw [List.foldlM_cons, ht₁]
    exact ht₂

/-- The recursion comes to an end, and to the same as the walk with a stack.  How deep it may go is
bounded by the files that are left, as it never goes into a file that it has entered. -/
theorem exists_visit (ht : t.Mirrors c sources w) (hw : Confined c source [p] w)
    (hdepth : c.reader.budget < w.visited.size + depth) :
    ∃ t', t.visit c depth p = some t' ∧ Arrives c sources source [p] w t' := by
  induction depth generalizing t w p with
  | zero =>
    have hsize := hw.size_le
    omega
  | succ depth ih =>
    have hp : p.IsCanonical := hw.canonical p List.mem_cons_self
    have hnil : Confined c source [] w := ⟨hw.sound, nofun, hw.visited, nofun⟩
    cases hvisited : w.visited.contains p with
    | true =>
      refine ⟨t, ?_, w, .skip hvisited (.done w), ht, hnil, le_rfl⟩
      rw [visit, ht.visited, if_pos hvisited]
    | false =>
      have hsize : (w.enter c p).2.visited.size = w.visited.size + 1 := by
        rw [Walk.visited_enter, OrderedSet.size_insert hvisited]
      have hnot : ¬ t.visited.contains p = true := by
        rw [ht.visited, hvisited]
        exact Bool.false_ne_true
      have hstack : Confined c source ((w.enter c p).1 ++ []) (w.enter c p).2 := hw.enter
      rcases Walk.enter_cases hw.sound hp with ⟨d, hd, henter⟩ | ⟨hd, hmiss⟩
      · rw [ht.survey.look p hp] at hd
        obtain ⟨s₁, htake, htakes⟩ := ht.survey.sound.take_of_look? hp hd
        obtain ⟨s₂, hfollow, hs₂⟩ := htakes.follow (c := c) (t := (w.enter c p).2.macros) hp
        have hmirrors : (⟨s₂, (w.enter c p).2.macros, t.visited.insert p⟩ : Tour).Mirrors c sources
            (w.enter c p).2 :=
          ⟨ht.survey.enter hp henter hs₂, rfl, by rw [Walk.visited_enter, ht.visited]⟩
        have hnext : ((d.entered c.search (w.enter c p).2.macros p).snapshot p).files =
            (w.enter c p).1 ++ [] := by
          rw [henter.next, List.append_nil]
          rfl
        obtain ⟨t', ht', w', hexplores, hmirrors', hconfined, hsize'⟩ :=
          exists_foldlM (fun t w p => ih) hmirrors hstack (by omega)
        refine ⟨t', ?_, w', .enter hvisited hexplores, hmirrors', hconfined, by omega⟩
        have hmacros : t.macros.defineAll (d.snapshot p).directives.macros =
            (w.enter c p).2.macros := by
          rw [henter.macros, ht.macros]
          rfl
        rw [visit, if_neg hnot, htake]
        simp only [hmacros, hfollow, hnext]
        exact ht'
      · rw [ht.survey.look p hp] at hd
        obtain ⟨htake, hsound⟩ := ht.survey.sound.take_of_error hp hd
        refine ⟨_, by rw [visit, if_neg hnot, htake], (w.enter c p).2, ?_, ?_, ?_, by omega⟩
        · refine .enter hvisited ?_
          rw [hmiss.next]
          exact .done _
        · refine ⟨ht.survey.miss hsound hmiss, ?_, ?_⟩
          · rw [hmiss.macros, ht.macros]
          · rw [hmiss.visited, ht.visited]
        · exact ⟨hstack.sound, nofun, hstack.visited, nofun⟩

end Tour

/-! ## All sources -/

namespace Survey

variable {c : PassContext} {sources rest : List Path} {p : Path} {s : Survey} {pass : Pass} {depth : Nat}

/-- Once the sources are read, a pass knows what the recursion begins with, and the sources. -/
lemma reflects_start (h : pass.Opened c sources) (hread : ∀ p ∈ sources, ∃ d, c.draft p = .ok d) :
    Reflects c sources {} pass where
  sound := sound_start
  coherent := h.coherent
  look p hp := h.look? hp
  known p hp := by
    rw [OrderedMap.contains_eq_isSome, Option.isSome_iff_exists]
    constructor
    · rintro ⟨d, hd⟩
      exact .inr ((h.files p d hp).1 hd).1
    · rintro (hp' | hp')
      · cases hp'
      · obtain ⟨d, hd⟩ := hread p hp'
        exact ⟨d, (h.files p d hp).2 ⟨hp', hd⟩⟩
  unreadable p := by rw [h.unreadable]
  reachable := h.reachable
  isIncomplete := h.isIncomplete

/-- The recursion from one source comes to what the walk from it comes to. -/
lemma Reflects.exists_source (h : Reflects c sources s pass) (hp : p.IsCanonical)
    (hdepth : c.reader.budget < depth) :
    ∃ s', s.source c depth p = some s' ∧ Reflects c sources s' (pass.visit c p) := by
  obtain ⟨w, hwalk, hvisit⟩ := Pass.visit_eq h.coherent hp
  have hconfined : Walk.Confined c p [p] (pass.setOut c) :=
    ⟨h.coherent.sound_setOut, fun q hq => List.mem_singleton.1 hq ▸ hp, nofun,
      fun q hq => .inl (List.mem_singleton.1 hq)⟩
  have hmirrors : (Tour.setOut c s).Mirrors c sources (pass.setOut c) := ⟨h, rfl, rfl⟩
  obtain ⟨t, ht, w', hwalk', hmirrors', -, -⟩ :=
    Tour.exists_visit hmirrors hconfined (Nat.lt_add_left _ hdepth)
  obtain rfl := hwalk.unique hwalk'
  refine ⟨_, by rw [source, ht]; rfl, ?_⟩
  have hsurvey := hmirrors'.survey
  rw [hvisit]
  exact ⟨⟨hsurvey.sound.snapshots, hsurvey.sound.followed, hsurvey.sound.unreadable⟩,
    ⟨hsurvey.coherent.files, hsurvey.coherent.unreadable⟩, hsurvey.look, hsurvey.known,
    hsurvey.unreadable, by rw [hsurvey.reachable, ← hmirrors'.visited], hsurvey.isIncomplete⟩

/-- The recursion from all sources comes to what the pass over them comes to. -/
lemma Reflects.exists_foldlM (h : Reflects c sources s pass) (hs : ∀ p ∈ rest, p.IsCanonical)
    (hdepth : c.reader.budget < depth) :
    ∃ s', rest.foldlM (source c depth) s = some s' ∧ Reflects c sources s' (pass.visitAll c rest) := by
  induction rest generalizing s pass with
  | nil => exact ⟨s, rfl, h⟩
  | cons p rest ih =>
    obtain ⟨s₁, hs₁, h₁⟩ := h.exists_source (hs p List.mem_cons_self) hdepth
    obtain ⟨s₂, hs₂, h₂⟩ := ih h₁ fun q hq => hs q (List.mem_cons_of_mem _ hq)
    refine ⟨s₂, ?_, h₂⟩
    rw [List.foldlM_cons, hs₁]
    exact hs₂

/-- A pass has no snapshot but that of the recursion, once this has visited the sources. -/
lemma Reflects.snapshots_eq (h : Reflects c sources s pass)
    (hsources : ∀ p ∈ sources, s.snapshots.contains p) : pass.snapshots = s.snapshots := by
  have hcanonical : ∀ e ∈ pass.snapshots.toList, e.1.IsCanonical := by
    intro e he
    obtain ⟨d, hd, -⟩ := Pass.mem_snapshots he
    exact (h.coherent.files _ hd).canonical
  refine OrderedMap.ext_of_get? (fun p q hp hq => hp.eq_of_compare hq) hcanonical
    (fun e he => (h.sound.snapshots e he).1) fun p hp => ?_
  have hlook := h.look p hp
  have hknown := h.known p hp
  rw [Pass.get?_snapshots h.coherent hp]
  rw [OrderedMap.contains_eq_isSome, OrderedMap.contains_eq_isSome] at hknown
  rw [Pass.look?, Survey.look?] at hlook
  cases hsnapshot : s.snapshots.get? p with
  | some x =>
    obtain ⟨d, hd⟩ := Option.isSome_iff_exists.1 (hknown.2 (.inl (by rw [hsnapshot]; rfl)))
    rw [hd, hsnapshot] at hlook
    cases hlook
    rw [hd, ← h.sound.path_eq hp hsnapshot]
    rfl
  | none =>
    have hnot : ¬ (pass.files.get? p).isSome := by
      intro hsome
      rcases hknown.1 hsome with hin | hin
      · rw [hsnapshot] at hin
        cases hin
      · have hin' := hsources p hin
        rw [OrderedMap.contains_eq_isSome, hsnapshot] at hin'
        cases hin'
    rw [Option.not_isSome_iff_eq_none.1 hnot]
    rfl

lemma Reflects.unreadable_eq (h : Reflects c sources s pass) : pass.unreadable = s.unreadable :=
  OrderedSet.ext_of_contains (fun _ _ hp hq => hp.eq_of_compare hq)
    (fun p hp => (h.coherent.unreadable p hp).1) h.sound.unreadable fun p _ => h.unreadable p

/-- A file whose includes a pass has followed was visited by the recursion. -/
lemma Reflects.contains_of_isDone (h : Reflects c sources s pass) (hp : p.IsCanonical)
    (hdone : pass.IsDone c p) (hread : ∃ d, c.draft p = .ok d) : s.snapshots.contains p := by
  obtain ⟨d, hd⟩ := hread
  rcases hdone with ⟨d', hd', hdone⟩ | ⟨⟨e, he⟩, -⟩
  · have hlook := h.look p hp
    rw [Pass.look?_of_get? hd', Survey.look?] at hlook
    cases hsnapshot : s.snapshots.get? p with
    | some x => rw [OrderedMap.contains_eq_isSome, hsnapshot, Option.isSome_some]
    | none =>
      -- what is only read has not been followed
      rw [hsnapshot, hd] at hlook
      cases hlook
      rw [PassContext.isResolved_of_draft hd] at hdone
      cases hdone
  · rw [hd] at he
    cases he

end Survey

namespace PassContext

variable {c : PassContext} {sources : OrderedSet Path} {pass last : Pass} {p : Path} {a : Analysis}

lemma Passes.isDone (h : c.Passes sources pass last a) (hp : p ∈ sources.toList) :
    last.IsDone c p := by
  have hcanonical := h.canonical p hp
  obtain ⟨before, after, hsplit⟩ := List.append_of_mem hp
  obtain ⟨w, hwalk, hextends, -⟩ := h.exists_walk hsplit
  have hbefore : (pass.visitAll c before).Coherent c :=
    Pass.coherent_visitAll h.opened.coherent fun q hq => h.canonical q (by simp [hsplit, hq])
  have hdone := hwalk.isDone hbefore.sound_setOut (by simpa using hcanonical) rfl hcanonical
    (hwalk.visited_of_mem List.mem_cons_self)
  exact hextends.isDone hcanonical hdone

/-- What a pass comes to, the recursion comes to. -/
theorem Passes.exists_survey (h : c.Passes sources pass last a) {depth : Nat}
    (hdepth : c.reader.budget < depth) :
    ∃ s, Survey.all c depth sources.toList = some s ∧ Survey.Reflects c sources.toList s last := by
  rw [h.last_eq]
  exact (Survey.reflects_start h.opened h.readable).exists_foldlM h.canonical hdepth

end PassContext

namespace Survey

variable {c : PassContext} {sources : OrderedSet Path} {pass last : Pass} {a : Analysis}

/-- The recursion over `sources` comes to what an analysis does that ends with the pass `last`: the
same snapshots with the same lists of what their includes became, the same unreadable headers, the
same files that each source leads to, and the same judgement on whether every expression was
expanded. -/
structure Yields (c : PassContext) (depth : Nat) (sources : OrderedSet Path) (a : Analysis)
    (last : Pass) (s : Survey) : Prop where
  eq_some : all c depth sources.toList = some s
  snapshots : s.snapshots = a.state.files
  unreadable : s.unreadable = last.unreadable
  reachable : s.reachable = last.reachable
  isIncomplete : s.isIncomplete = a.isIncomplete

/-- What an analysis comes to, the recursion comes to. -/
theorem exists_yields (h : c.Passes sources pass last a) {depth : Nat}
    (hdepth : c.reader.budget < depth) : ∃ s, Yields c depth sources a last s := by
  obtain ⟨s, hs, hreflects⟩ := h.exists_survey hdepth
  have hsources : ∀ p ∈ sources.toList, s.snapshots.contains p := fun p hp =>
    hreflects.contains_of_isDone (h.canonical p hp) (h.isDone hp) (h.readable p hp)
  have hstate : a.state.files = last.snapshots := by rw [h.outcome]; rfl
  have hflag : a.isIncomplete = last.isIncomplete := by rw [h.outcome]; rfl
  refine ⟨s, hs, ?_, hreflects.unreadable_eq.symm, hreflects.reachable.symm, ?_⟩
  · rw [hstate, hreflects.snapshots_eq hsources]
  · rw [hflag, hreflects.isIncomplete]

end Survey

namespace RunM

variable {settings : Settings} {hasher : Hasher} {previous : TaskState} {sources : List Path}
  {r : Run} {e : Path × Fault}

/-- An analysis fails only if some source cannot be read: its path has no absolute form, or there is
a fault when it is digested or read.  Headers are no reason to fail. -/
lemma exists_unreadable_of_analyse
    (h : ((analyse settings hasher previous sources).run.run r).1 = .error e) :
    ∃ p ∈ sources, ∀ q, r.files.absolute p = .ok q →
      ∃ fault, (r.context settings hasher previous).draft q.normalize = .error fault := by
  -- if every source could be read, there would be an analysis
  by_contra hnone
  push Not at hnone
  let P : Path → Prop := fun p => ∃ d, (r.context settings hasher previous).draft p = .ok d
  have hread : ∀ p ∈ sources, ∃ q, r.files.absolute p = .ok q ∧ P q.normalize := by
    intro p hp
    obtain ⟨q, hq, hnot⟩ := hnone p hp
    cases hdraft : (r.context settings hasher previous).draft q.normalize with
    | ok d => exact ⟨q, hq, d, hdraft⟩
    | error fault => exact absurd hdraft (hnot fault)
  obtain ⟨l, hl, hsources⟩ := exists_absoluteAll_of_forall (P := P) hread
  obtain ⟨pass, -, -, hrun⟩ := Analysis.run_eq_of_readable (fun s hs => (hsources s hs).1)
    fun s hs => (hsources s hs).2
  obtain ⟨phases, heq⟩ := analyse_run hl hrun
  rw [heq] at h
  cases h

/-- An analysis fails because of a source that cannot be read, or else it comes to what the recursion
over the sources in order comes to, as soon as this may go as deep as there are files. -/
theorem analyse_eq_survey (settings : Settings) (hasher : Hasher) (previous : TaskState)
    (sources : List Path) (r : Run) :
    (∃ e, ((analyse settings hasher previous sources).run.run r).1 = .error e ∧
      ∃ p ∈ sources, ∀ q, r.files.absolute p = .ok q →
        ∃ fault, (r.context settings hasher previous).draft q.normalize = .error fault) ∨
    ∃ l a last, absoluteAll r.files sources = .ok l ∧
      ((analyse settings hasher previous sources).run.run r).1 = .ok a ∧
      Analysis.run (r.context settings hasher previous) (OrderedSet.ofList l) = (.ok a, last) ∧
      ∀ depth, (r.context settings hasher previous).reader.budget < depth →
        ∃ s, Survey.Yields (r.context settings hasher previous) depth (OrderedSet.ofList l) a last s := by
  rcases hanalyse : (analyse settings hasher previous sources).run.run r with ⟨x, r'⟩
  cases x with
  | error e => exact .inl ⟨e, rfl, exists_unreadable_of_analyse (by rw [hanalyse])⟩
  | ok a =>
    obtain ⟨l, pass, last, habsolute, hrun, hpasses, -⟩ := passes_of_analyse hanalyse
    exact .inr ⟨l, a, last, habsolute, rfl, hrun, fun depth => Survey.exists_yields hpasses⟩

end RunM

end IncludeDeps
