import IncludeDeps.Proofs.Computation
import IncludeDeps.Proofs.Ordered
import IncludeDeps.Proofs.Resolution

/-!
# Walks, step by step

One step of a walk enters a file.  All that a step depends on is what the pass knows of the file
already, or else what is read now (`Pass.look?`); and all that it changes is said once, by
`Walk.Enters` for a file that can be read and by `Walk.Misses` for one that cannot.  Which of the
two it is, is `Walk.enter_cases`; later proofs open neither `Walk.enter` nor `Pass.read`.

`Pass.Coherent` is the invariant behind this: every file of a pass is what it is read as, under a
canonical path, and every header that was found is a file.
-/

namespace IncludeDeps

/-! ## Drafts -/

namespace Draft

/-- A draft as it was read. -/
def fresh (d : Draft) : Draft := { d with resolved := [], isResolved := false }

/-- The headers that the includes of a draft were resolved to, in order. -/
def next (d : Draft) : List Path := d.resolved.filterMap ResolvedInclude.file?

/-- A draft after its file was entered with the given macros. -/
def entered (s : Search) (macros : MacroTable) (p : Path) (d : Draft) : Draft :=
  if d.isResolved && !d.directives.hasComputedIncludes then d
  else
    { d with
      resolved := (s.resolveAll macros p d.directives).resolved.foldl addNew d.resolved
      isResolved := true }

/-- What is known of a draft in the middle of a pass. -/
structure Fits (c : PassContext) (p : Path) (d : Draft) : Prop where
  canonical : p.IsCanonical
  fresh : c.draft p = .ok d.fresh
  files : ∀ q ∈ d.next, q.IsCanonical ∧ c.reader.isFile q
  unresolved : d.isResolved = false → d.resolved = []
  literal : d.isResolved → d.directives.hasComputedIncludes = false →
    d.resolved = (d.directives.includes.map (c.search.literal p)).foldl addNew []

variable {c : PassContext} {p : Path} {d : Draft} {s : Search} {t : MacroTable}

@[simp] lemma directives_fresh : d.fresh.directives = d.directives := rfl

@[simp] lemma digest_fresh : d.fresh.digest = d.digest := rfl

lemma entered_of_done (h : d.isResolved) (hd : d.directives.hasComputedIncludes = false) :
    d.entered s t p = d := by
  rw [entered, h, hd]
  rfl

lemma entered_of_open (h : d.isResolved = false ∨ d.directives.hasComputedIncludes) :
    d.entered s t p =
      { d with
        resolved := (s.resolveAll t p d.directives).resolved.foldl addNew d.resolved
        isResolved := true } := by
  rw [entered, if_neg]
  rcases h with h | h
  · rw [h]
    exact Bool.false_ne_true
  · rw [h]
    simp

@[simp] lemma fresh_entered : (d.entered s t p).fresh = d.fresh := by
  unfold entered
  split
  · rfl
  · rfl

@[simp] lemma directives_entered : (d.entered s t p).directives = d.directives := by
  rw [← directives_fresh, fresh_entered, directives_fresh]

@[simp] lemma isResolved_entered : (d.entered s t p).isResolved = true := by
  unfold entered
  split
  · next h => simpa using (Bool.and_eq_true_iff.1 h).1
  · rfl

/-- Entering a file again adds to what its includes became. -/
lemma resolved_isPrefix_entered : d.resolved <+: (d.entered s t p).resolved := by
  unfold entered
  split
  · exact List.prefix_rfl
  · exact isPrefix_foldl_addNew _ _

lemma mem_next {q : Path} :
    q ∈ d.next ↔ ∃ r ∈ d.resolved, ∃ loc, r.location = some loc ∧ loc.file = q := by
  simp [next, List.mem_filterMap, ResolvedInclude.file?]

lemma Fits.entered (h : d.Fits c p) : (d.entered c.search t p).Fits c p where
  canonical := h.canonical
  fresh := by rw [fresh_entered, h.fresh]
  files := by
    intro q hq
    obtain ⟨r, hr, loc, hloc, rfl⟩ := mem_next.1 hq
    unfold Draft.entered at hr
    split at hr
    · exact h.files _ (mem_next.2 ⟨r, hr, loc, hloc, rfl⟩)
    · rcases mem_or_mem_of_mem_foldl_addNew hr with hr | hr
      · exact h.files _ (mem_next.2 ⟨r, hr, loc, hloc, rfl⟩)
      · exact (Search.isFile_of_mem_resolveAll hr hloc).symm
  unresolved hopen := by simp at hopen
  literal _ hlit := by
    rw [directives_entered] at hlit ⊢
    cases hdone : d.isResolved with
    | true => rw [entered_of_done hdone hlit, h.literal hdone hlit]
    | false =>
      rw [entered_of_open (.inl hdone), h.unresolved hdone, Search.resolveAll_of_literal hlit]

end Draft

/-! ## What a pass knows of a file -/

/-- A file that is read for the first time has its digest, and nothing in it is resolved yet,
whether its directives are those of the last time or are read from its content. -/
lemma PassContext.exists_of_draft {c : PassContext} {p : Path} {d : Draft} (h : c.draft p = .ok d) :
    ∃ digest directives, c.reader.digest p = .ok digest ∧ d = ⟨digest, directives, [], false⟩ := by
  unfold draft at h
  obtain ⟨digest, hdigest, h⟩ := Except.exists_of_bind h
  split at h
  · next directives _ =>
    cases h
    exact ⟨digest, directives, hdigest, rfl⟩
  · obtain ⟨content, -, h⟩ := Except.exists_of_bind h
    cases h
    exact ⟨digest, _, hdigest, rfl⟩

lemma PassContext.digest_of_draft {c : PassContext} {p : Path} {d : Draft}
    (h : c.draft p = .ok d) : c.reader.digest p = .ok d.digest := by
  obtain ⟨digest, directives, hdigest, rfl⟩ := exists_of_draft h
  exact hdigest

lemma PassContext.fresh_of_draft {c : PassContext} {p : Path} {d : Draft}
    (h : c.draft p = .ok d) : d.fresh = d := by
  obtain ⟨digest, directives, -, rfl⟩ := exists_of_draft h
  rfl

lemma PassContext.resolved_of_draft {c : PassContext} {p : Path} {d : Draft}
    (h : c.draft p = .ok d) : d.resolved = [] := by
  obtain ⟨digest, directives, -, rfl⟩ := exists_of_draft h
  rfl

lemma PassContext.isResolved_of_draft {c : PassContext} {p : Path} {d : Draft}
    (h : c.draft p = .ok d) : d.isResolved = false := by
  obtain ⟨digest, directives, -, rfl⟩ := exists_of_draft h
  rfl

lemma PassContext.fits_of_draft {c : PassContext} {p : Path} {d : Draft} (hp : p.IsCanonical)
    (h : c.draft p = .ok d) : d.Fits c p := by
  have hresolved := resolved_of_draft h
  refine ⟨hp, by rw [fresh_of_draft h, h], ?_, fun _ => hresolved, ?_⟩
  · intro q hq
    rw [Draft.next, hresolved] at hq
    cases hq
  · intro hdone
    rw [isResolved_of_draft h] at hdone
    cases hdone

namespace Pass

/-- A file as the pass knows it, or else as it is read. -/
def look? (c : PassContext) (pass : Pass) (p : Path) : Option Draft :=
  match pass.files.get? p with
  | some d => some d
  | none => (c.draft p).toOption

/-- Every file is what it is read as, and every header that is remembered as unreadable is. -/
structure Coherent (c : PassContext) (pass : Pass) : Prop where
  files : ∀ e ∈ pass.files.toList, e.2.Fits c e.1
  unreadable : ∀ p ∈ pass.unreadable.toList, p.IsCanonical ∧ ∃ e, c.draft p = .error e

variable {c : PassContext} {pass : Pass} {p : Path} {d : Draft}

lemma coherent_start : start.Coherent c := ⟨fun _ h => (nomatch h), fun _ h => (nomatch h)⟩

lemma Coherent.fits (hc : pass.Coherent c) (hp : p.IsCanonical)
    (h : pass.files.get? p = some d) : d.Fits c p := by
  obtain ⟨k, hk, hcompare⟩ := OrderedMap.exists_mem_of_get?_eq_some h
  have hfits := hc.files _ hk
  exact hp.eq_of_compare hfits.canonical hcompare ▸ hfits

lemma Coherent.draft_of_unreadable (hc : pass.Coherent c) (hp : p.IsCanonical)
    (h : pass.unreadable.contains p) : ∃ e, c.draft p = .error e := by
  obtain ⟨q, hq, hcompare⟩ := OrderedSet.contains_iff.1 h
  obtain ⟨hcanonical, herror⟩ := hc.unreadable q hq
  exact hp.eq_of_compare hcanonical hcompare ▸ herror

lemma Coherent.not_unreadable (hc : pass.Coherent c) (hp : p.IsCanonical) (h : c.draft p = .ok d) :
    pass.unreadable.contains p = false := by
  rw [Bool.eq_false_iff]
  intro hun
  obtain ⟨e, he⟩ := hc.draft_of_unreadable hp hun
  rw [h] at he
  cases he

lemma look?_of_get? (h : pass.files.get? p = some d) : pass.look? c p = some d := by
  rw [look?, h]

lemma look?_congr {pass' : Pass} (h : pass'.files.get? p = pass.files.get? p) :
    pass'.look? c p = pass.look? c p := by
  rw [look?, look?, h]

lemma look?_eq_none_iff (hc : pass.Coherent c) (hp : p.IsCanonical) :
    pass.look? c p = none ↔ ∃ e, c.draft p = .error e := by
  unfold look?
  cases hfiles : pass.files.get? p with
  | some d =>
    have hfresh := (hc.fits hp hfiles).fresh
    simp [hfresh]
  | none =>
    cases hdraft : c.draft p with
    | ok d => simp [Except.toOption]
    | error e => simp [Except.toOption]

lemma Coherent.fits_of_look? (hc : pass.Coherent c) (hp : p.IsCanonical)
    (h : pass.look? c p = some d) : d.Fits c p := by
  unfold look? at h
  split at h
  · next hfiles => exact hc.fits hp (hfiles.trans h)
  · exact PassContext.fits_of_draft hp (Except.eq_ok_of_toOption h)

lemma get?_eq_none_of_look? (h : pass.look? c p = none) : pass.files.get? p = none := by
  cases hfiles : pass.files.get? p with
  | none => rfl
  | some d =>
    rw [look?_of_get? hfiles] at h
    cases h

/-! ## Reading files -/

/-- What a pass becomes when the file `p` is put in as `d`. -/
structure Puts (c : PassContext) (pass : Pass) (p : Path) (d : Draft) (pass' : Pass) : Prop where
  coherent : pass'.Coherent c
  files : ∀ q, pass'.files.get? q = if compare q p = .eq then some d else pass.files.get? q
  unreadable : pass'.unreadable = pass.unreadable
  reachable : pass'.reachable = pass.reachable

lemma Coherent.puts_insert (hc : pass.Coherent c) (hd : d.Fits c p) {pass' : Pass}
    (hfiles : pass'.files = pass.files.insert p d) (hun : pass'.unreadable = pass.unreadable)
    (hreach : pass'.reachable = pass.reachable) : pass.Puts c p d pass' where
  coherent := by
    refine ⟨fun e he => ?_, fun q hq => hc.unreadable q (hun ▸ hq)⟩
    rw [hfiles] at he
    rcases OrderedMap.mem_insert he with he | ⟨hv, hk | ⟨hk, old, hold⟩⟩
    · exact hc.files e he
    · rw [hv, hk]
      exact hd
    · have hkey := hd.canonical.eq_of_compare (hc.files _ hold).canonical hk
      rw [hv, ← hkey]
      exact hd
  files q := by rw [hfiles, OrderedMap.get?_insert]
  unreadable := hun
  reachable := hreach

/-- Of two drafts put in for the same file, the second counts. -/
lemma Puts.trans {pass₁ pass₂ : Pass} {d' : Draft} (h : pass.Puts c p d pass₁)
    (h' : pass₁.Puts c p d' pass₂) : pass.Puts c p d' pass₂ where
  coherent := h'.coherent
  files q := by
    rw [h'.files, h.files]
    split
    · rfl
    · rfl
  unreadable := h'.unreadable.trans h.unreadable
  reachable := h'.reachable.trans h.reachable

lemma Coherent.puts_self (hc : pass.Coherent c) (h : pass.files.get? p = some d) :
    pass.Puts c p d pass where
  coherent := hc
  files q := by
    split
    · next hq => rw [OrderedMap.get?_congr hq, h]
    · rfl
  unreadable := rfl
  reachable := rfl

/-- Reading a file that the pass knows, or that can be read. -/
lemma read_of_look? (hc : pass.Coherent c) (hp : p.IsCanonical) (h : pass.look? c p = some d) :
    ∃ pass', pass.read c p = (.ok d, pass') ∧ pass.Puts c p d pass' ∧
      pass'.isIncomplete = pass.isIncomplete := by
  cases hfiles : pass.files.get? p with
  | some d' =>
    rw [look?_of_get? hfiles] at h
    cases h
    exact ⟨pass, by rw [read, hfiles], hc.puts_self hfiles, rfl⟩
  | none =>
    have hfits := hc.fits_of_look? hp h
    have hdraft : c.draft p = .ok d := by
      rw [look?, hfiles] at h
      exact Except.eq_ok_of_toOption h
    let pass' : Pass := { pass with reads := pass.reads + 1, files := pass.files.insert p d }
    have hread : pass.read c p = (.ok d, pass') := by
      unfold read
      rw [hfiles, hdraft]
    exact ⟨pass', hread, hc.puts_insert hfits rfl rfl rfl, rfl⟩

/-- A file that cannot be read leaves nothing behind but the trace of the attempt. -/
lemma read_of_error {e : Fault} (h : c.draft p = .error e) (hfiles : pass.files.get? p = none) :
    pass.read c p = (.error e, { pass with reads := pass.reads + 1 }) := by
  unfold read
  rw [hfiles, h]

lemma readHeader_of_look? (hc : pass.Coherent c) (hp : p.IsCanonical)
    (h : pass.look? c p = some d) :
    ∃ pass', pass.readHeader c p = (some d, pass') ∧ pass.Puts c p d pass' ∧
      pass'.isIncomplete = pass.isIncomplete := by
  have htry : (!pass.files.contains p && pass.unreadable.contains p) = false := by
    rw [hc.not_unreadable hp (hc.fits_of_look? hp h).fresh, Bool.and_false]
  obtain ⟨pass', hread, hputs⟩ := read_of_look? hc hp h
  refine ⟨pass', ?_, hputs⟩
  rw [readHeader, htry, hread]
  rfl

/-- What a pass becomes when the header `p` is found unreadable: it is put to those that are, and
the files stay as they are known. -/
structure Marks (c : PassContext) (pass : Pass) (p : Path) (pass' : Pass) : Prop where
  coherent : pass'.Coherent c
  files : pass'.files = pass.files
  unreadable : ∀ q, pass'.unreadable.contains q ↔
    compare q p = .eq ∨ pass.unreadable.contains q
  reachable : pass'.reachable = pass.reachable

/-- A header that cannot be read is remembered. -/
lemma readHeader_of_error (hc : pass.Coherent c) (hp : p.IsCanonical)
    (h : pass.look? c p = none) :
    ∃ pass', pass.readHeader c p = (none, pass') ∧ pass.Marks c p pass' ∧
      pass'.isIncomplete = pass.isIncomplete := by
  obtain ⟨e, he⟩ := (look?_eq_none_iff hc hp).1 h
  have hfiles := get?_eq_none_of_look? h
  cases hun : pass.unreadable.contains p with
  | true =>
    refine ⟨pass, ?_, ⟨hc, rfl, fun q => ⟨.inr, ?_⟩, rfl⟩, rfl⟩
    · rw [readHeader, hun, OrderedMap.contains_eq_isSome, hfiles]
      rfl
    · rintro (hq | hq)
      · rw [OrderedSet.contains_congr hq, hun]
      · exact hq
  | false =>
    let pass' : Pass :=
      { pass with reads := pass.reads + 1, unreadable := pass.unreadable.insert p }
    have hcoherent : pass'.Coherent c := by
      refine ⟨hc.files, fun q hq => ?_⟩
      rcases OrderedSet.mem_insert hq with rfl | hq
      · exact ⟨hp, e, he⟩
      · exact hc.unreadable q hq
    refine ⟨pass', ?_, ⟨hcoherent, rfl, OrderedSet.contains_insert _ _, rfl⟩, rfl⟩
    rw [readHeader, hun, Bool.and_false, read_of_error he hfiles]
    rfl

end Pass

/-! ## Entering files -/

namespace Walk

/-- A walk in a coherent pass, on canonical paths.  This is the invariant that every step keeps,
and that later arguments about walks start from. -/
structure Sound (c : PassContext) (w : Walk) : Prop where
  pass : w.pass.Coherent c
  visited : ∀ p ∈ w.visited.toList, p.IsCanonical

/-- What a step does that enters the file `p`, of which `d` is known. -/
structure Enters (c : PassContext) (w : Walk) (p : Path) (d : Draft) (step : List Path × Walk) :
    Prop where
  macros : step.2.macros = w.macros.defineAll d.directives.macros
  visited : step.2.visited = w.visited.insert p
  next : step.1 = (d.entered c.search step.2.macros p).next
  pass : w.pass.Puts c p (d.entered c.search step.2.macros p) step.2.pass
  isIncomplete : step.2.pass.isIncomplete =
    (w.pass.isIncomplete || !(c.search.resolveAll step.2.macros p d.directives).isComplete)

/-- What a step does that finds the file `p` unreadable. -/
structure Misses (c : PassContext) (w : Walk) (p : Path) (step : List Path × Walk) : Prop where
  macros : step.2.macros = w.macros
  visited : step.2.visited = w.visited.insert p
  next : step.1 = []
  pass : w.pass.Marks c p step.2.pass
  isIncomplete : step.2.pass.isIncomplete = w.pass.isIncomplete

variable {c : PassContext} {w : Walk} {p : Path} {d : Draft}

lemma enter_of_look? (hw : w.Sound c) (hp : p.IsCanonical) (h : w.pass.look? c p = some d) :
    w.Enters c p d (w.enter c p) := by
  obtain ⟨pass', hread, hputs, hflag⟩ := Pass.readHeader_of_look? hw.pass hp h
  have hfits := hw.pass.fits_of_look? hp h
  -- the includes are left as they are only if they were resolved before and cannot change
  by_cases hdone : (d.isResolved && !d.directives.hasComputedIncludes) = true
  · obtain ⟨hdone', hlit⟩ := Bool.and_eq_true_iff.1 hdone
    rw [Bool.not_eq_true'] at hlit
    have henter : w.enter c p =
        (d.next, ⟨pass', w.macros.defineAll d.directives.macros, w.visited.insert p⟩) := by
      simp only [enter, hread]
      exact if_pos hdone
    have hsame := Draft.entered_of_done (s := c.search) (p := p)
      (t := w.macros.defineAll d.directives.macros) hdone' hlit
    rw [henter]
    refine ⟨rfl, rfl, by rw [hsame], by rw [hsame]; exact hputs, ?_⟩
    rw [Search.resolveAll_of_literal hlit]
    simpa using hflag
  · have hopen : d.isResolved = false ∨ d.directives.hasComputedIncludes := by
      rw [Bool.and_eq_true_iff, Bool.not_eq_true'] at hdone
      cases hresolved : d.isResolved with
      | false => exact .inl rfl
      | true => exact .inr (Bool.of_not_eq_false fun hlit => hdone ⟨hresolved, hlit⟩)
    have hsame := Draft.entered_of_open (s := c.search) (p := p)
      (t := w.macros.defineAll d.directives.macros) hopen
    have hfits' := hfits.entered (t := w.macros.defineAll d.directives.macros)
    simp only [enter, hread, if_neg hdone]
    rw [hsame] at hfits'
    refine ⟨rfl, rfl, by rw [hsame]; rfl, ?_, ?_⟩
    · rw [hsame]
      exact hputs.trans (hputs.coherent.puts_insert hfits' rfl rfl rfl)
    · simp [hflag]

lemma enter_of_error (hw : w.Sound c) (hp : p.IsCanonical) (h : w.pass.look? c p = none) :
    w.Misses c p (w.enter c p) := by
  obtain ⟨pass', hread, hmarks, hflag⟩ := Pass.readHeader_of_error hw.pass hp h
  simp only [enter, hread]
  exact ⟨rfl, rfl, rfl, hmarks, hflag⟩

/-- All that a step can do.  Either the file is known or can be read, and then the step enters it;
or neither, and then all that is new is that the file was visited and could not be read.  Later
arguments about a step start from these two cases, and do not look into `Walk.enter` any more. -/
theorem enter_cases (hw : w.Sound c) (hp : p.IsCanonical) :
    (∃ d, w.pass.look? c p = some d ∧ w.Enters c p d (w.enter c p)) ∨
      w.pass.look? c p = none ∧ w.Misses c p (w.enter c p) := by
  cases h : w.pass.look? c p with
  | some d => exact .inl ⟨d, rfl, enter_of_look? hw hp h⟩
  | none => exact .inr ⟨rfl, enter_of_error hw hp h⟩

lemma sound_enter (hw : w.Sound c) (hp : p.IsCanonical) : (w.enter c p).2.Sound c := by
  have hvisited : ∀ v : OrderedSet Path, v = w.visited.insert p →
      ∀ q ∈ v.toList, q.IsCanonical := by
    rintro v rfl q hq
    rcases OrderedSet.mem_insert hq with rfl | hq
    · exact hp
    · exact hw.visited q hq
  rcases enter_cases hw hp with ⟨d, -, h⟩ | ⟨-, h⟩
  · exact ⟨h.pass.coherent, hvisited _ h.visited⟩
  · exact ⟨h.pass.coherent, hvisited _ h.visited⟩

lemma isFile_of_mem_next (hw : w.Sound c) (hp : p.IsCanonical) {q : Path}
    (hq : q ∈ (w.enter c p).1) : q.IsCanonical ∧ c.reader.isFile q := by
  rcases enter_cases hw hp with ⟨d, hd, h⟩ | ⟨-, h⟩
  · rw [h.next] at hq
    exact (hw.pass.fits_of_look? hp hd).entered.files q hq
  · rw [h.next] at hq
    cases hq

end Walk

end IncludeDeps
