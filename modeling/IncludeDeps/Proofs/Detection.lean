import IncludeDeps.Proofs.Incremental
import IncludeDeps.Proofs.Walk.Literal

/-!
# What has to be compiled again

Two builds with the same settings, the second one against the state that the first one left.  If no
include has to be expanded, a source is compiled again if and only if some file changed that it led
to in the first build, although the second build follows the includes as they are now.

* `Build.Changed`: a file was not read, or differs, or one of its includes became something else;
* `Build.Continues.hasChanged_iff`: this is what is found out about a file that both builds lead to;
* `reflTransGen_or_exists`: on the way to a file on which the builds differ there is a first change;
* `Build.mem_recompile_iff` is the result.
-/

namespace IncludeDeps

/-! ## First changes -/

/-- A path of one relation is a path of another one, or comes to a point, on both of them, after
which they may differ. -/
lemma reflTransGen_or_exists {α : Type} {r r' : α → α → Prop} {C : α → Prop} {s q : α}
    (hstep : ∀ p q, ¬ C p → r p q → r' p q) (h : Relation.ReflTransGen r s q) :
    Relation.ReflTransGen r' s q ∨
      ∃ p, Relation.ReflTransGen r s p ∧ Relation.ReflTransGen r' s p ∧ C p := by
  induction h with
  | refl => exact .inl .refl
  | @tail p q hpath hlast ih =>
    rcases ih with hpath' | hchange
    · by_cases hp : C p
      · exact .inr ⟨p, hpath, hpath', hp⟩
      · exact .inl (hpath'.tail (hstep p q hp hlast))
    · exact .inr hchange

/-- No file that a state knows has an include that has to be expanded. -/
def TaskState.IsLiteral (s : TaskState) : Prop :=
  ∀ e ∈ s.files.toList, e.2.directives.hasComputedIncludes = false

instance {s : TaskState} : Decidable s.IsLiteral :=
  inferInstanceAs (Decidable (∀ e ∈ s.files.toList, e.2.directives.hasComputedIncludes = false))

namespace Build

variable {hasher : Hasher} {b b' : Build} {builds : List Build} {previous : TaskState}
  {p q s : Path} {d : Draft} {a a' : Analysis}

/-! ## What a build finds -/

/-- The digest and the directives of a file that can be read. -/
def read? (b : Build) (hasher : Hasher) (p : Path) : Option (Digest × Directives) := do
  let digest ← (hasher b.files p).toOption
  let x ← (b.files.read p).toOption
  return (digest, Source.readBytes b.task.imports x)

/-- A file can be read, and one of its includes is resolved to another. -/
def Includes (b : Build) (hasher : Hasher) (p q : Path) : Prop :=
  ∃ digest directives, b.read? hasher p = some (digest, directives) ∧
    ∃ i ∈ directives.includes, (b.search.literal p i).file? = some q

/-- A file could not be read in one of two builds, or it has another digest in the second one, or
an include of it was found in another file or root, or is not found any more, or is found now. -/
def Changed (b b' : Build) (hasher : Hasher) (p : Path) : Prop :=
  match b.read? hasher p, b'.read? hasher p with
  | some (digest, directives), some (digest', _) =>
    digest ≠ digest' ∨
      ∃ i ∈ directives.includes,
        ¬ EndAlike (b.search.literal p i).location (b'.search.literal p i).location
  | _, _ => True

lemma Follows.read?_eq (hb : b.Follows hasher builds previous) : b.read? hasher p =
    ((b.context hasher previous).draft p).toOption.map fun d => (d.digest, d.directives) := by
  rw [hb.draft_eq]
  unfold read?
  cases hasher b.files p with
  | error e => rfl
  | ok digest =>
    cases b.files.read p with
    | error e => rfl
    | ok x => rfl

lemma Follows.read?_of_draft (hb : b.Follows hasher builds previous)
    (h : (b.context hasher previous).draft p = .ok d) :
    b.read? hasher p = some (d.digest, d.directives) := by
  rw [hb.read?_eq, h]
  rfl

lemma Follows.read?_of_error {e : Fault} (hb : b.Follows hasher builds previous)
    (h : (b.context hasher previous).draft p = .error e) : b.read? hasher p = none := by
  rw [hb.read?_eq, h]
  rfl

lemma Follows.isRead_of_read? {digest : Digest} {directives : Directives}
    (hb : b.Follows hasher builds previous) (h : b.read? hasher p = some (digest, directives)) :
    b.IsRead p digest directives := by
  cases hdraft : (b.context hasher previous).draft p with
  | error e =>
    rw [hb.read?_of_error hdraft] at h
    cases h
  | ok d =>
    rw [hb.read?_of_draft hdraft] at h
    cases h
    exact hb.isRead_of_draft hdraft

lemma Follows.includes_context (hb : b.Follows hasher builds previous) :
    (b.context hasher previous).Includes = b.Includes hasher := by
  funext p q
  rw [PassContext.Includes, Includes, search_context]
  cases hdraft : (b.context hasher previous).draft p with
  | error e => simp [hb.read?_of_error hdraft]
  | ok d => simp [hb.read?_of_draft hdraft]

/-! ## What a pass follows -/

lemma isLiteral_last {t : Task} {w : Workspace} {sources : OrderedSet Path} {pass last : Pass}
    (h : t.Passes hasher w previous sources pass last a) (hliteral : a.state.IsLiteral) :
    last.IsLiteral := by
  intro p d hp hd
  have hsnapshot : a.state.files.get? p = some (d.snapshot p) := by
    show a.state.snapshot? p = _
    rw [h.snapshot?_eq hp, hd]
    rfl
  obtain ⟨k, hk, -⟩ := OrderedMap.exists_mem_of_get?_eq_some hsnapshot
  exact hliteral _ hk

/-- The files that a pass finds a source to lead to are the closure of the source, and the pass is
done with all of them. -/
lemma exists_reached {t : Task} {w : Workspace} {sources : OrderedSet Path} {pass last : Pass}
    (h : t.Passes hasher w previous sources pass last a) (hliteral : a.state.IsLiteral)
    (hs : s ∈ sources.toList) :
    ∃ reached, last.reachable.get? s = some reached ∧ (∀ q ∈ reached.toList, q.IsCanonical) ∧
      ∀ q, q.IsCanonical → (reached.contains q ↔
        Relation.ReflTransGen (t.context hasher w previous).Includes s q) ∧
        (reached.contains q → last.IsDone (t.context hasher w previous) q) := by
  obtain ⟨before, after, hsplit⟩ := List.append_of_mem hs
  obtain ⟨v, hwalk, hextends, hreached⟩ := h.exists_walk hsplit
  have hcanonical := h.canonical s hs
  have hbefore : ∀ q ∈ before, q.IsCanonical := fun q hq => h.canonical q (by simp [hsplit, hq])
  have hsound := (Pass.coherent_visitAll h.opened.coherent hbefore).sound_setOut
  have hstack : ∀ q ∈ [s], q.IsCanonical := by simpa using hcanonical
  have hwalked : v.pass.IsLiteral := by
    intro q d hq hd
    obtain ⟨d', hd', hfresh, -⟩ := hextends.files q d hq hd
    rw [← Draft.directives_fresh, ← hfresh]
    exact isLiteral_last h hliteral q d' hq hd'
  refine ⟨v.visited, hreached, (hwalk.sound hsound hstack).visited, fun q hq => ⟨?_, ?_⟩⟩
  · exact Walk.visited_iff hwalk hsound rfl hcanonical hwalked hq
  · exact fun hin => hextends.isDone hq (hwalk.isDone hsound hstack rfl hq hin)

/-! ## Comparing two builds -/

/-- Two builds with the same settings, of which the second starts from what the first has left. -/
structure Continues (hasher : Hasher) (b b' : Build) (a a' : Analysis) : Prop where
  truthful : hasher.IsTruthful
  contents : ContentsDiffer [b, b']
  settings : b'.task.settings = b.task.settings
  first : b.analyse hasher ∅ = .ok a
  second : b'.analyse hasher a.state = .ok a'

lemma Continues.follows_first (h : Continues hasher b b' a a') :
    b.Follows hasher [b, b'] ∅ where
  truthful := h.truthful
  contents := h.contents
  settings := by
    intro b₁ hb₁ b₂ hb₂ _
    simp only [List.mem_cons, List.not_mem_nil, or_false] at hb₁ hb₂
    rcases hb₁ with rfl | rfl <;> rcases hb₂ with rfl | rfl <;> simp [h.settings]
  mem := by simp
  recalls := recalls_empty _

lemma Continues.follows_second (h : Continues hasher b b' a a') :
    b'.Follows hasher [b, b'] a.state :=
  { h.follows_first with
    mem := by simp
    recalls := h.follows_first.recalls_state h.first }

lemma Continues.directives_eq (h : Continues hasher b b' a a') {digest : Digest}
    {directives directives' : Directives} (hread : b.IsRead p digest directives)
    (hread' : b'.IsRead p digest directives') : directives' = directives := by
  obtain ⟨x, hx, hdigest, hdirectives⟩ := hread
  obtain ⟨x', hx', hdigest', hdirectives'⟩ := hread'
  have hcontent : x = x' :=
    h.contents b (by simp) b' (by simp) p p x x' hx hx' (by rw [← hdigest, ← hdigest'])
  have himports : b'.task.imports = b.task.imports := congrArg Settings.imports h.settings
  rw [hdirectives, hdirectives', hcontent, himports]

/-- What is found out about a file with which both passes are done. -/
lemma Continues.hasChanged_iff (h : Continues hasher b b' a a') {sources sources' : OrderedSet Path}
    {pass pass' last last' : Pass} (hpass : b.task.Passes hasher b.files ∅ sources pass last a)
    (hpass' : b'.task.Passes hasher b'.files a.state sources' pass' last' a')
    (hliteral : a.state.IsLiteral) (hp : p.IsCanonical)
    (hdone : last.IsDone (b.context hasher ∅) p)
    (hdone' : last'.IsDone (b'.context hasher a.state) p) :
    last'.hasChanged a.state p ↔ Changed b b' hasher p := by
  unfold Pass.hasChanged Changed
  rw [hpass.snapshot?_eq hp]
  rcases hdone' with ⟨d', hd', hresolved'⟩ | ⟨⟨e, he⟩, hun⟩
  · have hfits' := hpass'.coherent.fits hp hd'
    have hreadable := hpass'.coherent.not_unreadable hp hfits'.fresh
    rw [hreadable, Bool.false_or, hd', h.follows_second.read?_of_draft hfits'.fresh]
    rcases hdone with ⟨d, hd, hresolved⟩ | ⟨⟨e, he⟩, -⟩
    · have hfits := hpass.coherent.fits hp hd
      rw [hd, h.follows_first.read?_of_draft hfits.fresh]
      by_cases hdigest : d.digest = d'.digest
      · -- the same content, and so the same includes, each searched in both trees
        have hread := h.follows_first.isRead_of_draft hfits.fresh
        have hread' := h.follows_second.isRead_of_draft hfits'.fresh
        rw [Draft.digest_fresh, Draft.directives_fresh] at hread hread'
        have hdirectives := h.directives_eq hread (hdigest ▸ hread')
        have hlit := isLiteral_last hpass hliteral p d hp hd
        have hsame := hfits.sameAll_iff hfits' hresolved hresolved' hdirectives hlit
        rw [search_context, search_context] at hsame
        simp only [Draft.digest_fresh, Draft.directives_fresh, Draft.snapshot, Option.map_some,
          hdigest, bne_self_eq_false, Bool.false_or, Bool.not_eq_true', ne_eq, not_true_eq_false,
          false_or, ← Bool.not_eq_true, hsame, not_forall]
        simp
      · simp [Draft.snapshot, hdigest]
    · have hnone := Pass.get?_eq_none_of_look?
        ((Pass.look?_eq_none_iff hpass.coherent hp).2 ⟨e, he⟩)
      rw [hnone, h.follows_first.read?_of_error he]
      simp
  · rw [hun, h.follows_second.read?_of_error he]
    simp

/-- A file that has not changed includes in both builds the same files. -/
lemma Continues.includes_iff (h : Continues hasher b b' a a') (hp : ¬ Changed b b' hasher p) :
    b.Includes hasher p q ↔ b'.Includes hasher p q := by
  unfold Changed at hp
  split at hp
  · next digest directives digest' directives' hread hread' =>
    rw [not_or, not_not] at hp
    obtain ⟨rfl, hsame⟩ := hp
    have hdirectives := h.directives_eq (h.follows_first.isRead_of_read? hread)
      (h.follows_second.isRead_of_read? hread')
    rw [Includes, Includes, hread, hread', hdirectives]
    have hfile : ∀ i ∈ directives.includes,
        (b.search.literal p i).file? = (b'.search.literal p i).file? := by
      intro i hi
      by_cases hi' : EndAlike (b.search.literal p i).location (b'.search.literal p i).location
      · exact hi'.file_eq
      · exact absurd ⟨i, hi, hi'⟩ hsame
    constructor
    · rintro ⟨_, _, heq, i, hi, hq⟩
      cases heq
      exact ⟨_, _, rfl, i, hi, by rw [← hfile i hi, hq]⟩
    · rintro ⟨_, _, heq, i, hi, hq⟩
      cases heq
      exact ⟨_, _, rfl, i, hi, by rw [hfile i hi, hq]⟩
  · exact absurd trivial hp

lemma Continues.mem_recompile (h : Continues hasher b b' a a') {sources' : OrderedSet Path}
    {pass' last' : Pass} (hpass' : b'.task.Passes hasher b'.files a.state sources' pass' last' a')
    {reached : OrderedSet Path} (hs : s ∈ sources'.toList)
    (hreached : last'.reachable.get? s = some reached) :
    s ∈ a'.recompile.toList ↔
      a.state.isSource s = false ∨ ∃ q ∈ reached.toList, last'.hasChanged a.state q := by
  obtain ⟨sources, pass, last, hpass⟩ := Task.passes_of_analyseIn h.first
  have hfingerprint : a.state.settings = some b'.task.settings.fingerprint := by
    rw [hpass.outcome, h.settings]
    rfl
  rw [hpass'.outcome]
  show s ∈ sources'.toList.filter _ ↔ _
  rw [List.mem_filter, hreached]
  simp [hs, hfingerprint, Task.context]

/-- A source is compiled again if and only if some file that it led to was not read, or is not what
it was. -/
theorem Continues.mem_recompile_iff_exists (h : Continues hasher b b' a a')
    (hliteral : a.state.IsLiteral) (hliteral' : a'.state.IsLiteral)
    (hs : s ∈ a.state.sources.toList) (hs' : s ∈ a'.state.sources.toList) :
    s ∈ a'.recompile.toList ↔
      ∃ f, Relation.ReflTransGen (b.Includes hasher) s f ∧ Changed b b' hasher f := by
  obtain ⟨sources, pass, last, hpass⟩ := Task.passes_of_analyseIn h.first
  obtain ⟨sources', pass', last', hpass'⟩ := Task.passes_of_analyseIn h.second
  rw [hpass.sources_eq] at hs
  rw [hpass'.sources_eq] at hs'
  have hcanonical := hpass.canonical s hs
  obtain ⟨reached, -, -, hmem⟩ := exists_reached hpass hliteral hs
  obtain ⟨reached', hreached', hcanonical', hmem'⟩ := exists_reached hpass' hliteral' hs'
  have hincludes := h.follows_first.includes_context
  have hincludes' := h.follows_second.includes_context
  rw [hincludes] at hmem
  rw [hincludes'] at hmem'
  have hfile : ∀ {q}, Relation.ReflTransGen (b.Includes hasher) s q → q.IsCanonical := by
    rw [← hincludes]
    exact PassContext.canonical_of_includes hcanonical
  -- where both builds lead to a file, they agree on whether it changed
  have hboth : ∀ q, Relation.ReflTransGen (b.Includes hasher) s q →
      Relation.ReflTransGen (b'.Includes hasher) s q →
      (last'.hasChanged a.state q ↔ Changed b b' hasher q) := by
    intro q hq hq'
    obtain ⟨hin, hdone⟩ := hmem q (hfile hq)
    obtain ⟨hin', hdone'⟩ := hmem' q (hfile hq)
    exact h.hasChanged_iff hpass hpass' hliteral (hfile hq) (hdone (hin.2 hq))
      (hdone' (hin'.2 hq'))
  rw [h.mem_recompile hpass' hs' hreached']
  have hsource : a.state.isSource s := by
    rw [TaskState.isSource, hpass.sources_eq]
    exact OrderedSet.contains_of_mem hs
  simp only [hsource, Bool.true_eq_false, false_or]
  constructor
  · rintro ⟨q, hq, hchanged⟩
    have hqcanonical := hcanonical' q hq
    have hpath := (hmem' q hqcanonical).1.1 (OrderedSet.contains_of_mem hq)
    -- the way to the file may be new, but then it goes through a file that has changed before it
    -- leaves the old ways
    rcases reflTransGen_or_exists (fun p q hp => (h.includes_iff hp).2) hpath with
      hpath' | ⟨f, hf, hf', hchange⟩
    · exact ⟨q, hpath', (hboth q hpath' hpath).1 hchanged⟩
    · exact ⟨f, hf', hchange⟩
  · rintro ⟨f, hpath, hchange⟩
    -- a change that both builds lead to is one that the second walk comes to
    have hfound : ∀ q, Relation.ReflTransGen (b.Includes hasher) s q →
        Relation.ReflTransGen (b'.Includes hasher) s q → Changed b b' hasher q →
        ∃ q ∈ reached'.toList, last'.hasChanged a.state q := by
      intro q hq hq' hchange
      obtain ⟨k, hk, hcompare⟩ := OrderedSet.contains_iff.1 ((hmem' q (hfile hq)).1.2 hq')
      obtain rfl := (hfile hq).eq_of_compare (hcanonical' k hk) hcompare
      exact ⟨q, hk, (hboth q hq hq').2 hchange⟩
    rcases reflTransGen_or_exists (fun p q hp => (h.includes_iff hp).1) hpath with
      hpath' | ⟨q, hq, hq', hchange'⟩
    · exact hfound f hpath hpath' hchange
    · exact hfound q hq hq' hchange'

lemma Continues.mem_recompile_of_new (h : Continues hasher b b' a a')
    (hs : s ∉ a.state.sources.toList) (hs' : s ∈ a'.state.sources.toList) :
    s ∈ a'.recompile.toList := by
  obtain ⟨sources, pass, last, hpass⟩ := Task.passes_of_analyseIn h.first
  obtain ⟨sources', pass', last', hpass'⟩ := Task.passes_of_analyseIn h.second
  rw [hpass'.sources_eq] at hs'
  obtain ⟨before, after, hsplit⟩ := List.append_of_mem hs'
  obtain ⟨v, -, -, hreached⟩ := hpass'.exists_walk hsplit
  rw [h.mem_recompile hpass' hs' hreached]
  left
  rw [TaskState.isSource, Bool.eq_false_iff]
  intro hin
  obtain ⟨k, hk, hcompare⟩ := OrderedSet.contains_iff.1 hin
  have hk' : k.IsCanonical := hpass.canonical k (hpass.sources_eq ▸ hk)
  obtain rfl := (hpass'.canonical s hs').eq_of_compare hk' hcompare
  exact hs hk

/-- Changes are found, and nothing but changes.  Let a build be analysed against the state that
another one with the same settings has left, and let no include have to be expanded.  A source of
both is compiled again if and only if some file that it led to in the first build was not read, or
is not what it was; and a source that is new is compiled. -/
theorem mem_recompile_iff (hhasher : hasher.IsTruthful) (hcontents : ContentsDiffer [b, b'])
    (hsettings : b'.task.settings = b.task.settings) (h : b.analyse hasher ∅ = .ok a)
    (h' : b'.analyse hasher a.state = .ok a') (hliteral : a.state.IsLiteral)
    (hliteral' : a'.state.IsLiteral) :
    (∀ s ∈ a.state.sources.toList, s ∈ a'.state.sources.toList →
      (s ∈ a'.recompile.toList ↔
        ∃ f, Relation.ReflTransGen (b.Includes hasher) s f ∧ Changed b b' hasher f)) ∧
      ∀ s ∈ a'.state.sources.toList, s ∉ a.state.sources.toList → s ∈ a'.recompile.toList := by
  have hcontinues : Continues hasher b b' a a' := ⟨hhasher, hcontents, hsettings, h, h'⟩
  exact ⟨fun s hs hs' => hcontinues.mem_recompile_iff_exists hliteral hliteral' hs hs',
    fun s hs' hs => hcontinues.mem_recompile_of_new hs hs'⟩

/-- Two sources, one of which includes headers that include each other. -/
def linked : Build where
  files := Workspace.ofTexts "p"
    [("a.c", "#include \"b.h\"\n"), ("b.h", "#include \"c.h\"\n"),
      ("c.h", "#include \"b.h\"\n"), ("d.c", "int d;\n")]
  task := ⟨"t", [⟨"a.c"⟩, ⟨"d.c"⟩], [], false, ∅, none⟩

/-- The same after the second header was edited, with a new source. -/
def relinked : Build where
  files := Workspace.ofTexts "p"
    [("a.c", "#include \"b.h\"\n"), ("b.h", "#include \"c.h\"\n"), ("c.h", "int c;\n"),
      ("d.c", "int d;\n"), ("e.c", "int e;\n")]
  task := { linked.task with sources := [⟨"a.c"⟩, ⟨"d.c"⟩, ⟨"e.c"⟩] }

theorem mem_recompile_relinked :
    (∃ f, Relation.ReflTransGen (linked.Includes contentHasher) ⟨"/p/a.c"⟩ f ∧
        Changed linked relinked contentHasher f) ∧
      ¬ ∃ f, Relation.ReflTransGen (linked.Includes contentHasher) ⟨"/p/d.c"⟩ f ∧
        Changed linked relinked contentHasher f := by
  have hcontents : ContentsDiffer [linked, relinked] :=
    contentsDiffer_of_contents (by decide +kernel)
  let a := (linked.analyse contentHasher ∅).toOption.get (by decide +kernel)
  let a' := (relinked.analyse contentHasher a.state).toOption.get (by decide +kernel)
  have h : linked.analyse contentHasher ∅ = .ok a := Except.eq_ok_get _
  have h' : relinked.analyse contentHasher a.state = .ok a' := Except.eq_ok_get _
  have hfacts : a.state.IsLiteral ∧ a'.state.IsLiteral ∧
      ⟨"/p/a.c"⟩ ∈ a.state.sources.toList ∧ ⟨"/p/a.c"⟩ ∈ a'.state.sources.toList ∧
      ⟨"/p/d.c"⟩ ∈ a.state.sources.toList ∧ ⟨"/p/d.c"⟩ ∈ a'.state.sources.toList ∧
      ⟨"/p/a.c"⟩ ∈ a'.recompile.toList ∧ ⟨"/p/d.c"⟩ ∉ a'.recompile.toList := by decide +kernel
  obtain ⟨hliteral, hliteral', ha, ha', hd, hd', hrecompile, hnot⟩ := hfacts
  obtain ⟨hiff, -⟩ :=
    mem_recompile_iff isTruthful_contentHasher hcontents rfl h h' hliteral hliteral'
  exact ⟨(hiff _ ha ha').1 hrecompile, fun hchange => hnot ((hiff _ hd hd').2 hchange)⟩

end Build

end IncludeDeps
