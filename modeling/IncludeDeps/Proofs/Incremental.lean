import IncludeDeps.Proofs.Task

/-!
# Incremental analyses

What is taken over from the last run never shows in the outcome, as long as different contents have
different digests and different settings have different fingerprints.

* `PassContext.Alike`: two passes that read the same files in the same way are the same;
* `TaskState.Recalls`: every snapshot of a state is of a content that was read before;
* `Build.Follows.draft_eq`: directives that are taken over are those of the content that is there
  now;
* `Build.analyse_stateAfter`: in a sequence of builds each one finds out what it would find out
  without the others.
-/

namespace IncludeDeps

/-! ## Passes that read alike -/

/-- Two passes read the same files in the same way, whatever was known before them. -/
structure PassContext.Alike (c c' : PassContext) : Prop where
  reader : c.reader = c'.reader
  settings : c.settings = c'.settings
  draft : c.draft = c'.draft

variable {c c' : PassContext}

lemma PassContext.Alike.search (h : c.Alike c') : c.search = c'.search := by
  rw [PassContext.search, h.settings, h.reader]
  rfl

lemma Pass.read_congr (h : c.Alike c') : Pass.read c = Pass.read c' := by
  funext pass p
  unfold read
  rw [h.draft]

lemma Pass.readHeader_congr (h : c.Alike c') : Pass.readHeader c = Pass.readHeader c' := by
  funext pass p
  unfold readHeader
  rw [read_congr h]

lemma Walk.enter_congr (h : c.Alike c') : Walk.enter c = Walk.enter c' := by
  funext w p
  unfold enter
  rw [Pass.readHeader_congr h, h.search]

lemma Walk.run_congr (h : c.Alike c') (fuel : Nat) : Walk.run c fuel = Walk.run c' fuel := by
  induction fuel with
  | zero => rfl
  | succ fuel ih =>
    funext stack w
    unfold run
    rw [enter_congr h, ih]

lemma Pass.visitAll_congr (h : c.Alike c') : Pass.visitAll c = Pass.visitAll c' := by
  have hvisit : Pass.visit c = Pass.visit c' := by
    funext pass source
    unfold visit
    rw [h.reader, h.settings, Walk.run_congr h]
  funext pass sources
  rw [visitAll, visitAll, hvisit]

lemma Pass.readSources_congr (h : c.Alike c') : Pass.readSources c = Pass.readSources c' := by
  funext pass sources
  induction sources generalizing pass with
  | nil => rfl
  | cons s rest ih =>
    unfold readSources
    rw [read_congr h]
    simp only [ih]

namespace Analysis

/-- What an analysis finds out about the files as they are: the state to remember, the headers that
were found, and whether some expression could not be expanded completely. -/
def findings (a : Analysis) : TaskState × OrderedMap String (OrderedSet Path) × Bool :=
  (a.state, a.found, a.isIncomplete)

lemma findings_ofPass (h : c.Alike c') (sources : OrderedSet Path) (pass : Pass) :
    (ofPass c sources pass).findings = (ofPass c' sources pass).findings := by
  unfold findings ofPass
  rw [h.settings]

/-- What is found out depends on what is read, and on nothing else: the previous state saves
readings, and decides what has to be compiled, but it does not show in the findings. -/
theorem run_congr (h : c.Alike c') (sources : OrderedSet Path) :
    (run c sources).1.map findings = (run c' sources).1.map findings := by
  unfold run
  rw [Pass.readSources_congr h, Pass.visitAll_congr h]
  split
  · rfl
  · exact congrArg Except.ok (findings_ofPass h sources _)

end Analysis

/-! ## Sequences of builds -/

/-- A task and the files at the time when it is analysed. -/
structure Build where
  files : Workspace
  task : Task

namespace Build

variable {hasher : Hasher} {b : Build} {builds : List Build} {previous : TaskState} {p : Path}
  {d : Draft}

/-- The contents that files have in the builds are told apart by their digests. -/
def ContentsDiffer (builds : List Build) : Prop :=
  ∀ b ∈ builds, ∀ b' ∈ builds, ∀ p p' x x', b.files.read p = .ok x → b'.files.read p' = .ok x' →
    Digest.ofBytes x = Digest.ofBytes x' → x = x'

/-- The settings of the builds are told apart by their fingerprints: those with the same one are
the same. -/
def SettingsDiffer (builds : List Build) : Prop :=
  ∀ b ∈ builds, ∀ b' ∈ builds, b.task.settings.fingerprint = b'.task.settings.fingerprint →
    b.task.settings = b'.task.settings

instance : Decidable (SettingsDiffer builds) :=
  inferInstanceAs (Decidable (∀ b ∈ builds, ∀ b' ∈ builds,
    b.task.settings.fingerprint = b'.task.settings.fingerprint →
      b.task.settings = b'.task.settings))

lemma contentsDiffer_of_contents
    (h : ∀ x ∈ builds.flatMap (·.files.contents), ∀ x' ∈ builds.flatMap (·.files.contents),
      Digest.ofBytes x = Digest.ofBytes x' → x = x') : ContentsDiffer builds := by
  intro b hb b' hb' p p' x x' hx hx'
  have hmem : x ∈ builds.flatMap (·.files.contents) :=
    List.mem_flatMap.2 ⟨b, hb, Workspace.mem_contents_of_read hx⟩
  have hmem' : x' ∈ builds.flatMap (·.files.contents) :=
    List.mem_flatMap.2 ⟨b', hb', Workspace.mem_contents_of_read hx'⟩
  exact h x hmem x' hmem'

/-- What a build works with. -/
abbrev context (b : Build) (hasher : Hasher) (previous : TaskState) : PassContext :=
  b.task.context hasher b.files previous

/-- Where a build searches headers. -/
def search (b : Build) : Search := ⟨b.task.settings.roots, b.files.isFile⟩

lemma search_context : (b.context hasher previous).search = b.search := rfl

/-- The analysis of a build against a state, with fresh lookups. -/
def analyse (b : Build) (hasher : Hasher) (previous : TaskState) : Except TaskError Analysis :=
  b.task.analyseIn hasher b.files previous

/-- The state that is left by a build.  One that fails leaves the state that was there. -/
def leave (hasher : Hasher) (previous : TaskState) (b : Build) : TaskState :=
  match b.analyse hasher previous with
  | .ok a => a.state
  | .error _ => previous

/-- The state that a sequence of builds leaves, if there is none at the start. -/
def stateAfter (hasher : Hasher) (builds : List Build) : TaskState :=
  builds.foldl (leave hasher) ∅

/-- A digest and directives are those of the content of the file. -/
def IsRead (b : Build) (p : Path) (digest : Digest) (directives : Directives) : Prop :=
  ∃ x, b.files.read p = .ok x ∧ digest = Digest.ofBytes x ∧
    directives = Source.readBytes b.task.imports x

end Build

/-- Every snapshot of a state is of a content that was read in one of the builds, under settings
with the fingerprint of the state. -/
def TaskState.Recalls (builds : List Build) (s : TaskState) : Prop :=
  ∀ e ∈ s.files.toList, ∃ b ∈ builds, s.settings = some b.task.settings.fingerprint ∧
    ∃ p, b.IsRead p e.2.digest e.2.directives

namespace Build

/-- All that an analysis relies on when it takes over what the previous state knows. -/
structure Follows (hasher : Hasher) (builds : List Build) (previous : TaskState) (b : Build) :
    Prop where
  truthful : hasher.IsTruthful
  contents : ContentsDiffer builds
  settings : SettingsDiffer builds
  mem : b ∈ builds
  recalls : previous.Recalls builds

variable {hasher : Hasher} {b : Build} {builds : List Build} {previous : TaskState} {p : Path}
  {d : Draft} {a : Analysis}

/-! ## What is taken over -/

/-- Directives that are taken over are those of the content with the given digest. -/
lemma Follows.eq_of_knownDirectives? {directives : Directives} {x : Bytes}
    (hb : b.Follows hasher builds previous) (hx : b.files.read p = .ok x)
    (h : (b.context hasher previous).knownDirectives? p (Digest.ofBytes x) = some directives) :
    directives = Source.readBytes b.task.imports x := by
  unfold PassContext.knownDirectives? at h
  split at h
  · next s hs =>
    split at h
    · next hknown =>
      cases h
      obtain ⟨hreuse, hdigest⟩ := Bool.and_eq_true_iff.1 hknown
      rw [decide_eq_true_eq] at hdigest
      obtain ⟨k, hk, -⟩ := OrderedMap.exists_mem_of_get?_eq_some hs
      obtain ⟨b₀, hb₀, hfingerprint, p₀, x₀, hx₀, hdigest₀, hdirectives⟩ := hb.recalls _ hk
      -- a state is used only under the settings that it was made with, or under others with the
      -- same fingerprint, and there are none of these
      have hsame : b₀.task.settings = b.task.settings := by
        refine hb.settings b₀ hb₀ b hb.mem (Option.some_inj.1 ?_)
        rw [← hfingerprint]
        exact of_decide_eq_true hreuse
      have himports : b₀.task.imports = b.task.imports := congrArg Settings.imports hsame
      -- contents of any two builds that have the same digest are the same
      have hcontent : x₀ = x :=
        hb.contents b₀ hb₀ b hb.mem p₀ p x₀ x hx₀ hx (hdigest₀.symm.trans hdigest)
      rw [hdirectives, himports, hcontent]
    · cases h
  · cases h

/-- A file is read as if nothing were known before. -/
lemma Follows.draft_eq (hb : b.Follows hasher builds previous) (p : Path) :
    (b.context hasher previous).draft p = (hasher b.files p).bind fun digest =>
      (b.files.read p).map fun x => ⟨digest, Source.readBytes b.task.imports x, [], false⟩ := by
  show ((hasher b.files p).bind fun digest => _) = _
  cases hdigest : hasher b.files p with
  | error e => rfl
  | ok digest =>
    obtain ⟨x, hx, rfl⟩ := hb.truthful b.files p digest hdigest
    rw [hx]
    cases hknown : (b.context hasher previous).knownDirectives? p (Digest.ofBytes x) with
    | none =>
      simp only [Except.bind, hknown]
      show ((b.files.read p).bind fun x => _) = _
      rw [hx]
      rfl
    | some directives =>
      simp only [Except.bind, hknown]
      rw [hb.eq_of_knownDirectives? hx hknown]
      rfl

lemma Follows.isRead_of_draft (hb : b.Follows hasher builds previous)
    (h : (b.context hasher previous).draft p = .ok d) : b.IsRead p d.digest d.directives := by
  rw [hb.draft_eq] at h
  obtain ⟨digest, hdigest, h⟩ := Except.exists_of_bind h
  obtain ⟨x, hx, rfl⟩ := hb.truthful b.files p digest hdigest
  rw [hx] at h
  cases h
  exact ⟨x, hx, rfl, rfl⟩

/-! ## What is left -/

lemma draft_empty (b : Build) (hasher : Hasher) (p : Path) :
    (b.context hasher ∅).draft p = (hasher b.files p).bind fun digest =>
      (b.files.read p).map fun x => ⟨digest, Source.readBytes b.task.imports x, [], false⟩ := by
  show ((hasher b.files p).bind fun digest => _) = _
  cases hasher b.files p with
  | error e => rfl
  | ok digest => rfl

lemma recalls_empty (builds : List Build) : TaskState.Recalls builds ∅ := fun _ he => nomatch he

/-- A pass reads all files as a pass does before which nothing is known. -/
lemma Follows.alike (hb : b.Follows hasher builds previous) :
    (b.context hasher previous).Alike (b.context hasher ∅) where
  reader := rfl
  settings := rfl
  draft := by
    funext p
    rw [hb.draft_eq, draft_empty]

/-- What an analysis leaves recalls what was read, if what was there did. -/
lemma Follows.recalls_state (hb : b.Follows hasher builds previous)
    (h : b.analyse hasher previous = .ok a) : a.state.Recalls builds := by
  obtain ⟨sources, pass, last, hpass⟩ := Task.passes_of_analyseIn h
  intro e he
  obtain ⟨d, hd, hdigest, hdirectives⟩ := hpass.draft_of_mem he
  have hread := hb.isRead_of_draft hd
  rw [← hdigest, ← hdirectives] at hread
  exact ⟨b, hb.mem, by rw [hpass.outcome]; rfl, e.1, hread⟩

lemma Follows.recalls_leave (hb : b.Follows hasher builds previous) :
    (leave hasher previous b).Recalls builds := by
  unfold leave
  cases h : b.analyse hasher previous with
  | ok a => exact hb.recalls_state h
  | error e => exact hb.recalls

lemma recalls_stateAfter {before : List Build} (hhasher : hasher.IsTruthful)
    (hcontents : ContentsDiffer builds) (hsettings : SettingsDiffer builds)
    (hbefore : before ⊆ builds) : (stateAfter hasher before).Recalls builds := by
  have key : ∀ previous : TaskState, previous.Recalls builds →
      (before.foldl (leave hasher) previous).Recalls builds := by
    induction before with
    | nil => exact fun _ h => h
    | cons b rest ih =>
      intro previous hprevious
      have hb : b ∈ builds := hbefore List.mem_cons_self
      have hrest : rest ⊆ builds := fun _ h => hbefore (List.mem_cons_of_mem _ h)
      have hfollows : b.Follows hasher builds previous :=
        ⟨hhasher, hcontents, hsettings, hb, hprevious⟩
      exact ih hrest _ hfollows.recalls_leave
  exact key ∅ (recalls_empty builds)

/-! ## The outcome -/

/-- What a build finds out, or why it fails, does not depend on a state that recalls what was
read. -/
lemma Follows.findings_analyse (hb : b.Follows hasher builds previous) :
    (b.analyse hasher previous).map Analysis.findings =
      (b.analyse hasher ∅).map Analysis.findings := by
  unfold analyse
  rw [Task.analyseIn_eq, Task.analyseIn_eq, Task.tell, Except.map_mapError, Except.map_mapError]
  cases RunM.absoluteAll b.files b.task.sources with
  | error e => rfl
  | ok l => exact congrArg _ (Analysis.run_congr hb.alike (OrderedSet.ofList l))

/-- Incremental is as good as from scratch.  In a sequence of builds, each against the state that
the last one that succeeded has left, every build finds out what it finds out against no state, or
fails in the same way; and the directives that it tells of its sources are those of their contents
at that time. -/
theorem analyse_stateAfter {before after : List Build} (hhasher : hasher.IsTruthful)
    (hcontents : ContentsDiffer builds) (hsettings : SettingsDiffer builds)
    (h : builds = before ++ b :: after) :
    (b.analyse hasher (stateAfter hasher before)).map Analysis.findings =
        (b.analyse hasher ∅).map Analysis.findings ∧
      ∀ a, b.analyse hasher (stateAfter hasher before) = .ok a → ∀ p ∈ a.state.sources.toList,
        ∃ x, b.files.read p = .ok x ∧
          a.sourceDirectives.get? p = some (Source.readBytes b.task.imports x) := by
  have hmem : b ∈ builds := by simp [h]
  have hbefore : before ⊆ builds := by simp [h]
  have hrecalls := recalls_stateAfter hhasher hcontents hsettings hbefore
  have hb : b.Follows hasher builds (stateAfter hasher before) :=
    ⟨hhasher, hcontents, hsettings, hmem, hrecalls⟩
  refine ⟨hb.findings_analyse, fun a ha p hp => ?_⟩
  obtain ⟨sources, pass, last, hpass⟩ := Task.passes_of_analyseIn ha
  rw [hpass.sources_eq] at hp
  obtain ⟨d, hd, hdirectives⟩ := hpass.get?_sourceDirectives hp
  obtain ⟨x, hx, -, heq⟩ := hb.isRead_of_draft hd
  exact ⟨x, hx, by rw [hdirectives, heq]⟩

/-- A source that includes one header and imports another. -/
def original : Build where
  files := Workspace.ofTexts "p"
    [("a.c", "#include \"b.h\"\n#import \"c.h\"\n"), ("b.h", "#define N 1\n"), ("c.h", "")]
  task := ⟨"t", [⟨"a.c"⟩], [], true, ∅, none⟩

/-- The same after one header was edited, with imports that do not count. -/
def edited : Build where
  files := Workspace.ofTexts "p"
    [("a.c", "#include \"b.h\"\n#import \"c.h\"\n"), ("b.h", "#define N 2\n"), ("c.h", "")]
  task := { original.task with imports := false }

theorem analyse_stateAfter_original :
    (stateAfter contentHasher [original]).files.size = 3 ∧
      (edited.analyse contentHasher (stateAfter contentHasher [original])).isOk ∧
      (edited.analyse contentHasher (stateAfter contentHasher [original])).map Analysis.findings =
        (edited.analyse contentHasher ∅).map Analysis.findings := by
  have hcontents : ContentsDiffer [original, edited] :=
    contentsDiffer_of_contents (by decide +kernel)
  have hsettings : SettingsDiffer [original, edited] := by decide +kernel
  have heq : [original, edited] = [original] ++ edited :: [] := rfl
  exact ⟨by decide +kernel, by decide +kernel,
    (analyse_stateAfter isTruthful_contentHasher hcontents hsettings heq).1⟩

end Build

end IncludeDeps
