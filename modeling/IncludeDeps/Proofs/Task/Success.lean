import IncludeDeps.Proofs.Headers
import IncludeDeps.Proofs.Regrouping
import IncludeDeps.Proofs.TaskState.Forgetting

/-!
# Tasks that succeed

A task succeeds if its sources can be read, its include roots can be listed, its header dependencies file
can be written and its state can be kept (`Task.IsEquipped`), unless a header has no digest when that file
is written.

Whether a file can be written does not depend on what is in it.  So it is enough that a file without
records can be (`HeaderMap.exists_write_iff`), and what is left is to digest the headers.  Headers that
were found have snapshots, whose digests are taken.  Only a file under the include roots that the state
does not know is digested anew, and this is the one place where a header that cannot be read makes a task
fail: `Task.exists_outcome_iff`, and `Task.detect_refused` for a task that does.
-/

namespace IncludeDeps

/-- Something comes of a list if something comes of each element. -/
lemma Except.exists_mapM_iff {ε α β : Type} {f : α → Except ε β} {l : List α} :
    (∃ ys, l.mapM f = .ok ys) ↔ ∀ x ∈ l, ∃ y, f x = .ok y := by
  constructor
  · rintro ⟨ys, h⟩ x hx
    obtain ⟨y, -, hy⟩ := (Except.exists_of_mapM h).1 x hx
    exact ⟨y, hy⟩
  · intro h
    induction l with
    | nil => exact ⟨[], rfl⟩
    | cons a rest ih =>
      obtain ⟨y, hy⟩ := h a List.mem_cons_self
      obtain ⟨ys, hys⟩ := ih fun x hx => h x (List.mem_cons_of_mem _ hx)
      exact ⟨y :: ys, by rw [List.mapM_cons, hy, hys]; rfl⟩

/-! ## Files with other contents -/

namespace Workspace

variable {w w' : Workspace} {dir dir' place q : Place} {name name' last : String} {entry : Entry}
  {p target : Path} {x y : Bytes} {names : List String}

/-- What there is does not depend on the content of a file that has been put somewhere, except for this
file. -/
lemma at?_put_file (h : (w.put dir name (.file x)).at? q = some entry) :
    (w.put dir name (.file y)).at? q = some entry ∨
      entry = .file x ∧ (w.put dir name (.file y)).at? q = some (.file y) := by
  by_cases hq : q = []
  · rw [hq] at h ⊢
    exact .inl h
  · rw [at?_eq_get? hq] at h ⊢
    unfold put at h ⊢
    split at h
    · next hfits =>
      rw [dif_pos hfits]
      change (w.entries.insert (dir ++ [name]) (.file x)).get? q = some entry at h
      show (w.entries.insert (dir ++ [name]) (.file y)).get? q = some entry ∨
        entry = .file x ∧ (w.entries.insert (dir ++ [name]) (.file y)).get? q = some (.file y)
      rw [OrderedMap.get?_insert] at h ⊢
      by_cases hcompare : compare q (dir ++ [name]) = .eq
      · rw [if_pos hcompare] at h ⊢
        exact .inr ⟨(Option.some.inj h).symm, rfl⟩
      · rw [if_neg hcompare] at h ⊢
        exact .inl h
    · next hfits =>
      rw [dif_neg hfits]
      exact .inl h

lemma carries_put_file (w : Workspace) (dir : Place) (name : String) (x y : Bytes) :
    (w.put dir name (.file x)).Carries (w.put dir name (.file y)) where
  directory _ h := (at?_put_file h).resolve_right fun heq => nomatch heq.1
  link _ _ h := (at?_put_file h).resolve_right fun heq => nomatch heq.1

/-- What can be renamed is no directory, and does not take the name of one. -/
lemma exists_ends_of_rename (hlast : IsName last) (hp : segments p.text = names ++ [last])
    (h : w.rename p target = .ok w') :
    ∃ place name dir name' entry, w.Ends p place name ∧ w.Ends target dir name' ∧
      w.at? (place ++ [name]) = some entry ∧ entry ≠ .directory ∧
        w.at? (dir ++ [name']) ≠ some .directory := by
  unfold rename at h
  obtain ⟨spot, hlocate, h⟩ := Except.exists_of_bind h
  obtain ⟨goal, htarget, h⟩ := Except.exists_of_bind h
  split at h
  · split at h
    · cases h
    · cases h
    next entry hdirectory hat =>
    split at h
    · cases h
    next hslash =>
    split at h
    · cases h
    next hfree =>
    rw [Bool.not_eq_true] at hslash
    rw [hslash] at htarget
    exact ⟨_, _, _, _, entry, ends_of_locate_of_isName hlast hp hlocate, ends_of_locate htarget, hat,
      hdirectory, hfree⟩
  · cases h

lemma Ends.exists_rename (h : w.Ends p place name) (htarget : w.Ends target dir name')
    (hat : w.at? (place ++ [name]) = some entry) (hentry : entry ≠ .directory)
    (hfree : w.at? (dir ++ [name']) ≠ some .directory) : ∃ w', w.rename p target = .ok w' := by
  rw [rename, h.locate, htarget.locate]
  simp only [bind, Except.bind, hat]
  cases entry with
  | directory => exact absurd rfl hentry
  | file content => exact ⟨_, if_neg hfree⟩
  | link text => exact ⟨_, if_neg hfree⟩

/-- Whether a file can be renamed does not depend on the content of a file that was put somewhere. -/
lemma exists_rename_put (hlast : IsName last) (hp : segments p.text = names ++ [last])
    (h : (w.put dir name (.file x)).rename p target = .ok w') (y : Bytes) :
    ∃ w'', (w.put dir name (.file y)).rename p target = .ok w'' := by
  have hcarries := carries_put_file w dir name x y
  have hcwd : (w.put dir name (.file y)).cwd = (w.put dir name (.file x)).cwd := by
    rw [cwd_put, cwd_put]
  obtain ⟨place, name₁, dir', name', entry, hends, htarget, hat, hentry, hfree⟩ :=
    exists_ends_of_rename hlast hp h
  obtain ⟨entry', hat', hentry'⟩ : ∃ entry',
      (w.put dir name (.file y)).at? (place ++ [name₁]) = some entry' ∧ entry' ≠ .directory := by
    rcases at?_put_file (y := y) hat with hat' | ⟨-, hat'⟩
    · exact ⟨entry, hat', hentry⟩
    · exact ⟨.file y, hat', nofun⟩
  refine (hends.mono hcarries hcwd).exists_rename (htarget.mono hcarries hcwd) hat' hentry' ?_
  exact fun hdirectory => hfree ((carries_put_file w dir name y x).directory _ hdirectory)

end Workspace

open Workspace

namespace HeaderMap

variable {m : HeaderMap} {path : Path} {digest hasher : Workspace → Path → Except Fault Digest}
  {w w' : Workspace}

/-- There are records of all headers if all of them have digests. -/
lemma exists_records_iff {f : Path → Except Fault Digest} :
    (∃ records, m.records f = .ok records) ↔ ∀ e ∈ m.pairs, ∃ d, f e.2 = .ok d := by
  unfold records
  rw [Except.exists_mapM_iff]
  refine forall₂_congr fun e _ => ?_
  obtain ⟨target, p⟩ := e
  simp only
  cases f p with
  | error err => simp [Except.map]
  | ok d => simp [Except.map]

/-- The tree in which the headers are digested: the scratch file is there, and empty. -/
def begun (path : Path) (w : Workspace) : Workspace :=
  ((opened path w).write (scratch (opened path w) path) []).toOption.getD (opened path w)

lemma begun_eq (h : (opened path w).write (scratch (opened path w) path) [] = .ok w') :
    begun path w = w' := by
  rw [begun, h]
  rfl

/-- A file is written if its directories can be made and it can be published there. -/
lemma write_eq_ok_iff : (m.write path hasher).run.run w = (.ok (), w') ↔
    (createEach (parents path)).run.run w = (.ok (), opened path w) ∧
      m.publish path hasher (opened path w) = (.ok (), w') := by
  rw [write_run]
  rcases hmade : (createEach (parents path)).run.run w with ⟨r, w₁⟩
  obtain rfl : opened path w = w₁ := congrArg Prod.snd hmade
  cases r with
  | error e =>
    exact ⟨fun h => absurd h Computation.not_ok_of_error,
      fun h => absurd h.1 Computation.not_ok_of_error⟩
  | ok u =>
    rcases hpublish : m.publish path hasher (opened path w) with ⟨r, w₂⟩
    simp only [hpublish]
    cases r with
    | error e =>
      exact ⟨fun h => absurd h Computation.not_ok_of_error,
        fun h => absurd h.2 Computation.not_ok_of_error⟩
    | ok u =>
      constructor
      · rintro ⟨⟩
        exact ⟨trivial, rfl⟩
      · rintro ⟨-, ⟨⟩⟩
        rfl

/-- What has been digested can be published, if a file without records can be. -/
lemma exists_publish_of_records {records : List HeaderRecord}
    (hempty : (∅ : HeaderMap).publish path digest (opened path w) = (.ok (), w'))
    (hrecords : m.records (hasher (begun path w)) = .ok records) :
    ∃ w'', m.publish path hasher (opened path w) = (.ok (), w'') := by
  obtain ⟨names, last, hlast, hp⟩ := exists_segments_scratch (opened path w) path
  obtain ⟨w₁, none, w₂, hwrite, -, hwrite', hrename⟩ := exists_steps_of_publish hempty
  rw [begun_eq hwrite] at hrecords
  -- the same file with other content, and the same rename
  obtain ⟨dir, name, rfl, hwrites⟩ := exists_put_of_write hwrite'
  obtain ⟨w₄, hrename'⟩ := exists_rename_put hlast hp hrename (content records)
  refine ⟨w₄, ?_⟩
  unfold publish
  simp only [hwrite, hrecords, hwrites, hrename']

/-- Where a file without records can be written, one with records can be if all headers have
digests.  Whether something can be written at a path does not depend on what is written. -/
theorem exists_write_iff (hempty : ((∅ : HeaderMap).write path digest).run.run w = (.ok (), w')) :
    (∃ w'', (m.write path hasher).run.run w = (.ok (), w'')) ↔
      ∀ e ∈ m.pairs, ∃ d, hasher (begun path w) e.2 = .ok d := by
  rw [← exists_records_iff]
  rw [write_eq_ok_iff] at hempty
  constructor
  · rintro ⟨w'', h⟩
    obtain ⟨w₁, records, -, hbegin, hrecords, -⟩ := exists_steps_of_publish (write_eq_ok_iff.1 h).2
    exact ⟨records, by rw [begun_eq hbegin, hrecords]⟩
  · rintro ⟨records, h⟩
    obtain ⟨w'', h⟩ := exists_publish_of_records hempty.2 h
    exact ⟨w'', write_eq_ok_iff.2 ⟨hempty.1, h⟩⟩

end HeaderMap

/-! ## Tasks -/

lemma TaskState.exists_hasher_iff {s : TaskState} {fallback : Path → Except Fault Digest} {p : Path} :
    (∃ d, s.hasher fallback p = .ok d) ↔ (s.snapshot? p).isSome ∨ ∃ d, fallback p = .ok d := by
  unfold hasher
  cases s.snapshot? p with
  | none => simp
  | some f => simp

namespace Task

variable {t : Task} {hasher : Hasher} {cache cache' : StateCache} {r r' : Run} {w : Workspace}
  {a : Analysis} {m : HeaderMap} {o : Outcome} {path : Path}

/-- A task can read its sources, list its include roots, write a header dependencies file and keep a
state. -/
structure IsEquipped (t : Task) (hasher : Hasher) (cache : StateCache) (w : Workspace) : Prop where
  readable : ∀ s ∈ t.sources, ∃ q digest x, w.absolute s = .ok q ∧
    hasher w q.normalize = .ok digest ∧ w.read q.normalize = .ok x
  listed : ∃ m, HeaderMap.underRoots w t.roots = .ok m
  written : ∀ path ∈ t.headerFile, ∃ digest w',
    ((∅ : HeaderMap).write path digest).run.run w = (.ok (), w')
  kept : ∀ w', t.Publishes w w' → ∀ state, ∃ cache' w'',
    (cache.set state).run.run w' = (.ok cache', w'')

lemma IsEquipped.exists_analysis (h : t.IsEquipped hasher cache w) (previous : TaskState) :
    ∃ a, t.analyseIn hasher w previous = .ok a := by
  have hread : ∀ s ∈ t.sources, ∃ q, w.absolute s = .ok q ∧
      ∃ d, (t.context hasher w previous).draft q.normalize = .ok d := by
    intro s hs
    obtain ⟨q, digest, x, hq, hdigest, hx⟩ := h.readable s hs
    exact ⟨q, hq, PassContext.exists_draft_of_reads hdigest hx⟩
  obtain ⟨l, pass, last, a, -, ha, -⟩ := exists_passes_of_readable hread
  exact ⟨a, ha⟩

/-- Once its headers are known, a task writes the header dependencies file and keeps the state of the
analysis, unless the file cannot be written. -/
lemma cases_of_detect {x : Except TaskError (Outcome × StateCache)}
    (h : (t.detect hasher cache).run.run r = (x, r'))
    (hanalyse : t.analyseIn hasher r.files (cache.get r.files) = .ok a)
    (hcollect : HeaderMap.collect r.files t.roots a = .ok m) (hpath : t.headerFile = some path) :
    (∃ err, x = .error (.headerFile err)) ∨ ∃ w y,
      (m.write path fun w => a.state.hasher (hasher w)).run.run r.files = (.ok (), w) ∧
      (cache.set a.state).run.run w = (y, r'.files) ∧
      x = (y.map (Prod.mk ⟨a.recompile, a.removed, m.headers, a.isIncomplete⟩)).mapError (.state t.name) := by
  -- neither the analysis nor the listing of the headers changes a file
  obtain ⟨r₁, hrun, hfiles⟩ : ∃ r₁, (t.analyse hasher cache).run.run r =
      (t.analyseIn hasher r.files (cache.get r.files), r₁) ∧ r₁.files = r.files := analyse_run
  rw [hanalyse] at hrun
  have hroots : (RunM.onFiles TaskError.rootScan
      (WorkspaceM.ask fun w => HeaderMap.collect w t.roots a)).run.run r₁ = (.ok m, r₁) := by
    rw [RunM.run_onFiles, WorkspaceM.run_ask, hfiles, hcollect, ← hfiles]
    rfl
  unfold detect at h
  rw [Computation.run_bind_of_ok hrun, Computation.run_bind_of_ok hroots, hpath] at h
  rcases hwrite : (m.write path fun w => a.state.hasher (hasher w)).run.run r.files with ⟨u, w⟩
  have hfile : (RunM.onFiles TaskError.headerFile
      (m.write path fun w => a.state.hasher (hasher w))).run.run r₁ =
        (u.mapError .headerFile, { r₁ with files := w }) := by
    rw [RunM.run_onFiles, hfiles, hwrite]
  cases u with
  | error err =>
    rw [Computation.run_bind, hfile] at h
    cases h
    exact .inl ⟨err, rfl⟩
  | ok u =>
    rw [Computation.run_bind_of_ok hfile, Computation.run_bind, RunM.run_onFiles] at h
    rcases hset : (cache.set a.state).run.run w with ⟨y, w'⟩
    simp only [hset] at h
    refine .inr ⟨w, y, rfl, ?_⟩
    cases y with
    | error err =>
      cases h
      exact ⟨hset, rfl⟩
    | ok cache' =>
      cases h
      exact ⟨hset, rfl⟩

lemma exists_write_of_detect (h : (t.detect hasher cache).run.run r = (.ok (o, cache'), r'))
    (hanalyse : t.analyseIn hasher r.files (cache.get r.files) = .ok a)
    (hcollect : HeaderMap.collect r.files t.roots a = .ok m) (hpath : t.headerFile = some path) :
    ∃ w', (m.write path fun w => a.state.hasher (hasher w)).run.run r.files = (.ok (), w') := by
  rcases cases_of_detect h hanalyse hcollect hpath with ⟨err, heq⟩ | ⟨w', -, hwrite, -⟩
  · cases heq
  · exact ⟨w', hwrite⟩

/-- A task that can keep its state succeeds if it can write its header dependencies file.  A
failure of the analysis or of the listing is excluded, and there is no other place where it could
fail. -/
lemma exists_detect_of_write (h : t.IsEquipped hasher cache r.files)
    (hanalyse : t.analyseIn hasher r.files (cache.get r.files) = .ok a)
    (hcollect : HeaderMap.collect r.files t.roots a = .ok m)
    (hwrite : ∀ path, t.headerFile = some path →
      ∃ w', (m.write path fun w => a.state.hasher (hasher w)).run.run r.files = (.ok (), w')) :
    ∃ o cache' r', (t.detect hasher cache).run.run r = (.ok (o, cache'), r') := by
  rcases hrun : (t.detect hasher cache).run.run r with ⟨x, r'⟩
  have hdetects := detects_of_detect hrun
  -- of all ways that a task may take, the ones that fail are each excluded by one assumption
  generalize r'.files = w' at hdetects
  cases hdetects with
  | unread hfailed =>
    rw [hanalyse] at hfailed
    cases hfailed
  | unlisted hanalyse' hfailed =>
    rw [hanalyse] at hanalyse'
    cases hanalyse'
    rw [hcollect] at hfailed
    cases hfailed
  | unwritten hanalyse' hcollect' hpath hfailed =>
    rw [hanalyse] at hanalyse'
    cases hanalyse'
    rw [hcollect] at hcollect'
    cases hcollect'
    obtain ⟨w₁, hwritten⟩ := hwrite _ hpath
    rw [hfailed] at hwritten
    exact absurd hwritten Computation.not_ok_of_error
  | unkept _ _ hpublish hfailed =>
    obtain ⟨cache', w₁, hkept⟩ := h.kept _ hpublish _
    rw [hfailed] at hkept
    exact absurd hkept Computation.not_ok_of_error
  | kept => exact ⟨_, _, r', rfl⟩

/-- An equipped task succeeds if all headers of its analysis have digests when they are asked for.
Those that the state knows have one; for the others the files are read while the new file is
already open. -/
theorem exists_detect_iff_digests (h : t.IsEquipped hasher cache r.files)
    (hanalyse : t.analyseIn hasher r.files (cache.get r.files) = .ok a)
    (hcollect : HeaderMap.collect r.files t.roots a = .ok m) :
    (∃ o cache' r', (t.detect hasher cache).run.run r = (.ok (o, cache'), r')) ↔
      ∀ path ∈ t.headerFile, ∀ e ∈ m.pairs, (a.state.snapshot? e.2).isSome ∨
        ∃ d, hasher (HeaderMap.begun path r.files) e.2 = .ok d := by
  have hwritten : ∀ path, t.headerFile = some path →
      ((∃ w', (m.write path fun w => a.state.hasher (hasher w)).run.run r.files = (.ok (), w')) ↔
        ∀ e ∈ m.pairs, (a.state.snapshot? e.2).isSome ∨
          ∃ d, hasher (HeaderMap.begun path r.files) e.2 = .ok d) := by
    intro path hpath
    obtain ⟨digest, w', hempty⟩ := h.written path hpath
    rw [HeaderMap.exists_write_iff hempty]
    exact forall₂_congr fun _ _ => TaskState.exists_hasher_iff
  constructor
  · rintro ⟨o, cache', r', hdetect⟩ path hpath
    exact (hwritten path hpath).1 (exists_write_of_detect hdetect hanalyse hcollect hpath)
  · intro hdigests
    exact exists_detect_of_write h hanalyse hcollect fun path hpath =>
      (hwritten path hpath).2 (hdigests path hpath)

/-- Every header that was found has a snapshot. -/
lemma isSome_snapshot_of_found (h : t.analyseIn hasher w (cache.get w) = .ok a) {e : String × Path}
    (he : e ∈ HeaderMap.pairs a.found) : (a.state.snapshot? e.2).isSome := by
  obtain ⟨sources, pass, last, hpass⟩ := passes_of_analyseIn h
  obtain ⟨⟨target, l⟩, hl, hmem⟩ := List.mem_flatMap.1 he
  obtain ⟨q, hq, rfl⟩ := List.mem_map.1 hmem
  have hkey := ((hpass.passes.covers.found target q).1 ⟨l, OrderedMap.get?_of_entry hl, hq⟩).1
  obtain ⟨⟨q, f⟩, hf, rfl⟩ := List.mem_map.1 hkey
  show (a.state.files.get? q).isSome
  rw [OrderedMap.get?_of_entry hf]
  rfl

/-- An equipped task succeeds, unless it has to write down all files under its include roots, and
there is one that the state does not know and that has no digest.  To be equipped is to have
sources that can be read, roots that can be listed, a place for the header dependencies file and
one for the state; headers need not be readable for that. -/
theorem exists_outcome_iff (h : t.IsEquipped hasher cache r.files) :
    ∃ a r₁, (t.analyse hasher cache).run.run r = (.ok a, r₁) ∧
      ((∃ o cache' r', (t.detect hasher cache).run.run r = (.ok (o, cache'), r')) ↔
        (a.isIncomplete → ∀ path ∈ t.headerFile, ∀ m, HeaderMap.underRoots r.files t.roots = .ok m →
          ∀ e ∈ m.pairs, (a.state.snapshot? e.2).isSome ∨
            ∃ d, hasher (HeaderMap.begun path r.files) e.2 = .ok d)) := by
  obtain ⟨a, hanalyse⟩ := h.exists_analysis (cache.get r.files)
  obtain ⟨r₁, hrun, -⟩ : ∃ r₁, (t.analyse hasher cache).run.run r =
      (t.analyseIn hasher r.files (cache.get r.files), r₁) ∧ r₁.files = r.files := analyse_run
  refine ⟨a, r₁, hanalyse ▸ hrun, ?_⟩
  cases hincomplete : a.isIncomplete with
  | false =>
    have hcollect : HeaderMap.collect r.files t.roots a = .ok a.found :=
      collect_of_precise hanalyse hincomplete
    rw [exists_detect_iff_digests h hanalyse hcollect]
    exact ⟨fun _ h => absurd h Bool.false_ne_true,
      fun _ _ _ e he => .inl (isSome_snapshot_of_found hanalyse he)⟩
  | true =>
    obtain ⟨m, hlisted⟩ := h.listed
    have hcollect : HeaderMap.collect r.files t.roots a = .ok m := by
      rw [HeaderMap.collect, if_pos hincomplete, hlisted]
    rw [exists_detect_iff_digests h hanalyse hcollect, hlisted]
    constructor
    · rintro hdigests - path hpath _ ⟨⟩
      exact hdigests path hpath
    · intro hdigests path hpath
      exact hdigests rfl path hpath m rfl

/-- A source that includes a header beside it, and something that cannot be expanded; and a file under an
include root. -/
def besideRoot : Run where
  files := ((Workspace.ofTexts "p" [("a.c", "#include \"b.h\"\n#include UNKNOWN\n"), ("b.h", "")]).put
    ["p"] "inc" .directory).put ["p", "inc"] "x.h" (.file [])

/-- The task of compiling it, with a header dependencies file. -/
def besideTask : Task := ⟨":p:main", [⟨"a.c"⟩], [⟨"/p/inc"⟩], false, ∅, some ⟨"/p/deps"⟩⟩

lemma isEquipped_besideTask {p : Path} (hp : p ≠ ⟨"/p/a.c"⟩) :
    besideTask.IsEquipped (RunM.hasherWithout p) (.memory none) besideRoot.files where
  readable := by
    intro s hs
    obtain rfl := List.mem_singleton.1 hs
    have hsource : besideRoot.files.absolute ⟨"a.c"⟩ = .ok ⟨"/p/a.c"⟩ ∧
        (⟨"/p/a.c"⟩ : Path).normalize = ⟨"/p/a.c"⟩ ∧ besideRoot.files.isFile ⟨"/p/a.c"⟩ := by
      decide +kernel
    obtain ⟨habsolute, hnormal, hfile⟩ := hsource
    obtain ⟨digest, hdigest⟩ := exists_contentHasher hfile
    obtain ⟨x, hx⟩ := Workspace.exists_read_of_isFile hfile
    refine ⟨_, digest, x, habsolute, ?_, hnormal.symm ▸ hx⟩
    rw [hnormal, RunM.hasherWithout, if_neg hp.symm, hdigest]
  listed := by
    have hroots : (HeaderMap.underRoots besideRoot.files besideTask.roots).toBool := by decide +kernel
    cases h : HeaderMap.underRoots besideRoot.files besideTask.roots with
    | ok m => exact ⟨m, rfl⟩
    | error e =>
      rw [h] at hroots
      cases hroots
  written := by
    intro path hpath
    obtain rfl : ⟨"/p/deps"⟩ = path := Option.some.inj hpath
    obtain ⟨u, w', h⟩ := Computation.exists_of_toBool (x := ((∅ : HeaderMap).write ⟨"/p/deps"⟩
      contentHasher).run.run besideRoot.files) (by decide +kernel)
    exact ⟨contentHasher, w', h⟩
  kept _ _ state := ⟨.memory (some state), _, rfl⟩

/-- The header beside the source cannot be read, and all files under the root are written down. -/
theorem exists_outcome_tolerated : ∃ a r₁ o cache' r',
    besideTask.IsEquipped (RunM.hasherWithout ⟨"/p/b.h"⟩) (.memory none) besideRoot.files ∧
      (besideTask.analyse (RunM.hasherWithout ⟨"/p/b.h"⟩) (.memory none)).run.run besideRoot =
        (.ok a, r₁) ∧
      a.isIncomplete ∧ a.state.snapshot? ⟨"/p/b.h"⟩ = none ∧
      (besideTask.detect (RunM.hasherWithout ⟨"/p/b.h"⟩) (.memory none)).run.run besideRoot =
        (.ok (o, cache'), r') := by
  have hequipped := isEquipped_besideTask (p := ⟨"/p/b.h"⟩) (by decide)
  have hfindings : (besideTask.analyse (RunM.hasherWithout ⟨"/p/b.h"⟩)
      (.memory none)).run.run besideRoot |>.1.toOption.any fun a =>
        a.isIncomplete ∧ a.state.snapshot? ⟨"/p/b.h"⟩ = none := by
    decide +kernel
  have hdigests : (HeaderMap.underRoots besideRoot.files besideTask.roots).toOption.any fun m =>
      ∀ e ∈ m.pairs, (RunM.hasherWithout ⟨"/p/b.h"⟩
        (HeaderMap.begun ⟨"/p/deps"⟩ besideRoot.files) e.2).toOption.isSome := by
    decide +kernel
  obtain ⟨a, r₁, hanalyse, hfound⟩ := Except.exists_of_any hfindings
  rw [decide_eq_true_eq] at hfound
  obtain ⟨a', r₁', hanalyse', hiff⟩ := exists_outcome_iff (r := besideRoot) hequipped
  rw [hanalyse] at hanalyse'
  cases hanalyse'
  obtain ⟨o, cache', r', hdetect⟩ := hiff.2 fun _ path hpath m hm e he => by
    obtain rfl : ⟨"/p/deps"⟩ = path := Option.some.inj hpath
    rw [hm] at hdigests
    exact .inr (Except.isSome_toOption_iff.1 (of_decide_eq_true hdigests e he))
  exact ⟨a, r₁, o, cache', r', hequipped, hanalyse, hfound.1, hfound.2, hdetect⟩

/-- A file under the root has no digest, so the header dependencies file is not written, although all that
the task needs is there. -/
theorem detect_refused :
    besideTask.IsEquipped (RunM.hasherWithout ⟨"/p/inc/x.h"⟩) (.memory none) besideRoot.files ∧
      ∃ r', (besideTask.detect (RunM.hasherWithout ⟨"/p/inc/x.h"⟩) (.memory none)).run.run besideRoot =
        (.error (.headerFile ⟨⟨"/p/deps"⟩, .notFound⟩), r') := by
  have hrefused : ((besideTask.detect (RunM.hasherWithout ⟨"/p/inc/x.h"⟩)
      (.memory none)).run.run besideRoot).1 = .error (.headerFile ⟨⟨"/p/deps"⟩, .notFound⟩) := by
    decide +kernel
  obtain ⟨r', hrun, -⟩ := Computation.exists_of_fst_eq (P := fun _ => True) ⟨hrefused, trivial⟩
  exact ⟨isEquipped_besideTask (by decide), r', hrun⟩

end Task

end IncludeDeps
