import IncludeDeps.Proofs.Headers.Precision
import IncludeDeps.Proofs.Headers.RoundTrip

/-!
# The versions that a header dependencies file records

As long as every expression could be expanded, the header dependencies file of a task tells of the versions
of the headers that were analysed.  Every header that was found has a snapshot in the new state, so its
digest is the one that is remembered there, and no header is digested again when the file is written:
`Task.records_of_precise`.

`HeaderMap.Installs` tells which records were written, whatever the path leads to afterwards.  That the
hasher is not asked is said by giving another one: with any hasher for the files that have no snapshot the
records are the same (`HeaderMap.records_congr`).
-/

namespace IncludeDeps

namespace HeaderMap

variable {m : HeaderMap} {path : Path} {hasher : Workspace → Path → Except Fault Digest}
  {w w' : Workspace} {records : List HeaderRecord} {p : Path}

/-- The records are all that is written to the scratch file, and this takes the place of the file. -/
def Installs (path : Path) (records : List HeaderRecord) (w w' : Workspace) : Prop :=
  ∃ w₁ w₂, (opened path w).write (scratch (opened path w) path) [] = .ok w₁ ∧
    w₁.write (scratch (opened path w) path) (content records) = .ok w₂ ∧
    w₂.rename (scratch (opened path w) path) path = .ok w'

/-- A file that is written holds the records of the headers as they are digested then. -/
lemma installs_of_write (h : (m.write path hasher).run.run w = (.ok (), w')) :
    ∃ records, m.records (hasher (begun path w)) = .ok records ∧ Installs path records w w' := by
  obtain ⟨w₁, records, w₂, hbegin, hrecords, hwrite, hrename⟩ :=
    exists_steps_of_publish (write_eq_ok_iff.1 h).2
  exact ⟨records, by rw [begun_eq hbegin, hrecords], w₁, w₂, hbegin, hwrite, hrename⟩

lemma exists_pair_of_mem_headers (h : p ∈ m.headers.toList) : ∃ target, (target, p) ∈ m.pairs := by
  obtain ⟨l, hl, hp⟩ := List.mem_flatMap.1 (OrderedSet.mem_ofList h)
  obtain ⟨⟨target, l⟩, he, rfl⟩ := List.mem_map.1 hl
  exact ⟨target, List.mem_flatMap.2 ⟨(target, l), he, List.mem_map_of_mem hp⟩⟩

/-- Headers with the same digests have the same records. -/
lemma records_congr {digest digest' : Path → Except Fault Digest}
    (h : ∀ e ∈ m.pairs, digest e.2 = digest' e.2) : m.records digest = m.records digest' := by
  unfold records
  generalize m.pairs = l at h
  induction l with
  | nil => rfl
  | cons e l ih =>
    obtain ⟨target, p⟩ := e
    have hp : digest p = digest' p := h (target, p) List.mem_cons_self
    rw [List.mapM_cons, List.mapM_cons, ih fun f hf => h f (List.mem_cons_of_mem _ hf)]
    simp only [hp]

end HeaderMap

namespace Task

variable {t : Task} {hasher : Hasher} {cache : StateCache} {r r₁ : Run} {a : Analysis} {path : Path}

/-- As long as every expression could be expanded, every header has a snapshot, and the records of the
header dependencies file are the same whatever other files are digested to: they have the digests of the
snapshots.  Unless the file cannot be written, these are the records that are written, and the state with
these snapshots is the one that is kept then. -/
theorem records_of_precise (hpath : t.headerFile = some path)
    (hanalyse : (t.analyse hasher cache).run.run r = (.ok a, r₁)) (hprecise : a.isIncomplete = false) :
    ∃ m records, HeaderMap.collect r.files t.roots a = .ok m ∧
      (∀ p ∈ m.headers.toList, (a.state.snapshot? p).isSome) ∧
      (∀ fallback, m.records (a.state.hasher fallback) = .ok records) ∧
      (∀ record ∈ records, ∃ f, a.state.snapshot? record.header = some f ∧
        record.digest = f.digest.hex) ∧
      ∀ x r', (t.detect hasher cache).run.run r = (x, r') →
        (∃ err, x = .error (.headerFile err)) ∨ ∃ w y, HeaderMap.Installs path records r.files w ∧
          (cache.set a.state).run.run w = (y, r'.files) ∧
          x = (y.map (Prod.mk ⟨a.recompile, a.removed, m.headers, a.isIncomplete⟩)).mapError
            (.state t.name) := by
  obtain ⟨r₂, hrun, -⟩ : ∃ r₂, (t.analyse hasher cache).run.run r =
      (t.analyseIn hasher r.files (cache.get r.files), r₂) ∧ r₂.files = r.files := analyse_run
  have hin : t.analyseIn hasher r.files (cache.get r.files) = .ok a :=
    (congrArg Prod.fst (hanalyse.symm.trans hrun)).symm
  have hcollect := collect_of_precise hin hprecise
  have hknown : ∀ e ∈ HeaderMap.pairs a.found, ∃ f, a.state.snapshot? e.2 = some f ∧
      ∀ fallback, a.state.hasher fallback e.2 = .ok f.digest := by
    intro e he
    obtain ⟨f, hf⟩ := Option.isSome_iff_exists.1 (isSome_snapshot_of_found hin he)
    exact ⟨f, hf, fun fallback => by rw [TaskState.hasher, hf]⟩
  -- where every header has a snapshot, the fallback is never asked, so it does not matter which it
  -- is
  have hsame : ∀ fallback fallback', HeaderMap.records a.found (a.state.hasher fallback) =
      HeaderMap.records a.found (a.state.hasher fallback') := by
    intro fallback fallback'
    refine HeaderMap.records_congr fun e he => ?_
    obtain ⟨f, -, hdigest⟩ := hknown e he
    rw [hdigest, hdigest]
  -- the records that there are with a hasher that always fails
  obtain ⟨records, hrecords⟩ : ∃ records,
      HeaderMap.records a.found (a.state.hasher fun _ => .error .notFound) = .ok records := by
    refine HeaderMap.exists_records_iff.2 fun e he => ?_
    obtain ⟨f, -, hdigest⟩ := hknown e he
    exact ⟨f.digest, hdigest _⟩
  have hlists := HeaderMap.lists_of_records hrecords
  refine ⟨a.found, records, hcollect, fun p hp => ?_, fun fallback => ?_, fun record hrecord => ?_,
    fun x r' hdetect => ?_⟩
  · obtain ⟨target, he⟩ := HeaderMap.exists_pair_of_mem_headers hp
    have hknown := isSome_snapshot_of_found hin he
    exact hknown
  · rw [hsame fallback, hrecords]
  · obtain ⟨d, hd, hdigest⟩ := hlists.digest record hrecord
    have he := HeaderMap.mem_pairs_iff.2 ((hlists.mem_iff _ _).1 ⟨record, hrecord, rfl, rfl⟩)
    obtain ⟨f, hf, hf'⟩ := hknown _ he
    rw [hf'] at hd
    cases hd
    exact ⟨f, hf, hdigest⟩
  · refine (cases_of_detect hdetect hin hcollect hpath).imp_right ?_
    rintro ⟨w, y, hwrite, hset, hx⟩
    obtain ⟨records', hrecords', hinstalls⟩ := HeaderMap.installs_of_write hwrite
    have hequal := (hsame (hasher (HeaderMap.begun path r.files)) _).trans hrecords
    obtain rfl : records' = records := Except.ok.inj (hrecords'.symm.trans hequal)
    exact ⟨w, y, hinstalls, hset, hx⟩

/-- The task of compiling the source that includes a header in two spellings, with a header dependencies
file. -/
def recordingTask : Task := { plainTask [⟨"a.c"⟩] with headerFile := some ⟨"/p/deps"⟩ }

/-- The header is recorded under both spellings, also when nothing can be digested any more. -/
theorem records_of_precise_spelled : ∃ a r₁ m records,
    recordingTask.headerFile = some ⟨"/p/deps"⟩ ∧
      (recordingTask.analyse (RunM.hasherWithout ⟨"/p/c.h"⟩) (.memory none)).run.run spelled = (.ok a, r₁) ∧
      a.isIncomplete = false ∧ HeaderMap.collect spelled.files [] a = .ok m ∧
      m.pairs = [("./b.h", ⟨"/p/b.h"⟩), ("b.h", ⟨"/p/b.h"⟩)] ∧
      m.records (a.state.hasher fun _ => .error .notFound) = .ok records := by
  have hfindings : (recordingTask.analyse (RunM.hasherWithout ⟨"/p/c.h"⟩)
      (.memory none)).run.run spelled |>.1.toOption.any fun a => a.isIncomplete = false ∧
        (HeaderMap.collect spelled.files [] a).toOption.all fun m =>
          m.pairs = [("./b.h", ⟨"/p/b.h"⟩), ("b.h", ⟨"/p/b.h"⟩)] := by
    decide +kernel
  obtain ⟨a, r₁, hanalyse, hfound⟩ := Except.exists_of_any hfindings
  obtain ⟨hprecise, hpairs⟩ := of_decide_eq_true hfound
  have hpath : recordingTask.headerFile = some ⟨"/p/deps"⟩ := rfl
  obtain ⟨m, records, hcollect, -, hrecords, -⟩ := records_of_precise hpath hanalyse hprecise
  have hcollect' : HeaderMap.collect spelled.files [] a = .ok m := hcollect
  rw [hcollect'] at hpairs
  exact ⟨a, r₁, m, records, hpath, hanalyse, hprecise, hcollect', of_decide_eq_true hpairs, hrecords _⟩

end Task

end IncludeDeps
