import IncludeDeps.Proofs.Coverage
import IncludeDeps.Proofs.Task.Stages

/-!
# Published headers

The headers that a task publishes are those that were found, as long as every expression could be
expanded: a header that was found is a file, so none is dropped (`Task.existing_found`).
Otherwise they are the files under the include roots, as far as these are listed: below a root, and
with no link to a directory on the way (`Workspace.IsUnder`, `HeaderMap.has_underRoots`).

A header beside its source need not be under any root.  `Task.headers_of_detect` is what holds, and
`Task.exists_omitted` a header that is left out.
-/

namespace IncludeDeps

/-- What comes of the elements of a list, if none of them fails. -/
lemma Except.exists_of_mapM {ε α β : Type} {f : α → Except ε β} {l : List α} {ys : List β}
    (h : l.mapM f = .ok ys) :
    (∀ x ∈ l, ∃ y ∈ ys, f x = .ok y) ∧ ∀ y ∈ ys, ∃ x ∈ l, f x = .ok y := by
  induction l generalizing ys with
  | nil =>
    cases h
    exact ⟨nofun, nofun⟩
  | cons a rest ih =>
    rw [List.mapM_cons] at h
    obtain ⟨b, ha, h⟩ := Except.exists_of_bind h
    obtain ⟨bs, hrest, h⟩ := Except.exists_of_bind h
    cases h
    obtain ⟨hto, hof⟩ := ih hrest
    constructor
    · intro x hx
      rcases List.mem_cons.1 hx with rfl | hx
      · exact ⟨b, List.mem_cons_self, ha⟩
      · obtain ⟨y, hy, hxy⟩ := hto x hx
        exact ⟨y, List.mem_cons_of_mem _ hy, hxy⟩
    · intro y hy
      rcases List.mem_cons.1 hy with rfl | hy
      · exact ⟨a, List.mem_cons_self, ha⟩
      · obtain ⟨x, hx, hxy⟩ := hof y hy
        exact ⟨x, List.mem_cons_of_mem _ hx, hxy⟩

lemma Except.mem_of_mapM {ε α β : Type} {f : α → Except ε β} {l : List α} {ys : List β} {x : α}
    {y : β} (h : l.mapM f = .ok ys) (hx : x ∈ l) (hy : f x = .ok y) : y ∈ ys := by
  obtain ⟨y', hmem, hy'⟩ := (Except.exists_of_mapM h).1 x hx
  rw [hy] at hy'
  cases hy'
  exact hmem

namespace Workspace

variable {w : Workspace} {place : Place} {names : List String} {entry : Entry} {root p : Path}

/-- The path is that of a file below an include root, in whatever spelling: there is an entry that
no link has to be followed for on the way from the root, and it is a file or a link to one. -/
def IsUnder (w : Workspace) (root p : Path) : Prop :=
  ∃ place names entry, w.find root = .ok (place, .directory) ∧ names ≠ [] ∧
    w.at? (place ++ names) = some entry ∧ entry ≠ .directory ∧
      w.isFile (root.extend (names.map .name)) ∧
        compare p (root.extend (names.map .name)) = .eq

lemma mem_below (hnames : names ≠ []) (h : w.at? (place ++ names) = some entry) :
    (names, entry) ∈ w.below place := by
  rw [at?_eq_get? (List.append_ne_nil_of_right_ne_nil place hnames)] at h
  have hlength := List.length_pos_of_ne_nil hnames
  refine List.mem_filterMap.2 ⟨(place ++ names, entry), OrderedMap.mem_of_get?_eq_some h, ?_⟩
  rw [if_pos, List.drop_left]
  simpa using hlength

end Workspace

namespace HeaderMap

variable {w : Workspace} {m m' : HeaderMap} {target : String} {root p q : Path}
  {files roots : List Path}

/-- A header is in the map, under whatever path it was included. -/
def Has (m : HeaderMap) (p : Path) : Prop := ∃ target l, m.get? target = some l ∧ l.contains p

lemma has_add : (m.add target q).Has p ↔ compare p q = .eq ∨ m.Has p := by
  have hself : (m.add target q).get? target = some (((m.get? target).getD ∅).insert q) :=
    OrderedMap.get?_insert_self _ _ _
  have hother : ∀ {target'}, target' ≠ target → (m.add target q).get? target' = m.get? target' := by
    intro target' hne
    rw [add, OrderedMap.get?_insert, if_neg]
    exact fun h => hne (Std.LawfulEqCmp.eq_of_compare h)
  constructor
  · rintro ⟨target', l, hl, hp⟩
    -- only the set under the path of the new header is another one
    by_cases heq : target' = target
    · rw [heq, hself] at hl
      cases hl
      refine ((OrderedSet.contains_insert _ _ _).1 hp).imp_right fun hp => ?_
      cases hget : m.get? target with
      | none =>
        rw [hget] at hp
        cases hp
      | some l =>
        rw [hget] at hp
        exact ⟨target, l, hget, hp⟩
    · exact .inr ⟨target', l, hother heq ▸ hl, hp⟩
  · rintro (heq | ⟨target', l, hl, hp⟩)
    · exact ⟨target, _, hself, (OrderedSet.contains_insert _ _ _).2 (.inl heq)⟩
    · by_cases heq : target' = target
      · refine ⟨target, _, hself, (OrderedSet.contains_insert _ _ _).2 (.inr ?_)⟩
        rw [← heq, hl]
        exact hp
      · exact ⟨target', l, (hother heq).trans hl, hp⟩

lemma contains_headers (h : m.Has p) : m.headers.contains p := by
  obtain ⟨target, l, hl, hp⟩ := h
  obtain ⟨q, hq, hcompare⟩ := OrderedSet.contains_iff.1 hp
  have hvalue : l ∈ m.values := List.mem_map_of_mem (OrderedMap.mem_of_get?_eq_some hl)
  rw [headers, OrderedSet.contains_congr hcompare]
  exact OrderedSet.contains_ofList (List.mem_flatMap.2 ⟨l, hvalue, hq⟩)

/-! ## The files under the include roots -/

lemma exists_mem_filesBelow (h : filesBelow w root = .ok files) (hp : w.IsUnder root p) :
    ∃ q ∈ files, compare p q = .eq := by
  obtain ⟨place, names, entry, hroot, hnames, hat, hentry, hfile, hcompare⟩ := hp
  refine ⟨root.extend (names.map .name), ?_, hcompare⟩
  unfold filesBelow at h
  rw [hroot] at h
  simp only [bind, Except.bind] at h
  split at h
  · cases h
  · next found hfound =>
    cases h
    refine List.mem_filterMap.2 ⟨some (root.extend (names.map .name)), ?_, rfl⟩
    apply Except.mem_of_mapM hfound (Workspace.mem_below hnames hat)
    rw [if_neg hentry, if_pos hfile]
    rfl

lemma has_foldl_add {key : Path → String} (h : m.Has p ∨ ∃ q ∈ files, compare p q = .eq) :
    (files.foldl (fun m p => m.add (key p) p) m).Has p := by
  induction files generalizing m with
  | nil => exact h.resolve_right fun ⟨_, hq, _⟩ => nomatch hq
  | cons q rest ih =>
    apply ih
    rw [has_add]
    rcases h with h | ⟨q', hq', hcompare⟩
    · exact .inl (.inr h)
    · rcases List.mem_cons.1 hq' with rfl | hq'
      · exact .inl (.inl hcompare)
      · exact .inr ⟨q', hq', hcompare⟩

lemma has_foldlM {f : HeaderMap → Path → Except RootScanError HeaderMap}
    (hkeep : ∀ m root m', f m root = .ok m' → m.Has p → m'.Has p)
    (h : roots.foldlM f m = .ok m')
    (hp : m.Has p ∨ ∃ root ∈ roots, ∀ m m', f m root = .ok m' → m'.Has p) : m'.Has p := by
  induction roots generalizing m with
  | nil =>
    cases h
    exact hp.resolve_right fun ⟨_, hroot, _⟩ => nomatch hroot
  | cons root rest ih =>
    rw [List.foldlM_cons] at h
    obtain ⟨m₁, hstep, h⟩ := Except.exists_of_bind h
    apply ih h
    rcases hp with hp | ⟨root', hroot', hfinds⟩
    · exact .inl (hkeep m root m₁ hstep hp)
    · rcases List.mem_cons.1 hroot' with rfl | hroot'
      · exact .inl (hfinds m m₁ hstep)
      · exact .inr ⟨root', hroot', hfinds⟩

/-- Listing one root adds the files below it. -/
lemma exists_filesBelow (h : (do
      let files ← (filesBelow w root).mapError (RootScanError.mk root)
      return files.foldl (fun m p => m.add (keyBelow root p) p) m) = Except.ok m') :
    ∃ files, filesBelow w root = .ok files ∧
      files.foldl (fun m p => m.add (keyBelow root p) p) m = m' := by
  obtain ⟨files, hfiles, h⟩ := Except.exists_of_bind h
  exact ⟨files, Except.eq_ok_of_mapError hfiles, Except.ok.inj h⟩

/-- Files under the include roots are listed. -/
theorem has_underRoots (h : underRoots w roots = .ok m) (hroot : root ∈ roots)
    (hp : w.IsUnder root p) : m.Has p := by
  have hdirectory : w.isDirectory root := by
    obtain ⟨place, names, entry, hfind, -⟩ := hp
    unfold Workspace.isDirectory
    rw [hfind]
  -- the root is not skipped, and what it adds stays when the roots after it are listed
  refine has_foldlM ?_ h (.inr ⟨root, List.mem_filter.2 ⟨hroot, hdirectory⟩, ?_⟩)
  · intro m root m' h hm
    obtain ⟨files, -, rfl⟩ := exists_filesBelow h
    exact has_foldl_add (.inl hm)
  · intro m m' h
    obtain ⟨files, hfiles, rfl⟩ := exists_filesBelow h
    exact has_foldl_add (.inr (exists_mem_filesBelow hfiles hp))

/-! ## The headers that were found -/

/-- No header is dropped that is a file. -/
lemma existing_eq_self (hfile : ∀ target l, (target, l) ∈ m.toList → ∀ q ∈ l.toList, w.isFile q)
    (hnonempty : ∀ target l, (target, l) ∈ m.toList → ∃ q, q ∈ l.toList) : existing w m = m := by
  have hpresent : (m.mapValues fun _ headers => headers.filter w.isFile) = m := by
    apply OrderedMap.ext
    refine (List.map_congr_left fun e he => ?_).trans (List.map_id _)
    show (e.1, e.2.filter w.isFile) = e
    rw [OrderedSet.ext (s := e.2.filter w.isFile) (List.filter_eq_self.2 (hfile e.1 e.2 he))]
  unfold existing
  simp only
  rw [hpresent]
  apply OrderedMap.ext
  refine List.filter_eq_self.2 fun e he => ?_
  obtain ⟨q, hq⟩ := hnonempty e.1 e.2 he
  rw [Bool.not_eq_true', Bool.eq_false_iff]
  intro hempty
  rw [List.isEmpty_iff.1 hempty] at hq
  cases hq

end HeaderMap

namespace Pass

variable {c : PassContext} {pass : Pass} {p q : Path} {target : String}

lemma Coherent.isFile_of_leads (hc : pass.Coherent c) (hp : p.IsCanonical) (h : pass.Leads p q) :
    c.reader.isFile q := by
  obtain ⟨d, hd, hq⟩ := h
  exact ((hc.fits hp hd).files q hq).2

lemma Coherent.isFile_of_holds (hc : pass.Coherent c) (h : Holds pass.found target q) :
    c.reader.isFile q := by
  obtain ⟨-, e, he, r, hr, -, hq⟩ := (mem_found_iff hc).1 h
  exact hc.isFile_of_leads (hc.canonical_of_mem_snapshots he) (leads_of_mem_snapshots he hr hq)

end Pass

namespace Task

variable {t : Task} {hasher : Hasher} {w : Workspace} {previous : TaskState}
  {cache cache' : StateCache} {r r' : Run} {a : Analysis} {o : Outcome}

lemma existing_found (h : t.analyseIn hasher w previous = .ok a) :
    HeaderMap.existing w a.found = a.found := by
  obtain ⟨sources, pass, last, hpass⟩ := passes_of_analyseIn h
  have hcoherent := hpass.coherent
  have hfound : a.found = last.found := by rw [hpass.outcome]; rfl
  rw [hfound]
  apply HeaderMap.existing_eq_self
  · intro target l hl q hq
    exact hcoherent.isFile_of_holds ⟨l, OrderedMap.get?_of_entry hl, hq⟩
  · intro target l hl
    exact hcoherent.isTidy_found.nonempty target l (OrderedMap.get?_of_entry hl)

/-- As long as every expression could be expanded, all headers that were found are collected. -/
lemma collect_of_precise (h : t.analyseIn hasher w previous = .ok a) (hprecise : a.isIncomplete = false) :
    HeaderMap.collect w t.roots a = .ok a.found := by
  rw [HeaderMap.collect, hprecise, existing_found h]
  rfl

/-- Behind what a task publishes there are an analysis and the map of its headers. -/
lemma collect_of_detect (h : (t.detect hasher cache).run.run r = (.ok (o, cache'), r')) :
    ∃ a r₁ m, (t.analyse hasher cache).run.run r = (.ok a, r₁) ∧
      HeaderMap.collect r₁.files t.roots a = .ok m ∧
      o = ⟨a.recompile, a.removed, m.headers, a.isIncomplete⟩ := by
  obtain ⟨r₁, hrun, hfiles⟩ : ∃ r₁, (t.analyse hasher cache).run.run r =
      (t.analyseIn hasher r.files (cache.get r.files), r₁) ∧ r₁.files = r.files := analyse_run
  cases detects_of_detect h with
  | @kept a m _ w₁ _ hanalyse hcollect _ _ =>
    rw [hanalyse] at hrun
    exact ⟨a, r₁, m, hrun, by rw [hfiles]; exact hcollect, rfl⟩

/-- As long as every expression could be expanded, the headers that a task publishes are those that
its analysis has found.  Otherwise all files under the include roots are among them, as the roots
were given and without links to directories on the way. -/
theorem headers_of_detect (h : (t.detect hasher cache).run.run r = (.ok (o, cache'), r')) :
    ∃ a r₁, (t.analyse hasher cache).run.run r = (.ok a, r₁) ∧ o.isIncomplete = a.isIncomplete ∧
      (a.isIncomplete = false → o.headers = a.headers) ∧
      (a.isIncomplete →
        ∀ p, (∃ root ∈ t.roots, r.files.IsUnder root p) → o.headers.contains p) := by
  obtain ⟨a, r₁, m, hanalyse, hcollect, rfl⟩ := collect_of_detect h
  obtain ⟨r₂, hrun, hfiles⟩ : ∃ r₂, (t.analyse hasher cache).run.run r =
      (t.analyseIn hasher r.files (cache.get r.files), r₂) ∧ r₂.files = r.files := analyse_run
  obtain ⟨hin, rfl⟩ := Prod.mk.inj (hanalyse.symm.trans hrun)
  rw [hfiles] at hcollect
  refine ⟨a, r₁, hanalyse, rfl, fun hcomplete => ?_, fun hincomplete p hp => ?_⟩
  · rw [collect_of_precise hin.symm hcomplete] at hcollect
    cases hcollect
    rfl
  · obtain ⟨root, hroot, hunder⟩ := hp
    rw [HeaderMap.collect, if_pos hincomplete] at hcollect
    exact HeaderMap.contains_headers (HeaderMap.has_underRoots hcollect hroot hunder)

/-- A source that includes a header beside it, and something that cannot be expanded. -/
def unknown : Run where
  files := Workspace.ofTexts "p" [("a.c", "#include \"b.h\"\n#include UNKNOWN\n"), ("b.h", "")]

/-- The task of compiling it, with the given include roots. -/
def unknownTask (roots : List Path) : Task := ⟨":p:main", [⟨"/p/a.c"⟩], roots, false, ∅, none⟩

theorem headers_of_detect_unknown : unknown.files.IsUnder ⟨"/p"⟩ ⟨"/p/b.h"⟩ ∧ ∃ o cache' r' a r₁,
    ((unknownTask [⟨"/p"⟩]).detect contentHasher (.memory none)).run.run unknown =
        (.ok (o, cache'), r') ∧
      ((unknownTask [⟨"/p"⟩]).analyse contentHasher (.memory none)).run.run unknown = (.ok a, r₁) ∧
      a.isIncomplete ∧ o.headers.contains ⟨"/p/b.h"⟩ := by
  have hunder : unknown.files.IsUnder ⟨"/p"⟩ ⟨"/p/b.h"⟩ :=
    ⟨["p"], ["b.h"], .file [], by decide +kernel, by decide, by decide +kernel, by decide,
      by decide +kernel, by decide +kernel⟩
  have hfindings : ((unknownTask [⟨"/p"⟩]).detect contentHasher (.memory none)).run.run
      unknown |>.1.toOption.any fun x => x.1.isIncomplete := by
    decide +kernel
  obtain ⟨⟨o, cache'⟩, r', hrun, hflag⟩ := Except.exists_of_any hfindings
  obtain ⟨a, r₁, hanalyse, heq, -, hlisted⟩ := headers_of_detect hrun
  have hincomplete : a.isIncomplete := by rw [← heq, hflag]
  exact ⟨hunder, o, cache', r', a, r₁, hrun, hanalyse, hincomplete,
    hlisted hincomplete _ ⟨⟨"/p"⟩, List.mem_cons_self, hunder⟩⟩

/-- A header that was found beside its source, and under no include root, is not published once
there is an expression that cannot be expanded. -/
theorem exists_omitted : ∃ o cache' r' a r₁,
    ((unknownTask []).detect contentHasher (.memory none)).run.run unknown = (.ok (o, cache'), r') ∧
      ((unknownTask []).analyse contentHasher (.memory none)).run.run unknown = (.ok a, r₁) ∧
      ⟨"/p/b.h"⟩ ∈ a.headers.toList ∧ o.headers.contains ⟨"/p/b.h"⟩ = false := by
  have hdetect : ((unknownTask []).detect contentHasher (.memory none)).run.run
      unknown |>.1.toOption.any fun x => !x.1.headers.contains ⟨"/p/b.h"⟩ := by
    decide +kernel
  have hanalyse : ((unknownTask []).analyse contentHasher (.memory none)).run.run
      unknown |>.1.toOption.any fun a => ⟨"/p/b.h"⟩ ∈ a.headers.toList := by
    decide +kernel
  obtain ⟨⟨o, cache'⟩, r', hrun, homitted⟩ := Except.exists_of_any hdetect
  obtain ⟨a, r₁, hrun', hfound⟩ := Except.exists_of_any hanalyse
  rw [Bool.not_eq_true'] at homitted
  rw [decide_eq_true_eq] at hfound
  exact ⟨o, cache', r', a, r₁, hrun, hrun', hfound, homitted⟩

end Task

end IncludeDeps
