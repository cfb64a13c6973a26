import IncludeDeps.Proofs.Rounds
import IncludeDeps.Proofs.Search

/-!
# Expressions that could not be expanded

That some expression could not be expanded completely is told twice: a pass raises a flag, and among the
entries of the file that has the expression there is a mark.  The flag is raised while one file is resolved
with the macros of one walk, and the mark of that moment is put to the entries that earlier walks have left;
there it is kept, as entries are only added.  Nothing else is taken for a mark, because no expression stands
for an empty path, whatever the directives and macros are that it comes from.

So `Pass.TellsMarks`, that the flag is raised if and only if some file has a mark, holds once the sources are
read, and every step keeps it.  `RunM.isIncomplete_iff_of_analyse` is what this comes to for the state of an
analysis.
-/

namespace IncludeDeps

open Search (IsMark)

namespace Search

variable {s : Search} {t : MacroTable} {p : Path} {d : Directives} {i : Include}

/-- An include leaves a mark if and only if what it stands for is not known completely. -/
lemma exists_isMark_resolve_iff :
    (∃ u ∈ s.resolve t p i, IsMark u) ↔ (targets t i).isComplete = false := by
  constructor
  · rintro ⟨u, hu, hmark⟩
    rcases List.mem_append.1 hu with hu | hu
    · obtain ⟨path, hpath, rfl⟩ := List.mem_map.1 hu
      have hkind : i.isComputed := decide_eq_true hmark.kind
      rw [targets, if_pos hkind] at hpath
      -- the candidate of a mark is empty, and what a macro stands for never is
      exact absurd hmark.candidate (ne_mark_of_mem_expand hpath)
    · split at hu
      · cases hu
      · next hincomplete => exact Bool.eq_false_iff.2 hincomplete
  · intro hincomplete
    have hkind : i.isComputed := by
      by_contra hliteral
      rw [targets_of_literal (Bool.eq_false_iff.2 hliteral)] at hincomplete
      cases hincomplete
    exact ⟨⟨i, "", none⟩, List.mem_append_right _ (by simp [hincomplete]),
      of_decide_eq_true hkind, rfl, rfl⟩

/-- The includes of a file leave a mark if and only if one of them is not known completely. -/
lemma exists_isMark_resolveAll_iff :
    (∃ u ∈ (s.resolveAll t p d).resolved, IsMark u) ↔ (s.resolveAll t p d).isComplete = false := by
  have hall : (s.resolveAll t p d).isComplete = false ↔
      ∃ i ∈ d.includes, (targets t i).isComplete = false := by
    rw [resolveAll, List.all_eq_false]
    simp only [Bool.not_eq_true]
  rw [hall]
  constructor
  · rintro ⟨u, hu, hmark⟩
    obtain ⟨i, hi, hu⟩ := List.mem_flatMap.1 hu
    exact ⟨i, hi, exists_isMark_resolve_iff.1 ⟨u, hu, hmark⟩⟩
  · rintro ⟨i, hi, hincomplete⟩
    obtain ⟨u, hu, hmark⟩ := (exists_isMark_resolve_iff (s := s) (p := p)).2 hincomplete
    exact ⟨u, List.mem_flatMap.2 ⟨i, hi, hu⟩, hmark⟩

lemma IsMark.of_same {u v : ResolvedInclude} (h : IsMark u) (hsame : u.same v) : IsMark v := by
  have hdirective := ResolvedInclude.directive_eq_of_same hsame
  unfold ResolvedInclude.same at hsame
  rw [h.location, h.candidate] at hsame
  cases hlocation : v.location with
  | none =>
    simp only [hlocation, Bool.and_eq_true, decide_eq_true_eq] at hsame
    exact ⟨hdirective ▸ h.kind, hsame.1.2.symm, hlocation⟩
  | some loc => simp [hlocation] at hsame

/-- A mark among the new entries is put to the others, unless they have it already. -/
lemma exists_isMark_foldl_addNew_iff {l rs : List ResolvedInclude} :
    (∃ u ∈ rs.foldl addNew l, IsMark u) ↔ (∃ u ∈ l, IsMark u) ∨ ∃ u ∈ rs, IsMark u := by
  constructor
  · rintro ⟨u, hu, hmark⟩
    exact (mem_or_mem_of_mem_foldl_addNew hu).imp (fun hu => ⟨u, hu, hmark⟩) fun hu => ⟨u, hu, hmark⟩
  · rintro (⟨u, hu, hmark⟩ | ⟨u, hu, hmark⟩)
    · exact ⟨u, (isPrefix_foldl_addNew l rs).subset hu, hmark⟩
    · obtain ⟨v, hv, hsame⟩ := exists_same_of_mem (l := l) hu
      exact ⟨v, hv, hmark.of_same hsame⟩

end Search

/-! ## Files with marks -/

/-- Some expression of the file has left a mark: an entry without a path and without a file. -/
def Draft.IsMarked (d : Draft) : Prop := ∃ u ∈ d.resolved, IsMark u

/-- A file that is entered gets a mark if and only if an expression cannot be expanded at this moment. -/
lemma Draft.isMarked_entered_iff {s : Search} {t : MacroTable} {p : Path} {d : Draft} :
    (d.entered s t p).IsMarked ↔ d.IsMarked ∨ (s.resolveAll t p d.directives).isComplete = false := by
  by_cases hdone : d.isResolved ∧ d.directives.hasComputedIncludes = false
  · rw [entered_of_done hdone.1 hdone.2, Search.resolveAll_of_literal hdone.2]
    simp
  · have hopen : d.isResolved = false ∨ d.directives.hasComputedIncludes := by
      rw [not_and_or, Bool.not_eq_true, Bool.not_eq_false] at hdone
      exact hdone
    rw [entered_of_open hopen, ← Search.exists_isMark_resolveAll_iff]
    exact Search.exists_isMark_foldl_addNew_iff

namespace Pass

variable {c : PassContext} {pass pass' : Pass} {p source : Path} {d : Draft} {sources : List Path}

/-- The flag is raised if and only if some file has a mark. -/
def TellsMarks (pass : Pass) : Prop :=
  pass.isIncomplete ↔ ∃ p d, pass.files.get? p = some d ∧ d.IsMarked

lemma TellsMarks.congr (h : pass.TellsMarks) (hfiles : pass'.files = pass.files)
    (hflag : pass'.isIncomplete = pass.isIncomplete) : pass'.TellsMarks := by
  rw [TellsMarks, hfiles, hflag]
  exact h

/-- What has a mark was not read just now. -/
lemma get?_of_isMarked (h : pass.look? c p = some d) (hmarked : d.IsMarked) :
    pass.files.get? p = some d := by
  cases hfiles : pass.files.get? p with
  | some d' =>
    rw [look?_of_get? hfiles] at h
    exact h
  | none =>
    obtain ⟨u, hu, -⟩ := hmarked
    rw [look?, hfiles] at h
    cases hdraft : c.draft p with
    | error e => simp [hdraft, Except.toOption] at h
    | ok d' =>
      simp only [hdraft, Except.toOption, Option.some.injEq] at h
      rw [← h, PassContext.resolved_of_draft hdraft] at hu
      cases hu

/-- As long as files are only read, there is neither a flag nor a mark. -/
lemma Opened.tellsMarks (h : pass.Opened c sources) : pass.TellsMarks := by
  rw [TellsMarks, h.isIncomplete]
  refine iff_of_false Bool.false_ne_true ?_
  rintro ⟨p, d, hd, u, hu, -⟩
  obtain ⟨k, hk, -⟩ := OrderedMap.exists_mem_of_get?_eq_some hd
  have hcanonical := (h.coherent.files _ hk).canonical
  have hdraft := ((h.files k d hcanonical).1 (OrderedMap.get?_of_entry hk)).2
  rw [PassContext.resolved_of_draft hdraft] at hu
  cases hu

end Pass

/-! ## Steps and walks -/

namespace Walk

variable {c : PassContext} {w : Walk} {p : Path}

/-- A step raises the flag if and only if it leaves a mark. -/
lemma tellsMarks_enter (hw : w.Sound c) (hp : p.IsCanonical) (h : w.pass.TellsMarks) :
    (w.enter c p).2.pass.TellsMarks := by
  rcases enter_cases hw hp with ⟨d, hd, henter⟩ | ⟨-, hmiss⟩
  · unfold Pass.TellsMarks at h ⊢
    -- entering a file changes the flag and the entry of that file only; each direction asks
    -- whether the marked entry is this one
    rw [henter.isIncomplete, Bool.or_eq_true, Bool.not_eq_true', h]
    simp only [henter.pass.files]
    constructor
    · rintro (⟨q, e, he, hmarked⟩ | hincomplete)
      · by_cases hq : compare q p = .eq
        · -- the file that is entered keeps the marks that it has
          have hsame := Pass.look?_of_get? (c := c) ((OrderedMap.get?_congr hq).symm.trans he)
          obtain rfl := Option.some.inj (hd.symm.trans hsame)
          exact ⟨q, _, if_pos hq, Draft.isMarked_entered_iff.2 (.inl hmarked)⟩
        · exact ⟨q, e, (if_neg hq).trans he, hmarked⟩
      · exact ⟨p, _, if_pos Std.ReflCmp.compare_self,
          Draft.isMarked_entered_iff.2 (.inr hincomplete)⟩
    · rintro ⟨q, e, he, hmarked⟩
      by_cases hq : compare q p = .eq
      · rw [if_pos hq] at he
        cases he
        refine (Draft.isMarked_entered_iff.1 hmarked).imp_left fun hmarked => ?_
        exact ⟨p, d, Pass.get?_of_isMarked hd hmarked, hmarked⟩
      · rw [if_neg hq] at he
        exact .inl ⟨q, e, he, hmarked⟩
  · exact h.congr hmiss.pass.files hmiss.isIncomplete

end Walk

namespace Pass

variable {c : PassContext} {pass : Pass} {source : Path} {sources : List Path}

/-- A walk raises the flag if and only if it leaves a mark. -/
lemma tellsMarks_visit (hc : pass.Coherent c) (hs : source.IsCanonical) (h : pass.TellsMarks) :
    (pass.visit c source).TellsMarks := by
  obtain ⟨w, hw, heq⟩ := visit_eq hc hs
  rw [heq]
  have hlast := (hw.preserves (P := fun v => v.pass.TellsMarks)
    (fun _ _ hv hp _ => Walk.tellsMarks_enter hv hp) hc.sound_setOut (by simpa using hs) h).2
  exact hlast.congr rfl rfl

lemma tellsMarks_visitAll (hc : pass.Coherent c) (hs : ∀ s ∈ sources, s.IsCanonical)
    (h : pass.TellsMarks) : (pass.visitAll c sources).TellsMarks := by
  induction sources generalizing pass with
  | nil => exact h
  | cons s rest ih =>
    have hcanonical := hs s List.mem_cons_self
    exact ih (coherent_visit hc hcanonical) (fun q hq => hs q (List.mem_cons_of_mem _ hq))
      (tellsMarks_visit hc hcanonical h)

end Pass

/-! ## Analyses -/

/-- The flag of an analysis can be read off its state. -/
lemma PassContext.Passes.isIncomplete_iff {c : PassContext} {sources : OrderedSet Path} {pass last : Pass}
    {a : Analysis} (h : c.Passes sources pass last a) :
    a.isIncomplete ↔ ∃ e ∈ a.state.files.toList, ∃ u ∈ e.2.resolved, IsMark u := by
  -- carried through the walks from all sources of the last round, whose pass is opened without
  -- marks
  have hlast : last.TellsMarks := by
    rw [h.last_eq]
    exact Pass.tellsMarks_visitAll h.opened.coherent h.canonical h.opened.tellsMarks
  have hflag : a.isIncomplete = last.isIncomplete := by
    rw [h.outcome]
    rfl
  have hfiles : a.state.files = last.snapshots := by
    rw [h.outcome]
    rfl
  rw [hflag, hfiles]
  refine Iff.trans hlast ?_
  constructor
  · rintro ⟨p, d, hd, hmarked⟩
    obtain ⟨k, hk, -⟩ := OrderedMap.exists_mem_of_get?_eq_some hd
    exact ⟨(k, d.snapshot k), List.mem_map.2 ⟨(k, d), hk, rfl⟩, hmarked⟩
  · rintro ⟨e, he, hmarked⟩
    obtain ⟨d, hd, heq⟩ := Pass.mem_snapshots he
    rw [heq] at hmarked
    exact ⟨e.1, d, OrderedMap.get?_of_entry hd, hmarked⟩

namespace RunM

variable {settings : Settings} {hasher : Hasher} {previous : TaskState} {sources : List Path}
  {r r' : Run} {a : Analysis}

/-- An analysis tells of an expression that could not be expanded if and only if some file of its
state has a mark, whatever state it is against.  The flag is raised in the walk and the mark is
left in the state, so what a later run reads from the state is what this run has told. -/
theorem isIncomplete_iff_of_analyse
    (h : (analyse settings hasher previous sources).run.run r = (.ok a, r')) :
    a.isIncomplete ↔ ∃ e ∈ a.state.files.toList, ∃ u ∈ e.2.resolved,
      u.directive.kind = .computed ∧ u.candidate = "" ∧ u.location = none := by
  obtain ⟨l, pass, last, -, -, hpasses, -, -⟩ := passes_of_analyse h
  rw [hpasses.isIncomplete_iff]
  constructor
  · rintro ⟨e, he, u, hu, hmark⟩
    exact ⟨e, he, u, hu, hmark.kind, hmark.candidate, hmark.location⟩
  · rintro ⟨e, he, u, hu, hkind, hcandidate, hlocation⟩
    exact ⟨e, he, u, hu, hkind, hcandidate, hlocation⟩

/-- Two sources that share a header, which includes what a macro says that only one of them defines. -/
def undefining : Run where
  files := Workspace.ofTexts "p"
    [("a.c", "#define M \"x.h\"\n#include \"h.h\"\n"), ("b.c", "#include \"h.h\"\n"),
      ("h.h", "#include M\n"), ("x.h", "")]

/-- The walk from the second source puts a mark behind what the first one has found. -/
theorem isIncomplete_iff_of_analyse_undefining : ∃ a r' e,
    (analyse ⟨[], true, ∅⟩ contentHasher ∅ [⟨"a.c"⟩, ⟨"b.c"⟩]).run.run undefining = (.ok a, r') ∧
      e ∈ a.state.files.toList ∧ e.2.resolved.map (·.candidate) = ["x.h", ""] ∧ a.isIncomplete := by
  let run := (analyse ⟨[], true, ∅⟩ contentHasher ∅ [⟨"a.c"⟩, ⟨"b.c"⟩]).run.run undefining
  have hfindings : run.1.toOption.any fun a => a.state.files.toList.any fun e =>
      e.2.resolved.map (·.candidate) = ["x.h", ""] ∧ e.2.resolved.any fun u =>
        u.directive.kind = .computed ∧ u.candidate = "" ∧ u.location = none := by
    decide +kernel
  obtain ⟨a, r', hrun, hentry⟩ := Except.exists_of_any hfindings
  obtain ⟨e, he, hfacts⟩ := List.any_eq_true.1 hentry
  obtain ⟨hcandidates, hmark⟩ := of_decide_eq_true hfacts
  obtain ⟨u, hu, hu'⟩ := List.any_eq_true.1 hmark
  exact ⟨a, r', e, hrun, he, hcandidates,
    (isIncomplete_iff_of_analyse hrun).2 ⟨e, he, u, hu, of_decide_eq_true hu'⟩⟩

end RunM

end IncludeDeps
