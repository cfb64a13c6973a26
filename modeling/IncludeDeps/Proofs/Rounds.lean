import IncludeDeps.Proofs.Regrouping
import IncludeDeps.Proofs.Walk.Preorder

/-!
# What is recorded of the includes of a file

Every source that leads to a file resolves its includes once more, with the macros of its own walk,
and what this round finds that is not there yet is put at the end (`Search.Collects`).

After any number of rounds every directive is recorded, one with a path exactly once, and nothing
is recorded twice (`Search.Records`).  What each single round adds stands in the order of the
directives (`InOrder`), and the first round adds something for every directive; but where an
expression stands for something else in a later round, this stands behind all directives.  So the
entries as a whole are in order if no include has to be expanded, or if only one source leads to the
file (`Search.Records.inOrder`), and may be out of order otherwise.

`RunM.records_of_analyse` tells this of every file of the state that an analysis comes to.
-/

namespace IncludeDeps

/-! ## Expressions -/

/-- An expression has a leaf, if only a missing one. -/
lemma MacroTable.leaves_ne_nil (t : MacroTable) (depth : ℕ) (within : List String) (e : String) :
    t.leaves depth within e ≠ [] := by
  induction depth generalizing within e with
  | zero => simp [leaves]
  | succ depth ih =>
    unfold leaves
    simp only
    split
    · next hname =>
      have hvalues : t.values e ≠ [] := by
        rw [Bool.and_eq_true, Bool.not_eq_true', List.isEmpty_eq_false_iff] at hname
        exact hname.2
      obtain ⟨value, hvalue⟩ := List.exists_mem_of_ne_nil _ hvalues
      intro hnil
      have hbranch := List.flatMap_eq_nil_iff.1 hnil value hvalue
      split at hbranch
      · exact ih _ _ hbranch
      · cases hbranch
    · exact List.cons_ne_nil _ _

namespace Search

variable {s : Search} {t : MacroTable} {p : Path} {d : Directives} {i : Include}
  {r : ResolvedInclude}

/-- Every include leaves an entry: an expression that stands for nothing leaves a mark. -/
lemma exists_mem_resolve (s : Search) (t : MacroTable) (p : Path) (i : Include) :
    ∃ r, r ∈ s.resolve t p i := by
  cases hcomplete : (targets t i).isComplete with
  | false => exact ⟨⟨i, "", none⟩, List.mem_append_right _ (by simp [hcomplete])⟩
  | true =>
    have hpaths : ∃ path, path ∈ (targets t i).paths := by
      unfold targets at hcomplete ⊢
      split at hcomplete
      · next hi =>
        rw [if_pos hi]
        obtain ⟨leaf, hleaf⟩ := List.exists_mem_of_ne_nil _
          (t.leaves_ne_nil MacroTable.depthLimit [] i.target)
        obtain ⟨path, rfl⟩ := Option.isSome_iff_exists.1 (List.all_eq_true.1 hcomplete leaf hleaf)
        exact ⟨path, List.mem_eraseDups.2 (List.mem_filterMap.2 ⟨_, hleaf, rfl⟩)⟩
      · next hi =>
        rw [if_neg hi]
        exact ⟨_, List.mem_singleton_self _⟩
    obtain ⟨path, hpath⟩ := hpaths
    exact ⟨_, List.mem_append_left _ (List.mem_map_of_mem hpath)⟩

end Search

/-! ## Entries in order -/

/-- The entries of the first directive come first, then those of the second, and so on. -/
inductive InOrder : List Include → List ResolvedInclude → Prop
  | nil : InOrder [] []
  | cons {i : Include} {includes : List Include} {part rest : List ResolvedInclude}
    (hpart : ∀ r ∈ part, r.directive = i) (hrest : InOrder includes rest) :
    InOrder (i :: includes) (part ++ rest)

namespace InOrder

variable {includes : List Include} {l l' : List ResolvedInclude}

lemma flatMap {f : Include → List ResolvedInclude} (hf : ∀ i, ∀ r ∈ f i, r.directive = i) :
    InOrder includes (includes.flatMap f) := by
  induction includes with
  | nil => exact .nil
  | cons i includes ih => exact .cons (hf i) ih

lemma sublist (h : InOrder includes l) (hl : l'.Sublist l) : InOrder includes l' := by
  induction h generalizing l' with
  | nil =>
    rw [List.sublist_nil.1 hl]
    exact .nil
  | cons hpart _ ih =>
    obtain ⟨part', rest', rfl, hpart', hrest'⟩ := List.sublist_append_iff.1 hl
    exact .cons (fun r hr => hpart r (hpart'.subset hr)) (ih hrest')

lemma directive_mem (h : InOrder includes l) : ∀ r ∈ l, r.directive ∈ includes := by
  induction h with
  | nil => exact fun r hr => (nomatch hr)
  | cons hpart _ ih =>
    intro r hr
    rcases List.mem_append.1 hr with hr | hr
    · rw [hpart r hr]
      exact List.mem_cons_self
    · exact List.mem_cons_of_mem _ (ih r hr)

/-- Of two entries the first one belongs to the same directive as the second, or to one before. -/
theorem pairwise_idxOf (h : InOrder includes l) (hnodup : includes.Nodup) :
    l.Pairwise fun r t => includes.idxOf r.directive ≤ includes.idxOf t.directive := by
  induction h with
  | nil => exact .nil
  | @cons i includes part rest hpart hrest ih =>
    obtain ⟨hi, hnodup⟩ := List.nodup_cons.1 hnodup
    -- all of the first part belongs to the first directive, and nothing after it does
    have hfirst : ∀ r ∈ part, (i :: includes).idxOf r.directive = 0 := by
      intro r hr
      rw [hpart r hr, List.idxOf_cons_self]
    have hlater : ∀ r ∈ rest, (i :: includes).idxOf r.directive =
        includes.idxOf r.directive + 1 := by
      intro r hr
      refine List.idxOf_cons_ne _ fun heq => hi ?_
      rw [heq]
      exact hrest.directive_mem r hr
    refine List.pairwise_append.2 ⟨?_, ?_, fun r hr t _ => ?_⟩
    · refine List.pairwise_iff_forall_sublist.2 fun {r t} hsub => ?_
      rw [hfirst r (hsub.subset List.mem_cons_self)]
      exact Nat.zero_le _
    · refine (ih hnodup).imp_of_mem fun {r t} hr ht hle => ?_
      rw [hlater r hr, hlater t ht]
      exact Nat.succ_le_succ hle
    · rw [hfirst r hr]
      exact Nat.zero_le _

end InOrder

/-! ## Putting together -/

/-- Some of the new entries are added at the end. -/
lemma exists_sublist_foldl_addNew (l rs : List ResolvedInclude) :
    ∃ added, added.Sublist rs ∧ rs.foldl addNew l = l ++ added := by
  induction rs generalizing l with
  | nil => exact ⟨[], .slnil, (List.append_nil l).symm⟩
  | cons r rest ih =>
    obtain ⟨added, hadded, heq⟩ := ih (addNew l r)
    rw [List.foldl_cons, heq]
    by_cases hseen : l.any r.same
    · rw [addNew_of_same hseen]
      exact ⟨added, hadded.cons r, rfl⟩
    · rw [addNew_of_new (Bool.eq_false_iff.2 hseen), List.append_assoc]
      exact ⟨r :: added, hadded.cons_cons r, rfl⟩

/-- No entry is the same as one before it, in its directive, its path and its file. -/
def IsDistinct (l : List ResolvedInclude) : Prop := l.Pairwise fun r t => ¬ t.same r

lemma IsDistinct.foldl_addNew {l rs : List ResolvedInclude} (h : IsDistinct l) :
    IsDistinct (rs.foldl addNew l) := by
  induction rs generalizing l with
  | nil => exact h
  | cons r rest ih =>
    refine ih ?_
    by_cases hseen : l.any r.same
    · rw [addNew_of_same hseen]
      exact h
    · rw [addNew_of_new (Bool.eq_false_iff.2 hseen)]
      refine List.pairwise_append.2 ⟨h, List.pairwise_singleton _ _, fun t ht u hu hsame => ?_⟩
      rw [List.mem_singleton.1 hu] at hsame
      exact hseen (List.any_eq_true.2 ⟨t, ht, hsame⟩)

/-- Where all entries of a kind are equal, there is at most one of them. -/
lemma IsDistinct.filter_eq {l : List ResolvedInclude} {r : ResolvedInclude}
    {p : ResolvedInclude → Bool} (h : IsDistinct l) (hr : r ∈ l.filter p)
    (hall : ∀ t ∈ l, p t → t = r) : l.filter p = [r] := by
  have hall' : ∀ t ∈ l.filter p, t = r := fun t ht =>
    hall t (List.mem_filter.1 ht).1 (List.mem_filter.1 ht).2
  have hdistinct : (l.filter p).Pairwise fun r t => ¬ t.same r := h.filter p
  cases hfilter : l.filter p with
  | nil => simp [hfilter] at hr
  | cons x rest =>
    rw [hfilter] at hall' hdistinct
    cases rest with
    | nil => rw [hall' x List.mem_cons_self]
    | cons y rest =>
      have hx := hall' x (by simp)
      have hy := hall' y (by simp)
      have hnot := (List.pairwise_cons.1 hdistinct).1 y List.mem_cons_self
      rw [hx, hy] at hnot
      exact absurd r.same_self hnot

/-! ## Rounds -/

namespace Search

variable {s : Search} {p : Path} {d : Directives} {r : ResolvedInclude} {l : List ResolvedInclude}
  {n m : ℕ}

/-- What comes together when the includes of the file `p` are resolved `n` times. -/
inductive Collects (s : Search) (p : Path) (d : Directives) : ℕ → List ResolvedInclude → Prop
  | start : Collects s p d 0 []
  | again {n : ℕ} {l : List ResolvedInclude} (t : MacroTable) (h : Collects s p d n l) :
    Collects s p d (n + 1) ((s.resolveAll t p d).resolved.foldl addNew l)

/-- The entries come from at most `n` rounds, each of them in the order of the directives.  The first
one has entries for all directives, the others only add some for expressions. -/
def InRounds (includes : List Include) (n : ℕ) (l : List ResolvedInclude) : Prop :=
  ∃ (first : List ResolvedInclude) (later : List (List ResolvedInclude)),
    l = first ++ later.flatten ∧ later.length < n ∧
    InOrder includes first ∧ (∀ i ∈ includes, ∃ r ∈ first, r.directive = i) ∧
    ∀ round ∈ later, InOrder includes round ∧ ∀ r ∈ round, r.directive.isComputed

/-- Every directive of the file `p` leaves entries: a path in quotes or brackets the only one that
there can be, an expression at least one.  No entry occurs twice, and there were at most `n`
rounds. -/
structure Records (s : Search) (p : Path) (d : Directives) (n : ℕ) (l : List ResolvedInclude) :
    Prop where
  directive : ∀ r ∈ l, r.directive ∈ d.includes
  literal : ∀ i ∈ d.includes, i.isComputed = false →
    l.filter (·.directive = i) = [⟨i, i.target, s.find? (s.directories p i.kind) i.target⟩]
  computed : ∀ i ∈ d.includes, i.isComputed → ∃ r ∈ l, r.directive = i
  distinct : IsDistinct l
  rounds : InRounds d.includes n l

namespace Collects

lemma exists_mem_resolveAll (h : Collects s p d n l) (hr : r ∈ l) :
    ∃ t, r ∈ (s.resolveAll t p d).resolved := by
  induction h with
  | start => cases hr
  | again t _ ih =>
    rcases mem_or_mem_of_mem_foldl_addNew hr with hr | hr
    · exact ih hr
    · exact ⟨t, hr⟩

lemma eq_literal (h : Collects s p d n l) (hr : r ∈ l) (hi : r.directive.isComputed = false) :
    r = s.literal p r.directive := by
  obtain ⟨t, ht⟩ := h.exists_mem_resolveAll hr
  exact eq_literal_of_mem_resolveAll ht hi

lemma isDistinct (h : Collects s p d n l) : IsDistinct l := by
  induction h with
  | start => exact .nil
  | again t _ ih => exact ih.foldl_addNew

/-- Every round finds entries for all directives that are not there yet. -/
lemma covers (h : Collects s p d n l) (hn : n ≠ 0) : ∀ i ∈ d.includes, ∃ r ∈ l, r.directive = i := by
  intro i hi
  cases h with
  | start => exact absurd rfl hn
  | again t _ =>
    obtain ⟨r, hr⟩ := exists_mem_resolve s t p i
    obtain ⟨u, hu, hsame⟩ := exists_same_of_mem (List.mem_flatMap.2 ⟨i, hi, hr⟩)
    refine ⟨u, hu, ?_⟩
    rw [← ResolvedInclude.directive_eq_of_same hsame, directive_of_mem_resolve hr]

/-- What one round adds. -/
lemma exists_added (h : Collects s p d n l) (t : MacroTable) :
    ∃ added, (s.resolveAll t p d).resolved.foldl addNew l = l ++ added ∧
      InOrder d.includes added ∧ (n ≠ 0 → ∀ r ∈ added, r.directive.isComputed) := by
  obtain ⟨added, hsub, heq⟩ := exists_sublist_foldl_addNew l (s.resolveAll t p d).resolved
  have horder : InOrder d.includes (s.resolveAll t p d).resolved :=
    .flatMap fun i r hr => directive_of_mem_resolve hr
  refine ⟨added, heq, horder.sublist hsub, fun hn r hr => ?_⟩
  by_contra hliteral
  rw [Bool.not_eq_true] at hliteral
  -- what a path in quotes or brackets becomes was recorded in the round before
  have hmem := hsub.subset hr
  obtain ⟨u, hu, hdirective⟩ := h.covers hn r.directive (mem_resolveAll_iff.1 hmem).1
  have hsame : u = r := by
    rw [h.eq_literal hu (hdirective ▸ hliteral), hdirective,
      ← eq_literal_of_mem_resolveAll hmem hliteral]
  have hdistinct := (h.again t).isDistinct
  rw [heq] at hdistinct
  exact (List.pairwise_append.1 hdistinct).2.2 u hu r hr (hsame ▸ r.same_self)

lemma inRounds (h : Collects s p d n l) (hn : n ≠ 0) : InRounds d.includes n l := by
  induction h with
  | start => exact absurd rfl hn
  | @again n l t h ih =>
    obtain ⟨added, heq, horder, hadded⟩ := h.exists_added t
    have hcovers := (h.again t).covers hn
    rw [heq] at hcovers ⊢
    cases n with
    | zero =>
      cases h
      exact ⟨added, [], by simp, Nat.zero_lt_one, horder, hcovers, fun _ h => (nomatch h)⟩
    | succ n =>
      obtain ⟨first, later, rfl, hlength, hfirst, hall, hlater⟩ := ih (Nat.succ_ne_zero n)
      refine ⟨first, later ++ [added], by simp, by simpa using hlength, hfirst, hall, ?_⟩
      intro round hround
      rcases List.mem_append.1 hround with hround | hround
      · exact hlater round hround
      · rw [List.mem_singleton.1 hround]
        exact ⟨horder, hadded (Nat.succ_ne_zero n)⟩

/-- What one round or more have put together.  Each round is a walk that comes to the file with its
own macros, and adds to the entries what the rounds before have not found. -/
theorem records (h : Collects s p d n l) (hn : n ≠ 0) (hm : n ≤ m) : s.Records p d m l where
  directive r hr := by
    obtain ⟨t, ht⟩ := h.exists_mem_resolveAll hr
    exact (mem_resolveAll_iff.1 ht).1
  literal i hi hliteral := by
    have heq : ∀ r ∈ l, decide (r.directive = i) → r = s.literal p i := by
      intro r hr hdirective
      obtain rfl := of_decide_eq_true hdirective
      exact h.eq_literal hr hliteral
    obtain ⟨r, hr, hdirective⟩ := h.covers hn i hi
    obtain rfl := heq r hr (decide_eq_true hdirective)
    exact h.isDistinct.filter_eq (List.mem_filter.2 ⟨hr, decide_eq_true hdirective⟩) heq
  computed i hi _ := h.covers hn i hi
  distinct := h.isDistinct
  rounds := by
    obtain ⟨first, later, heq, hlength, hrest⟩ := h.inRounds hn
    exact ⟨first, later, heq, hlength.trans_le hm, hrest⟩

end Collects

/-- The entries are in order if there is nothing to be expanded, or was only one round.  A second
round puts what it finds behind all entries of the first, also where it belongs to an earlier
directive. -/
theorem Records.inOrder (h : s.Records p d n l) (hone : d.hasComputedIncludes = false ∨ n ≤ 1) :
    InOrder d.includes l := by
  obtain ⟨first, later, rfl, hlength, hfirst, -, hlater⟩ := h.rounds
  have hnone : later.flatten = [] := by
    rcases hone with hliteral | hone
    · rw [List.flatten_eq_nil_iff]
      intro round hround
      refine List.eq_nil_iff_forall_not_mem.2 fun r hr => ?_
      obtain ⟨horder, hcomputed⟩ := hlater round hround
      have hdirective := isComputed_of_literal hliteral (horder.directive_mem r hr)
      rw [hcomputed r hr] at hdirective
      cases hdirective
    · rw [List.length_eq_zero_iff.1 (Nat.lt_one_iff.1 (hlength.trans_le hone))]
      rfl
  rw [hnone, List.append_nil]
  exact hfirst

end Search

/-! ## Walks -/

namespace Pass

variable {c : PassContext} {pass pass' : Pass} {p : Path} {n m : ℕ}

/-- The includes of the file `p` have been resolved at most `n` times, and at least once if they
have been followed. -/
def Resolves (c : PassContext) (pass : Pass) (p : Path) (n : ℕ) : Prop :=
  ∀ d, pass.look? c p = some d → ∃ k ≤ n, c.search.Collects p d.directives k d.resolved ∧
    (d.isResolved → k ≠ 0)

lemma Resolves.mono (h : pass.Resolves c p n) (hle : n ≤ m) : pass.Resolves c p m := by
  intro d hd
  obtain ⟨k, hk, hcollects⟩ := h d hd
  exact ⟨k, hk.trans hle, hcollects⟩

lemma Resolves.congr (h : pass.Resolves c p n) (hfiles : pass'.files.get? p = pass.files.get? p) :
    pass'.Resolves c p n := by
  intro d hd
  rw [look?_congr hfiles] at hd
  exact h d hd

/-- What is only read has not been resolved. -/
lemma Opened.resolves {sources : List Path} (h : pass.Opened c sources) (hp : p.IsCanonical) :
    pass.Resolves c p 0 := by
  intro d hd
  rw [h.look? hp] at hd
  have hdraft : c.draft p = .ok d := Except.eq_ok_of_toOption hd
  refine ⟨0, le_rfl, ?_, fun hdone => ?_⟩
  · rw [PassContext.resolved_of_draft hdraft]
    exact .start
  · rw [PassContext.isResolved_of_draft hdraft] at hdone
    cases hdone

end Pass

namespace Walk

variable {c : PassContext} {pass : Pass} {w : Walk} {p source : Path} {n : ℕ}

/-- Entering a file resolves its includes once more, if at all. -/
lemma resolves_enter (hw : w.Sound c) (hp : p.IsCanonical) (h : w.pass.Resolves c p n) :
    (w.enter c p).2.pass.Resolves c p (n + 1) := by
  rcases enter_cases hw hp with ⟨d, hd, henter⟩ | ⟨-, hmiss⟩
  · intro d' hd'
    rw [Pass.look?_of_get? (by rw [henter.pass.files, if_pos Std.ReflCmp.compare_self])] at hd'
    cases hd'
    obtain ⟨k, hk, hcollects, hfollowed⟩ := h d hd
    rw [Draft.directives_entered]
    by_cases hdone : d.isResolved ∧ d.directives.hasComputedIncludes = false
    · rw [Draft.entered_of_done hdone.1 hdone.2]
      exact ⟨k, hk.trans n.le_succ, hcollects, hfollowed⟩
    · have hopen : d.isResolved = false ∨ d.directives.hasComputedIncludes := by
        rw [not_and_or, Bool.not_eq_true, Bool.not_eq_false] at hdone
        exact hdone
      rw [Draft.entered_of_open hopen]
      exact ⟨k + 1, Nat.succ_le_succ hk, hcollects.again _, fun _ => k.succ_ne_zero⟩
  · exact (h.mono n.le_succ).congr (by rw [hmiss.pass.files])

/-- A walk enters every file at most once. -/
lemma Explores.resolves (h : Explores c [source] (pass.setOut c) w) (hc : pass.Coherent c)
    (hs : source.IsCanonical) (hp : p.IsCanonical) (hpass : pass.Resolves c p n) :
    w.pass.Resolves c p (if w.visited.contains p then n + 1 else n) := by
  let P : Walk → Prop := fun v => v.pass.Resolves c p (if v.visited.contains p then n + 1 else n)
  refine (h.preserves (P := P) ?_ hc.sound_setOut (by simpa using hs) hpass).2
  intro v q hv hq hnew hP
  by_cases heq : compare p q = .eq
  · obtain rfl := hp.eq_of_compare hq heq
    have hin : (v.enter c p).2.visited.contains p := contains_visited_enter.2 (.inl heq)
    simp only [P, hnew, Bool.false_eq_true, if_false] at hP
    simp only [P, hin, if_true]
    exact resolves_enter hv hp hP
  · have hvisited : (v.enter c q).2.visited.contains p = v.visited.contains p := by
      rw [Bool.eq_iff_iff, contains_visited_enter, or_iff_right heq]
    simp only [P, hvisited]
    exact hP.congr (Explores.get?_enter_of_ne hv hq heq)

end Walk

namespace PassContext.Passes

variable {c : PassContext} {sources : OrderedSet Path} {pass last : Pass} {p q s : Path}
  {a : Analysis} {d : Draft}

lemma reaches_iff (h : c.Passes sources pass last a) (hp : p.IsCanonical) :
    Relation.ReflTransGen a.state.Leads p q ↔ Relation.ReflTransGen last.Leads p q := by
  refine ⟨fun hpath => (h.reaches hp hpath).2, fun hpath => ?_⟩
  refine (reflTransGen_on (P := Path.IsCanonical) (fun p q hp hleads => ?_) hp hpath).2
  exact ⟨h.coherent.canonical_of_leads hp hleads, (h.leads_iff hp).2 hleads⟩

/-- There is at most one round for each source that leads to the file.  There may be fewer, as the
includes of a file are resolved again only if some of them are expressions. -/
lemma exists_resolves (h : c.Passes sources pass last a) (hp : p.IsCanonical) :
    ∃ leading : List Path, leading.Sublist sources.toList ∧
      (∀ s ∈ leading, Relation.ReflTransGen a.state.Leads s p) ∧
      last.Resolves c p leading.length := by
  -- the induction is on the sources that have been walked
  have key : ∀ before after, sources.toList = before ++ after →
      ∃ leading : List Path, leading.Sublist before ∧
        (∀ s ∈ leading, Relation.ReflTransGen a.state.Leads s p) ∧
        (pass.visitAll c before).Resolves c p leading.length := by
    intro before
    induction before using List.reverseRecOn with
    | nil => exact fun _ _ => ⟨[], .slnil, fun _ hs => (nomatch hs), h.opened.resolves hp⟩
    | append_singleton before s ih =>
      intro after hsplit
      rw [List.append_assoc] at hsplit
      obtain ⟨leading, hsub, hleading, hresolves⟩ := ih _ hsplit
      have hs : s ∈ sources.toList := by simp [hsplit]
      have hcanonical := h.canonical s hs
      have hcoherent : (pass.visitAll c before).Coherent c :=
        Pass.coherent_visitAll h.opened.coherent fun q hq => h.canonical q (by simp [hsplit, hq])
      obtain ⟨v, hv, -, hreachable⟩ := h.exists_walk hsplit
      -- the walk that the pass makes and the one that the closure is about are the same
      obtain ⟨w, hw, hvisit⟩ := Pass.visit_eq hcoherent hcanonical
      obtain rfl := hv.unique hw
      have hnext := hv.resolves hcoherent hcanonical hp hresolves
      have hlast : pass.visitAll c (before ++ [s]) = (pass.visitAll c before).visit c s := by
        rw [Pass.visitAll, List.foldl_append]
        rfl
      rw [hlast, hvisit]
      cases hvisited : v.visited.contains p with
      | false =>
        rw [hvisited] at hnext
        -- the walk does not come to the file, so nothing is resolved there
        exact ⟨leading, hsub.trans (List.sublist_append_left _ _), hleading, hnext.congr rfl⟩
      | true =>
        rw [hvisited] at hnext
        -- it does, so the source leads to the file; this is one round more
        obtain ⟨-, hreaches⟩ := h.reaches_within hs hreachable
        have hentered := (hv.sound hcoherent.sound_setOut (by simpa using hcanonical)).visited
        have hin : p ∈ v.visited.toList := (OrderedSet.mem_iff_of_canonical hentered hp).2 hvisited
        have hpath : Relation.ReflTransGen a.state.Leads s p :=
          (h.reaches_iff hcanonical).2 ((hreaches p hin).lift id fun _ _ hleads => hleads.2)
        refine ⟨leading ++ [s], hsub.append (List.Sublist.refl _), ?_, ?_⟩
        · intro s' hs'
          rcases List.mem_append.1 hs' with hs' | hs'
          · exact hleading s' hs'
          · exact List.mem_singleton.1 hs' ▸ hpath
        · rw [List.length_append, List.length_singleton]
          exact hnext.congr rfl
  obtain ⟨leading, hsub, hleading, hresolves⟩ := key _ [] (List.append_nil _).symm
  rw [← h.last_eq] at hresolves
  exact ⟨leading, hsub, hleading, hresolves⟩

/-- The includes of every file that is known in the end were followed. -/
lemma isResolved_of_get? (h : c.Passes sources pass last a) (hp : p.IsCanonical)
    (hd : last.files.get? p = some d) : d.isResolved := by
  obtain ⟨s, hs, hpath⟩ := h.isClosed.2 p d hp hd
  rcases (h.isDone_of_reaches (h.canonical s hs) (h.isDone hs) hpath).2 with ⟨d', hd', hdone⟩ | ⟨he, -⟩
  · rw [hd] at hd'
    cases hd'
    exact hdone
  · obtain ⟨e, he⟩ := he
    rw [(h.coherent.fits hp hd).fresh] at he
    cases he

end PassContext.Passes

namespace RunM

variable {settings : Settings} {hasher : Hasher} {previous : TaskState} {sources : List Path}
  {r r' : Run} {a : Analysis}

/-- Of every file, the state that an analysis comes to records all directives.  The entries are in
the order of the directives unless there is an expression among these, and two sources lead to the
file. -/
theorem records_of_analyse
    (h : (analyse settings hasher previous sources).run.run r = (.ok a, r')) :
    ∀ e ∈ a.state.files.toList, ∃ leading : List Path,
      leading.Sublist a.state.sources.toList ∧
      (∀ s ∈ leading, Relation.ReflTransGen a.state.Leads s e.1) ∧
      (r.context settings hasher previous).search.Records e.1 e.2.directives leading.length
        e.2.resolved ∧
      (e.2.directives.hasComputedIncludes = false ∨ leading.length ≤ 1 →
        InOrder e.2.directives.includes e.2.resolved) := by
  obtain ⟨l, pass, last, -, -, hpasses, -, -⟩ := passes_of_analyse h
  intro e he
  have hfiles : a.state.files = last.snapshots := by
    rw [hpasses.outcome]
    rfl
  rw [hfiles] at he
  obtain ⟨d, hd, heq⟩ := Pass.mem_snapshots he
  have hcanonical := (hpasses.coherent.files _ hd).canonical
  have hget := OrderedMap.get?_of_entry hd
  obtain ⟨leading, hsub, hleading, hresolves⟩ := hpasses.exists_resolves hcanonical
  obtain ⟨n, hn, hcollects, hfollowed⟩ := hresolves d (Pass.look?_of_get? hget)
  have hrecords := hcollects.records (hfollowed (hpasses.isResolved_of_get? hcanonical hget)) hn
  rw [hpasses.sources_eq, heq]
  exact ⟨leading, hsub, hleading, hrecords, hrecords.inOrder⟩

/-- Two sources that give a macro different values, and share a header that includes what it says and
another header after that. -/
def defining : Run where
  files := Workspace.ofTexts "p"
    [("a.c", "#define M \"x.h\"\n#include \"h.h\"\n"), ("b.c", "#define M \"y.h\"\n#include \"h.h\"\n"),
      ("h.h", "#include M\n#include \"z.h\"\n"), ("x.h", ""), ("y.h", ""), ("z.h", "")]

/-- The two sources of `defining` make two rounds through their header. -/
theorem records_of_analyse_defining : ∃ a r' e, ∃ leading : List Path,
    (analyse ⟨[], true, ∅⟩ contentHasher ∅ [⟨"a.c"⟩, ⟨"b.c"⟩]).run.run defining = (.ok a, r') ∧
      e ∈ a.state.files.toList ∧ e.2.resolved.map (·.candidate) = ["x.h", "z.h", "y.h"] ∧
      (defining.context ⟨[], true, ∅⟩ contentHasher ∅).search.Records e.1 e.2.directives
        leading.length e.2.resolved := by
  let run := (analyse ⟨[], true, ∅⟩ contentHasher ∅ [⟨"a.c"⟩, ⟨"b.c"⟩]).run.run defining
  have hfindings : run.1.toOption.any fun a => a.state.files.toList.any fun e =>
      e.2.resolved.map (·.candidate) = ["x.h", "z.h", "y.h"] := by
    decide +kernel
  obtain ⟨a, r', hrun, hentry⟩ := Except.exists_of_any hfindings
  obtain ⟨e, he, hresolved⟩ := List.any_eq_true.1 hentry
  obtain ⟨leading, -, -, hrecords, -⟩ := records_of_analyse hrun e he
  exact ⟨a, r', e, leading, hrun, he, of_decide_eq_true hresolved, hrecords⟩

/-- What an expression stands for in the second round is recorded behind the directive after it. -/
theorem exists_disordered : ∃ a r' e,
    (analyse ⟨[], true, ∅⟩ contentHasher ∅ [⟨"a.c"⟩, ⟨"b.c"⟩]).run.run defining = (.ok a, r') ∧
      e ∈ a.state.files.toList ∧ ¬ InOrder e.2.directives.includes e.2.resolved := by
  let run := (analyse ⟨[], true, ∅⟩ contentHasher ∅ [⟨"a.c"⟩, ⟨"b.c"⟩]).run.run defining
  have hfindings : run.1.toOption.any fun a => a.state.files.toList.any fun e =>
      e.2.directives.includes.Nodup ∧ ¬ e.2.resolved.Pairwise fun r t =>
        e.2.directives.includes.idxOf r.directive ≤ e.2.directives.includes.idxOf t.directive := by
    decide +kernel
  obtain ⟨a, r', hrun, hentry⟩ := Except.exists_of_any hfindings
  obtain ⟨e, he, hdirectives⟩ := List.any_eq_true.1 hentry
  rw [decide_eq_true_eq] at hdirectives
  refine ⟨a, r', e, hrun, he, fun horder => hdirectives.2 ?_⟩
  exact horder.pairwise_idxOf hdirectives.1

end RunM

end IncludeDeps
