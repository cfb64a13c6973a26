import IncludeDeps.Proofs.Incremental
import IncludeDeps.Proofs.Preprocessor

/-!
# Walks and the preprocessor

A walk enters each file once and resolves all of its includes at that time; a preprocessor takes
the includes one by one, under macros that grow meanwhile.  As long as that makes no difference to
any single include (`Preprocess.IsSettled`), the walk enters all files that the preprocessor enters,
unless it tells that some expression could not be expanded completely.

* `Walk.Explores.merge_iff`: includes that lead to the same file are as good as one;
* `Walk.Tracks`: what a walk and a preprocessor have in common at the same point;
* `Walk.Tracks.of_preprocesses` carries it through a whole run;
* `Build.isSome_snapshot_of_entered` is the result.
-/

namespace IncludeDeps

/-! ## Stacks with repetitions -/

namespace Walk.Explores

variable {c : PassContext} {w w' : Walk} {q : Path} {stack stack' : List Path}

lemma cons_iff_of_visited (hq : w.visited.contains q) :
    Explores c (q :: stack) w w' ↔ Explores c stack w w' := by
  constructor
  · intro h
    cases h with
    | skip _ h => exact h
    | enter hnot _ =>
      rw [hq] at hnot
      cases hnot
  · exact .skip hq

lemma cons_iff_of_mem (hq : q ∈ stack) :
    Explores c (stack ++ q :: stack') w w' ↔ Explores c (stack ++ stack') w w' := by
  rw [append_iff, append_iff]
  constructor
  · rintro ⟨v, h, h'⟩
    exact ⟨v, h, (cons_iff_of_visited (h.visited_of_mem hq)).1 h'⟩
  · rintro ⟨v, h, h'⟩
    exact ⟨v, h, (cons_iff_of_visited (h.visited_of_mem hq)).2 h'⟩

/-- It makes no difference to a walk if includes that became the same are put together.  The stack
may be longer without that, but what is on it twice is skipped the second time.  The files have to be
canonical, as only then equal paths have equal texts. -/
theorem merge_iff {l rs : List ResolvedInclude}
    (hl : ∀ r ∈ l ++ rs, ∀ q, r.file? = some q → q.IsCanonical) :
    Explores c ((rs.foldl addNew l).filterMap ResolvedInclude.file?) w w' ↔
      Explores c ((l ++ rs).filterMap ResolvedInclude.file?) w w' := by
  -- the list that is kept varies: an include that is left out has led to the same file before
  induction rs generalizing l with
  | nil => rw [List.append_nil]; rfl
  | cons r rest ih =>
    rw [List.foldl_cons]
    by_cases hany : l.any r.same
    · have hl' : ∀ r ∈ l ++ rest, ∀ q, r.file? = some q → q.IsCanonical := by
        intro r' hr'
        rcases List.mem_append.1 hr' with hr' | hr'
        · exact hl r' (List.mem_append_left _ hr')
        · exact hl r' (List.mem_append_right _ (List.mem_cons_of_mem _ hr'))
      rw [addNew_of_same hany, ih hl', List.filterMap_append, List.filterMap_append]
      cases hfile : r.file? with
      | none => rw [List.filterMap_cons_none hfile]
      | some q =>
        -- the file is on the stack already, under the same canonical path, so the second entry is
        -- skipped
        obtain ⟨r', hr', hsame⟩ := List.any_eq_true.1 hany
        obtain ⟨q', hq', hcompare⟩ := ResolvedInclude.compare_file_of_same hsame hfile
        have hcanonical := hl r (by simp) q hfile
        have hcanonical' := hl r' (List.mem_append_left _ hr') q' hq'
        obtain rfl := hcanonical.eq_of_compare hcanonical' hcompare
        rw [List.filterMap_cons_some hfile]
        exact (cons_iff_of_mem (List.mem_filterMap.2 ⟨r', hr', hq'⟩)).symm
    · have hl' : ∀ r' ∈ (l ++ [r]) ++ rest, ∀ q, r'.file? = some q → q.IsCanonical := by
        rw [List.append_assoc]
        exact hl
      rw [addNew_of_new (Bool.eq_false_iff.2 hany), ih hl', List.append_assoc]
      rfl

end Walk.Explores

/-! ## What a preprocessor did -/

namespace Preprocess

variable {events events' : List Event} {p q : Path} {t u : MacroTable} {i : Include}

/-- The table with which a file was entered for the first time. -/
def first? (events : List Event) (p : Path) : Option MacroTable :=
  events.findSome? fun
    | .entered q t => if q = p then some t else none
    | .taken _ _ _ => none

/-- Whenever an expression is taken, it stands for the paths for which it stood when its file had
just been entered for the first time, if it could be expanded completely then. -/
def Event.IsSettled (events : List Event) : Event → Prop
  | .entered _ _ => True
  | .taken p i t => i.isComputed → ∀ u ∈ first? events p, (u.expand i.target).isComplete →
      (t.expand i.target).paths = (u.expand i.target).paths

instance : (e : Event) → Decidable (e.IsSettled events)
  | .entered _ _ => isTrue trivial
  | .taken p i t => inferInstanceAs (Decidable (i.isComputed → ∀ u ∈ first? events p,
      (u.expand i.target).isComplete → (t.expand i.target).paths = (u.expand i.target).paths))

/-- No expression stands for other paths when it is taken than when its file was entered first. -/
def IsSettled (events : List Event) : Prop := ∀ e ∈ events, e.IsSettled events

instance : Decidable (IsSettled events) :=
  inferInstanceAs (Decidable (∀ e ∈ events, e.IsSettled events))

lemma first?_append : first? (events ++ events') p = (first? events p).or (first? events' p) :=
  List.findSome?_append

lemma first?_entered : first? [.entered q t] p = if q = p then some t else none := by
  by_cases h : q = p
  · simp [first?, h]
  · simp [first?, h]

lemma first?_taken : first? [.taken q i t] p = none := rfl

lemma isSome_first? (h : .entered p t ∈ events) : (first? events p).isSome := by
  rw [first?, List.findSome?_isSome_iff]
  exact ⟨_, h, by simp⟩

lemma exists_entered (h : (first? events p).isSome) : ∃ t, .entered p t ∈ events := by
  rw [first?, List.findSome?_isSome_iff] at h
  obtain ⟨e, he, hsome⟩ := h
  cases e with
  | entered q t =>
    by_cases heq : q = p
    · exact ⟨t, heq ▸ he⟩
    · simp [heq] at hsome
  | taken q i t => cases hsome

lemma IsSettled.files_eq {s : Search} (h : IsSettled events) (htaken : .taken p i t ∈ events)
    (hu : first? events p = some u) (hcomplete : (Search.targets u i).isComplete) :
    s.files t p i = s.files u p i := by
  have hpaths : (Search.targets t i).paths = (Search.targets u i).paths := by
    cases hi : i.isComputed with
    | false => rw [Search.targets_of_literal hi, Search.targets_of_literal hi]
    | true =>
      unfold Search.targets at hcomplete ⊢
      rw [if_pos hi] at hcomplete ⊢
      rw [if_pos hi]
      exact h _ htaken hi u hu hcomplete
  rw [Search.files_eq, Search.files_eq, hpaths]

end Preprocess

open Preprocess

/-! ## A walk beside a preprocessor -/

namespace Walk

/-- What a walk and a preprocessor have in common after the events `past`.  The includes of the
files `opened` are still being taken. -/
structure Tracks (c : PassContext) (read : Path → Option Directives) (past : List Event)
    (opened : List Path) (w : Walk) (t : MacroTable) : Prop where
  sound : w.Sound c
  macros : w.macros = t
  visited : ∀ p, p.IsCanonical → (w.visited.contains p ↔ (first? past p).isSome)
  unseen : ∀ p, p.IsCanonical → w.visited.contains p = false →
    w.pass.look? c p = (c.draft p).toOption
  seen : ∀ p u, first? past p = some u → p.IsCanonical ∧ u ≤ t ∧ ∃ d, read p = some d ∧
    (∀ m ∈ d.macros, m.value ∈ u.values m.name) ∧
    (∀ i ∈ d.includes, (Search.targets u i).isComplete) ∧
    (p ∉ opened → ∀ i ∈ d.includes, ∀ q ∈ c.search.files u p i, w.visited.contains q)

/-- The files to enter for what a preprocessor has to do, as a walk has it on its stack: the
includes of a file were resolved when it was entered for the first time. -/
def meets (c : PassContext) (events : List Event) : Item → List Path
  | .file p => [p]
  | .take p i => match first? events p with
    | some u => c.search.files u p i
    | none => []

/-- What a preprocessor has to do is about files that can be there, and includes of files that
were entered. -/
def IsDue (read : Path → Option Directives) (past : List Event) : Item → Prop
  | .file p => p.IsCanonical
  | .take p i => (first? past p).isSome ∧ ∃ d, read p = some d ∧ i ∈ d.includes

variable {c : PassContext} {read : Path → Option Directives} {past events later : List Event}
  {opened : List Path} {w w' : Walk} {t t' u : MacroTable} {p q : Path} {d : Directives}
  {i : Include} {items : List Item} {item : Item}

lemma IsDue.append (h : IsDue read past item) : IsDue read (past ++ events) item := by
  cases item with
  | file p => exact h
  | take p i =>
    obtain ⟨hfirst, hd⟩ := h
    refine ⟨?_, hd⟩
    rw [first?_append, Option.isSome_or, hfirst]
    rfl

lemma canonical_of_meets (hitems : ∀ item ∈ items, IsDue read past item)
    (hq : q ∈ items.flatMap (meets c events)) : q.IsCanonical := by
  obtain ⟨item, hitem, hq⟩ := List.mem_flatMap.1 hq
  cases item with
  | file p =>
    rw [List.mem_singleton.1 hq]
    exact hitems _ hitem
  | take p i =>
    unfold meets at hq
    simp only at hq
    split at hq
    · exact Search.canonical_of_mem_files hq
    · cases hq

namespace Tracks

lemma taken (h : Tracks c read past opened w t) :
    Tracks c read (past ++ [.taken p i u]) opened w t where
  sound := h.sound
  macros := h.macros
  visited q hq := by rw [first?_append, first?_taken, Option.or_none, h.visited q hq]
  unseen := h.unseen
  seen q u hu := by
    rw [first?_append, first?_taken, Option.or_none] at hu
    exact h.seen q u hu

/-- Entering a file again changes nothing, as all of its macros are known. -/
lemma again (h : Tracks c read past opened w t) (hp : p.IsCanonical)
    (hvisited : w.visited.contains p) (hread : read p = some d) :
    t.defineAll d.macros = t ∧ Tracks c read (past ++ [.entered p u]) opened w t := by
  obtain ⟨u', hu'⟩ := Option.isSome_iff_exists.1 ((h.visited p hp).1 hvisited)
  obtain ⟨-, hle, d', hd', hmacros, -, -⟩ := h.seen p u' hu'
  rw [hread] at hd'
  cases hd'
  have hfirst : ∀ q, first? (past ++ [.entered p u]) q = first? past q := by
    intro q
    rw [first?_append, first?_entered]
    by_cases hq : p = q
    · rw [← hq, hu']
      rfl
    · rw [if_neg hq, Option.or_none]
  refine ⟨MacroTable.defineAll_eq_self fun m hm => hle m.name (hmacros m hm), ?_⟩
  exact ⟨h.sound, h.macros, fun q hq => by rw [hfirst, h.visited q hq], h.unseen,
    fun q u hu => h.seen q u (by rw [← hfirst, hu])⟩

/-- Entering a file for the first time, unless its includes cannot be expanded completely. -/
lemma fresh (h : Tracks c read past opened w t) (hp : p.IsCanonical)
    (hnew : w.visited.contains p = false) (hread : read p = some d)
    (hdraft : ∃ e, c.draft p = .ok e ∧ e.directives = d)
    (hflag : (w.enter c p).2.pass.isIncomplete = false) :
    Tracks c read (past ++ [.entered p (t.defineAll d.macros)]) (p :: opened) (w.enter c p).2
        (t.defineAll d.macros) ∧
      (w.enter c p).1 =
        ((d.includes.flatMap (c.search.resolve (t.defineAll d.macros) p)).foldl addNew []).filterMap
          ResolvedInclude.file? := by
  obtain ⟨e, he, rfl⟩ := hdraft
  have hlook : w.pass.look? c p = some e := by
    rw [h.unseen p hp hnew, he]
    rfl
  have henter := enter_of_look? h.sound hp hlook
  have hmacros := henter.macros
  rw [h.macros] at hmacros
  have hcomplete : ∀ i ∈ e.directives.includes,
      (Search.targets (t.defineAll e.directives.macros) i).isComplete := by
    have hall := henter.isIncomplete
    rw [hflag, hmacros] at hall
    have hall' := (Bool.or_eq_false_iff.1 hall.symm).2
    rw [Bool.not_eq_false'] at hall'
    exact List.all_eq_true.1 hall'
  -- both have taken in the macros of the file, so what its includes become is the same for both;
  -- what was known of other files is untouched
  refine ⟨⟨sound_enter h.sound hp, hmacros, fun q hq => ?_, fun q hq hnot => ?_, ?_⟩, ?_⟩
  · rw [contains_visited_enter, h.visited q hq, first?_append, first?_entered,
      hq.compare_eq_iff hp, Option.isSome_or]
    by_cases heq : q = p
    · simp [heq]
    · simp [heq, Ne.symm heq]
  · obtain ⟨hne, hold⟩ := not_visited_enter.1 hnot
    rw [← h.unseen q hq hold, Pass.look?, Pass.look?, Explores.get?_enter_of_ne h.sound hp hne]
  · intro q u hu
    rw [first?_append] at hu
    cases hpast : first? past q with
    | some u' =>
      rw [hpast] at hu
      cases hu
      obtain ⟨hq, hle, d', hd', hdefined, hall, hclosed⟩ := h.seen q u hpast
      refine ⟨hq, hle.trans MacroTable.le_defineAll, d', hd', hdefined, hall, ?_⟩
      intro hnot i hi f hf
      have hvisited := hclosed (fun hin => hnot (List.mem_cons_of_mem _ hin)) i hi f hf
      exact contains_visited_enter.2 (.inr hvisited)
    | none =>
      rw [hpast, Option.none_or, first?_entered] at hu
      split at hu
      · next heq =>
        cases hu
        subst heq
        exact ⟨hp, le_rfl, _, hread, fun m hm => MacroTable.mem_values_defineAll hm, hcomplete,
          fun hnot => absurd List.mem_cons_self hnot⟩
      · cases hu
  · have hopen := PassContext.isResolved_of_draft he
    rw [henter.next, hmacros, Draft.entered_of_open (.inl hopen), Draft.next,
      PassContext.resolved_of_draft he]
    rfl

/-- The includes of a file have been taken when all that they lead to was entered. -/
lemma close (h : Tracks c read past (p :: opened) w t)
    (hp : ∀ u d, first? past p = some u → read p = some d → ∀ i ∈ d.includes,
      ∀ q ∈ c.search.files u p i, w.visited.contains q) :
    Tracks c read past opened w t where
  sound := h.sound
  macros := h.macros
  visited := h.visited
  unseen := h.unseen
  seen q u hu := by
    obtain ⟨hq, hle, d, hd, hdefined, hall, hclosed⟩ := h.seen q u hu
    refine ⟨hq, hle, d, hd, hdefined, hall, fun hnot i hi f hf => ?_⟩
    by_cases heq : q = p
    · subst heq
      exact hp u d hu hd i hi f hf
    · refine hclosed (fun hin => ?_) i hi f hf
      rcases List.mem_cons.1 hin with hin | hin
      · exact heq hin
      · exact hnot hin

lemma meets_includes {all : List Event} (hu : first? all p = some u) :
    (d.includes.map (Item.take p)).flatMap (meets c all) =
      d.includes.flatMap (c.search.files u p) := by
  rw [List.flatMap_map]
  refine List.flatMap_congr fun i _ => ?_
  rw [meets, hu]

/-- A walk that enters a file for the first time goes on with what the preprocessor meets there. -/
lemma descend {all : List Event} {v : Walk} (h : Tracks c read past opened w t)
    (hp : p.IsCanonical) (hnew : w.visited.contains p = false) (hread : read p = some d)
    (hdraft : ∃ e, c.draft p = .ok e ∧ e.directives = d)
    (hfirst : first? all p = some (t.defineAll d.macros)) (hwalk : Explores c [p] w v)
    (hflag : v.pass.isIncomplete = false) :
    ∃ w₁, Tracks c read (past ++ [.entered p (t.defineAll d.macros)]) (p :: opened) w₁
        (t.defineAll d.macros) ∧
      Explores c ((d.includes.map (Item.take p)).flatMap (meets c all)) w₁ v := by
  have henter : Explores c ((w.enter c p).1 ++ []) (w.enter c p).2 v := by
    cases hwalk with
    | skip hin _ =>
      rw [hin] at hnew
      cases hnew
    | enter _ h => exact h
  rw [List.append_nil] at henter
  have hnext : ∀ q ∈ (w.enter c p).1, q.IsCanonical :=
    fun q hq => (isFile_of_mem_next h.sound hp hq).1
  have henterflag := henter.isIncomplete_eq_false (sound_enter h.sound hp) hnext hflag
  obtain ⟨htracks, hmerged⟩ := h.fresh hp hnew hread hdraft henterflag
  have hcanonical : ∀ r ∈ [] ++ d.includes.flatMap
      (c.search.resolve (t.defineAll d.macros) p), ∀ q, r.file? = some q → q.IsCanonical := by
    intro r hr q hq
    obtain ⟨i, -, hi⟩ := List.mem_flatMap.1 (List.nil_append _ ▸ hr)
    exact Search.canonical_of_mem_files (List.mem_filterMap.2 ⟨r, hi, hq⟩)
  rw [hmerged, Explores.merge_iff hcanonical, List.nil_append, List.filterMap_flatMap] at henter
  refine ⟨_, htracks, ?_⟩
  rw [meets_includes hfirst]
  exact henter

/-- Where a file is met again whose includes have been taken, all that they lead to was entered. -/
lemma visited_of_meets {all : List Event} (h : Tracks c read past opened w t)
    (hp : p.IsCanonical) (hvisited : w.visited.contains p) (hread : read p = some d)
    (hclosed : p ∉ opened) (hpast : past <+: all) :
    ∀ q ∈ (d.includes.map (Item.take p)).flatMap (meets c all), w.visited.contains q := by
  intro q hq
  obtain ⟨u, hu⟩ := Option.isSome_iff_exists.1 ((h.visited p hp).1 hvisited)
  obtain ⟨-, -, d', hd', -, -, hfiles⟩ := h.seen p u hu
  rw [hread] at hd'
  cases hd'
  -- the first entry of the file lies in the past, so later events do not change it
  have hall : first? all p = some u := by
    obtain ⟨later, rfl⟩ := hpast
    rw [first?_append, hu]
    rfl
  rw [meets_includes hall] at hq
  obtain ⟨i, hi, hq⟩ := List.mem_flatMap.1 hq
  exact hfiles hclosed i hi q hq

lemma meets_files {all : List Event} (hu : first? all p = some u)
    (hfiles : c.search.files t p i = c.search.files u p i) :
    ((c.search.files t p i).map Item.file ++ items).flatMap (meets c all) =
      (Item.take p i :: items).flatMap (meets c all) := by
  rw [List.flatMap_append, List.flatMap_cons, List.flatMap_map, meets, hu, hfiles]
  simp [meets]

/-- A walk keeps up with a preprocessor beyond a file if it does within the file.  When a file is
entered again, nothing is left to do there. -/
lemma file {all : List Event} {v : Walk} {t₁ : MacroTable} (h : Tracks c read past opened w t)
    (hp : p.IsCanonical) (hread : read p = some d)
    (hdraft : ∃ e, c.draft p = .ok e ∧ e.directives = d)
    (hall : all = past ++ .entered p (t.defineAll d.macros) :: later) (hclosed : p ∉ opened)
    (hwalk : Explores c [p] w v) (hflag : v.pass.isIncomplete = false)
    (hwithin : ∀ opened' w₁, (∀ q ∈ opened', q = p ∨ q ∈ opened) →
      Tracks c read (past ++ [.entered p (t.defineAll d.macros)]) opened' w₁
        (t.defineAll d.macros) →
      Explores c ((d.includes.map (Item.take p)).flatMap (meets c all)) w₁ v →
      Tracks c read (past ++ [.entered p (t.defineAll d.macros)] ++ events) opened' v t₁) :
    Tracks c read (past ++ [.entered p (t.defineAll d.macros)] ++ events) opened v t₁ := by
  cases hnew : w.visited.contains p with
  | true =>
    -- the walk skips the file, and the preprocessor learns no macro from it
    have hv : v = w := by
      refine hwalk.unique (Explores.of_visited fun q hq => ?_)
      rw [List.mem_singleton.1 hq, hnew]
    subst hv
    obtain ⟨htable, hagain⟩ := h.again (u := t.defineAll d.macros) hp hnew hread
    have hpast : past <+: all := by
      rw [hall]
      exact List.prefix_append _ _
    have hinside := h.visited_of_meets hp hnew hread hclosed hpast
    exact hwithin opened v (fun q hq => .inr hq) (htable.symm ▸ hagain) (.of_visited hinside)
  | false =>
    -- both enter the file now, and this entry is the one that counts from here on
    have hnone : first? past p = none := by
      rw [← Option.not_isSome_iff_eq_none, ← h.visited p hp, hnew]
      exact Bool.false_ne_true
    have hfirst : first? all p = some (t.defineAll d.macros) := by
      rw [hall, ← List.singleton_append, first?_append, hnone, first?_append, first?_entered]
      simp
    obtain ⟨w₁, htracks, hinside⟩ := h.descend hp hnew hread hdraft hfirst hwalk hflag
    have hopened := hwithin (p :: opened) w₁ (fun q => List.mem_cons.1) htracks hinside
    refine hopened.close fun u d' hu hd' i hi q hq => hinside.visited_of_mem ?_
    rw [hread] at hd'
    cases hd'
    -- the table of the first entry does not depend on what comes later
    have hu' : u = t.defineAll d.macros := by
      rw [List.append_assoc, first?_append, hnone, first?_append, first?_entered] at hu
      simpa using hu.symm
    rw [meets_includes hfirst]
    exact List.mem_flatMap.2 ⟨i, hi, hu' ▸ hq⟩

/-- A walk keeps up with a preprocessor through a whole run: they stay in step from any point of the
run on, if they are in step there.  The events are those between that point and the end, all of the
run is `all`, and on the stack of the walk there is what the preprocessor still has to meet.  A file
is entered by both or by none, and only once by the walk, whereas the preprocessor comes back to it
as often as it is included. -/
theorem of_preprocesses {all : List Event} (hrun : Preprocesses c.search read t items events t')
    (h : Tracks c read past opened w t) (hall : all = past ++ events ++ later)
    (hsettled : IsSettled all)
    (hread : ∀ p d, read p = some d → ∃ e, c.draft p = .ok e ∧ e.directives = d)
    (hitems : ∀ item ∈ items, IsDue read past item)
    (hopened : ∀ p ∈ opened, ∀ u, .entered p u ∉ events)
    (hwalk : Explores c (items.flatMap (meets c all)) w w')
    (hflag : w'.pass.isIncomplete = false) : Tracks c read (past ++ events) opened w' t' := by
  -- on the run of the preprocessor; `past` and `later` vary because `all`, in which the first
  -- entries are looked up, stays the same
  induction hrun generalizing past opened later w w' with
  | done t =>
    cases hwalk
    rw [List.append_nil]
    exact h
  | @take p i t t' rest events hrun ih =>
    obtain ⟨hfirst, d, hd, hi⟩ := hitems _ List.mem_cons_self
    obtain ⟨u, hu⟩ := Option.isSome_iff_exists.1 hfirst
    have hall' : all = (past ++ [.taken p i t]) ++ events ++ later := by
      rw [hall]
      simp
    have huall : first? all p = some u := by
      rw [hall, List.append_assoc, first?_append, hu]
      rfl
    obtain ⟨-, -, d', hd', -, hcomplete, -⟩ := h.seen p u hu
    rw [hd] at hd'
    cases hd'
    -- the walk does nothing: it has put the files on its stack when it entered `p`, under the
    -- macros `u`, and the include stands for the same files now
    have hfiles : c.search.files t p i = c.search.files u p i :=
      hsettled.files_eq (by rw [hall]; simp) huall (hcomplete i hi)
    have hitems' : ∀ item ∈ (c.search.files t p i).map Item.file ++ rest,
        IsDue read (past ++ [.taken p i t]) item := by
      intro item hitem
      rcases List.mem_append.1 hitem with hitem | hitem
      · obtain ⟨q, hq, rfl⟩ := List.mem_map.1 hitem
        exact Search.canonical_of_mem_files hq
      · exact (hitems item (List.mem_cons_of_mem _ hitem)).append
    have htracks := ih h.taken hall' hitems'
      (fun q hq u hu => hopened q hq u (List.mem_cons_of_mem _ hu))
      (meets_files huall hfiles ▸ hwalk) hflag
    rw [List.append_assoc] at htracks
    exact htracks
  | @enter p d t t₁ t₂ rest events₁ events₂ hp hinner hrest ih ih' =>
    have hcanonical : p.IsCanonical := hitems _ List.mem_cons_self
    have hrestdue : ∀ item ∈ rest, IsDue read past item :=
      fun item hitem => hitems item (List.mem_cons_of_mem _ hitem)
    have hrestcanonical : ∀ q ∈ rest.flatMap (meets c all), q.IsCanonical :=
      fun q hq => canonical_of_meets hrestdue hq
    -- the walk is cut where the stack of `p` is done, as the run is cut where its includes are
    -- taken
    have hsplit : Explores c ([p] ++ rest.flatMap (meets c all)) w w' := hwalk
    obtain ⟨v, hone, hothers⟩ := Explores.append_iff.1 hsplit
    have hvsound : v.Sound c := hone.sound h.sound (by simpa using hcanonical)
    have hvflag := hothers.isIncomplete_eq_false hvsound hrestcanonical hflag
    have hall₀ : all = past ++ .entered p (t.defineAll d.macros) :: (events₁ ++ events₂ ++ later) := by
      rw [hall]
      simp
    have hall₁ : all = (past ++ [.entered p (t.defineAll d.macros)]) ++ events₁ ++
        (events₂ ++ later) := by
      rw [hall]
      simp
    have hall₂ : all = ((past ++ [.entered p (t.defineAll d.macros)]) ++ events₁) ++ events₂ ++
        later := by
      rw [hall]
      simp
    have hdue : ∀ item ∈ d.includes.map (Item.take p),
        IsDue read (past ++ [.entered p (t.defineAll d.macros)]) item := by
      intro item hitem
      obtain ⟨i, hi, rfl⟩ := List.mem_map.1 hitem
      exact ⟨isSome_first? (t := t.defineAll d.macros) (by simp), d, hp, hi⟩
    have hclosed : p ∉ opened := fun hin => hopened p hin _ List.mem_cons_self
    have hfile := h.file hcanonical hp (hread p d hp) hall₀ hclosed hone hvflag
      fun opened' w₁ hsub htracks hinside => by
        refine ih htracks hall₁ hdue (fun q hq u hu => ?_) hinside hvflag
        rcases hsub q hq with rfl | hq
        · exact hinner.not_mem_entered hp u hu
        · exact hopened q hq u (List.mem_cons_of_mem _ (List.mem_append_left _ hu))
    have hpast : past ++ .entered p (t.defineAll d.macros) :: (events₁ ++ events₂) =
        ((past ++ [.entered p (t.defineAll d.macros)]) ++ events₁) ++ events₂ := by
      simp
    rw [hpast]
    refine ih' hfile hall₂ (fun item hitem => ?_) (fun q hq u hu => ?_) hothers hflag
    · exact (hrestdue item hitem).append.append
    · exact hopened q hq u (List.mem_cons_of_mem _ (List.mem_append_right _ hu))

end Tracks

end Walk

/-! ## Tracked headers -/

namespace Build

variable {hasher : Hasher} {b : Build} {previous : TaskState} {a : Analysis} {s p : Path}
  {events : List Event} {t u : MacroTable}

/-- The directives of a file that is there. -/
def directives? (b : Build) (p : Path) : Option Directives :=
  (b.files.read p).toOption.map (Source.readBytes b.task.imports)

/-- What the preprocessor reads, an analysis reads as well, if files can be digested. -/
lemma draft_of_directives? {d : Directives}
    (halike : (b.context hasher previous).Alike (b.context hasher ∅))
    (hreadable : ∀ p, b.files.isFile p → ∃ digest, hasher b.files p = .ok digest)
    (h : b.directives? p = some d) :
    ∃ e, (b.context hasher previous).draft p = .ok e ∧ e.directives = d := by
  unfold directives? at h
  obtain ⟨x, hread, rfl⟩ := Except.exists_of_map_toOption h
  obtain ⟨digest, hdigest⟩ := hreadable p (Workspace.isFile_of_read hread)
  refine ⟨⟨digest, Source.readBytes b.task.imports x, [], false⟩, ?_, rfl⟩
  rw [halike.draft, draft_empty, hdigest, hread]
  rfl

/-- An analysis of one source knows all files that the preprocessor enters, unless it tells that
some expression could not be expanded completely.  Every header can be read, and no expression
stands for other paths when it is taken than when its file was entered first. -/
theorem isSome_snapshot_of_entered
    (halike : (b.context hasher previous).Alike (b.context hasher ∅))
    (hreadable : ∀ p, b.files.isFile p → ∃ digest, hasher b.files p = .ok digest)
    (h : b.analyse hasher previous = .ok a) (hsource : a.state.sources.toList = [s])
    (hflag : a.isIncomplete = false)
    (hrun : Preprocesses b.search b.directives? (MacroTable.ofMap b.task.macros) [.file s] events t)
    (hsettled : IsSettled events) (hp : .entered p u ∈ events) : (a.state.snapshot? p).isSome := by
  obtain ⟨sources, pass, last, hpass⟩ := Task.passes_of_analyseIn h
  rw [hpass.sources_eq] at hsource
  have hsplit : sources.toList = [] ++ s :: [] := hsource
  obtain ⟨v, hwalk, hextends, -⟩ := hpass.exists_walk hsplit
  have hs : s.IsCanonical := hpass.canonical s (by simp [hsource])
  have hread := fun p d (hd : b.directives? p = some d) => draft_of_directives? halike hreadable hd
  have hsound := hpass.opened.coherent.sound_setOut
  have hvflag : v.pass.isIncomplete = false := by
    rw [hpass.outcome] at hflag
    rw [Bool.eq_false_iff] at hflag ⊢
    exact fun hv => hflag (hextends.isIncomplete hv)
  have hstart : Walk.Tracks (b.context hasher previous) b.directives? [] []
      (pass.setOut (b.context hasher previous)) (MacroTable.ofMap b.task.macros) := by
    refine ⟨hsound, rfl, fun q _ => ?_, fun q hq _ => hpass.opened.look? hq, ?_⟩
    · simp [Pass.setOut, first?]
    · exact fun q u hu => nomatch hu
  have hdue : ∀ item ∈ [Item.file s], Walk.IsDue b.directives? [] item := by
    intro item hitem
    rw [List.mem_singleton.1 hitem]
    exact hs
  have hrun' : Preprocesses (b.context hasher previous).search b.directives?
      (MacroTable.ofMap b.task.macros) [.file s] events t := hrun
  have hall : events = [] ++ events ++ [] := by simp
  have htracks := hstart.of_preprocesses hrun' hall hsettled hread hdue (fun q hq => nomatch hq)
    hwalk hvflag
  rw [List.nil_append] at htracks
  obtain ⟨u', hu'⟩ := Option.isSome_iff_exists.1 (isSome_first? hp)
  obtain ⟨hcanonical, -, d, hd, -⟩ := htracks.seen p u' hu'
  have hvisited := (htracks.visited p hcanonical).2 (isSome_first? hp)
  -- what the walk has entered stays done in the rest of the pass
  have hdone := hextends.isDone hcanonical (hwalk.isDone hsound (by simpa using hs) rfl hcanonical
    hvisited)
  rw [hpass.snapshot?_eq hcanonical]
  rcases hdone with ⟨e, he, -⟩ | ⟨⟨e, he⟩, -⟩
  · rw [he]
    rfl
  · obtain ⟨e', he', -⟩ := hread p d hd
    rw [he] at he'
    cases he'

/-- A macro include whose macro is defined by another header that was included before. -/
def configured : Build where
  files := Workspace.ofTexts "p"
    [("a.c", "#include \"config.h\"\n#include \"user.h\"\n"),
      ("config.h", "#define TARGET \"target.h\"\n"), ("user.h", "#include TARGET\n"),
      ("target.h", "")]
  task := ⟨"t", [⟨"a.c"⟩], [], false, ∅, none⟩

theorem isSome_snapshot_target : ∃ a, configured.analyse contentHasher ∅ = .ok a ∧
    a.isIncomplete = false ∧ (a.state.snapshot? ⟨"/p/target.h"⟩).isSome := by
  let a := (configured.analyse contentHasher ∅).toOption.get (by decide +kernel)
  let r := (run? configured.search configured.directives? 20
    (MacroTable.ofMap configured.task.macros) [.file ⟨"/p/a.c"⟩]).get (by decide +kernel)
  have h : configured.analyse contentHasher ∅ = .ok a := Except.eq_ok_get _
  have hrun : Preprocesses configured.search configured.directives?
      (MacroTable.ofMap configured.task.macros) [.file ⟨"/p/a.c"⟩] r.1 r.2 := .get_run? _
  have hfacts : a.state.sources.toList = [⟨"/p/a.c"⟩] ∧ a.isIncomplete = false ∧
      IsSettled r.1 ∧ (first? r.1 ⟨"/p/target.h"⟩).isSome := by decide +kernel
  obtain ⟨hsource, hflag, hsettled, hfirst⟩ := hfacts
  obtain ⟨u, hu⟩ := exists_entered hfirst
  exact ⟨a, h, hflag, isSome_snapshot_of_entered ⟨rfl, rfl, rfl⟩
    (fun p => exists_contentHasher) h hsource hflag hrun hsettled hu⟩

/-- A macro that gets a second value between the entry of the file and the include that uses it. -/
def overtaken : Build where
  files := Workspace.ofTexts "p"
    [("a.c", "#define H \"x.h\"\n#include \"c.h\"\n#include H\n"),
      ("c.h", "#define H \"y.h\"\n"), ("x.h", ""), ("y.h", "")]
  task := ⟨"t", [⟨"a.c"⟩], [], false, ∅, none⟩

/-- Without the condition on expressions a header may be missed, although nothing is told to be
incomplete: the include was resolved before its macro got the value that leads there. -/
theorem exists_missing_snapshot : ∃ a events t u, overtaken.analyse contentHasher ∅ = .ok a ∧
    a.state.sources.toList = [⟨"/p/a.c"⟩] ∧ a.isIncomplete = false ∧
    (∀ p, overtaken.files.isFile p → ∃ digest, contentHasher overtaken.files p = .ok digest) ∧
    Preprocesses overtaken.search overtaken.directives? (MacroTable.ofMap overtaken.task.macros)
      [.file ⟨"/p/a.c"⟩] events t ∧
    .entered ⟨"/p/y.h"⟩ u ∈ events ∧ a.state.snapshot? ⟨"/p/y.h"⟩ = none := by
  let a := (overtaken.analyse contentHasher ∅).toOption.get (by decide +kernel)
  let r := (run? overtaken.search overtaken.directives? 20
    (MacroTable.ofMap overtaken.task.macros) [.file ⟨"/p/a.c"⟩]).get (by decide +kernel)
  have hfacts : a.state.sources.toList = [⟨"/p/a.c"⟩] ∧ a.isIncomplete = false ∧
      (first? r.1 ⟨"/p/y.h"⟩).isSome ∧ a.state.snapshot? ⟨"/p/y.h"⟩ = none := by decide +kernel
  obtain ⟨hsource, hflag, hfirst, hnone⟩ := hfacts
  obtain ⟨u, hu⟩ := exists_entered hfirst
  exact ⟨a, r.1, r.2, u, Except.eq_ok_get _, hsource, hflag, fun p => exists_contentHasher,
    .get_run? _, hu, hnone⟩

end Build

end IncludeDeps
