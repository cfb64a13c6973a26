import IncludeDeps.Proofs.MacroTable

/-!
# A preprocessor

How a preprocessor goes through a source: a file that is entered gives its macros to one growing
table, and then its includes are taken in order, each under the table as it is at that moment.
Every file that is found is entered whenever it is met.

`Preprocesses` is a run to its end, so a derivation stands for a run that terminates.  Such a run
never enters a file within the same file (`Preprocesses.not_mem_entered`): with more macros the same
files are met again, so the second time would need a third one.
-/

namespace IncludeDeps

/-- What is left to do for a preprocessor: to enter a file, or to take an include of a file that it
is in. -/
inductive Preprocess.Item where
  /-- A file to enter. -/
  | file (p : Path)
  /-- An include of a file to take. -/
  | take (p : Path) (i : Include)

/-- What a preprocessor did, with the macros that were known then. -/
inductive Preprocess.Event where
  /-- A file was entered, and with its macros the table became this. -/
  | entered (p : Path) (t : MacroTable)
  /-- An include of a file was taken under this table. -/
  | taken (p : Path) (i : Include) (t : MacroTable)
deriving DecidableEq

open Preprocess

/-- A preprocessor that searches headers by `s` and reads files by `read` starts with the macros
`t`, does all that is listed, and ends with the macros `t'`. -/
inductive Preprocesses (s : Search) (read : Path → Option Directives) :
    MacroTable → List Item → List Event → MacroTable → Prop
  | done (t : MacroTable) : Preprocesses s read t [] [] t
  | enter {p : Path} {d : Directives} {t t' t'' : MacroTable} {rest : List Item}
    {events events' : List Event} : read p = some d →
    Preprocesses s read (t.defineAll d.macros) (d.includes.map (.take p)) events t' →
    Preprocesses s read t' rest events' t'' →
    Preprocesses s read t (.file p :: rest)
      (.entered p (t.defineAll d.macros) :: (events ++ events')) t''
  | take {p : Path} {i : Include} {t t' : MacroTable} {rest : List Item} {events : List Event} :
    Preprocesses s read t ((s.files t p i).map .file ++ rest) events t' →
    Preprocesses s read t (.take p i :: rest) (.taken p i t :: events) t'

/-- A run that does not go on for more than `fuel` steps in depth. -/
def Preprocess.run? (s : Search) (read : Path → Option Directives) :
    (fuel : Nat) → MacroTable → List Item → Option (List Event × MacroTable)
  | _, t, [] => some ([], t)
  | 0, _, _ :: _ => none
  | fuel + 1, t, .file p :: rest => do
    let d ← read p
    let (events, t') ← run? s read fuel (t.defineAll d.macros) (d.includes.map (.take p))
    let (events', t'') ← run? s read fuel t' rest
    return (.entered p (t.defineAll d.macros) :: (events ++ events'), t'')
  | fuel + 1, t, .take p i :: rest => do
    let (events, t') ← run? s read fuel t ((s.files t p i).map .file ++ rest)
    return (.taken p i t :: events, t')

namespace Preprocesses

variable {s : Search} {read : Path → Option Directives} {t t' u u' : MacroTable}
  {items items' : List Item} {events events' : List Event} {p : Path} {d : Directives}

lemma of_run? {fuel : Nat} (h : run? s read fuel t items = some (events, t')) :
    Preprocesses s read t items events t' := by
  induction fuel generalizing t items events t' with
  | zero =>
    cases items with
    | nil =>
      cases h
      exact .done t
    | cons item rest => cases h
  | succ fuel ih =>
    match items, h with
    | [], h =>
      cases h
      exact .done t
    | .file p :: rest, h =>
      simp only [run?, Option.bind_eq_bind, Option.bind_eq_some_iff, Prod.exists] at h
      obtain ⟨d, hd, events₁, t₁, hinner, events₂, t₂, hrest, heq⟩ := h
      cases heq
      exact .enter hd (ih hinner) (ih hrest)
    | .take p i :: rest, h =>
      simp only [run?, Option.bind_eq_bind, Option.bind_eq_some_iff, Prod.exists] at h
      obtain ⟨events₁, t₁, hrun, heq⟩ := h
      cases heq
      exact .take (ih hrun)

lemma get_run? {fuel : Nat} (h : (run? s read fuel t items).isSome) :
    Preprocesses s read t items ((run? s read fuel t items).get h).1
      ((run? s read fuel t items).get h).2 :=
  .of_run? (Option.some_get h).symm

/-! ## Tables grow -/

lemma le (h : Preprocesses s read t items events t') : t ≤ t' := by
  induction h with
  | done t => exact le_rfl
  | enter _ _ _ ih ih' => exact MacroTable.le_defineAll.trans (ih.trans ih')
  | take _ ih => exact ih

lemma le_of_entered (h : Preprocesses s read t items events t') (hp : .entered p u ∈ events) :
    t ≤ u := by
  induction h with
  | done t => cases hp
  | enter _ hinner _ ih ih' =>
    rcases List.mem_cons.1 hp with heq | hp
    · cases heq
      exact MacroTable.le_defineAll
    · rcases List.mem_append.1 hp with hp | hp
      · exact MacroTable.le_defineAll.trans (ih hp)
      · exact (MacroTable.le_defineAll.trans hinner.le).trans (ih' hp)
  | take _ ih =>
    rcases List.mem_cons.1 hp with heq | hp
    · cases heq
    · exact ih hp

/-! ## No file within itself -/

/-- Whatever is listed is done, with macros that are there and maybe more. -/
lemma exists_of_mem {item : Item} (h : Preprocesses s read t items events t')
    (hitem : item ∈ items) :
    ∃ u rest events', t ≤ u ∧ Preprocesses s read u (item :: rest) events' t' ∧
      events' ⊆ events := by
  -- what is done before the item only makes the table grow
  induction h with
  | done t => cases hitem
  | @enter p d t t₁ t' rest events₁ events₂ hread hinner hrest _ ih =>
    rcases List.mem_cons.1 hitem with rfl | hitem
    · exact ⟨t, rest, _, le_rfl, .enter hread hinner hrest, List.Subset.refl _⟩
    · obtain ⟨u, rest', events', hle, hrun, hsub⟩ := ih hitem
      refine ⟨u, rest', events', (MacroTable.le_defineAll.trans hinner.le).trans hle, hrun, ?_⟩
      exact List.Subset.trans hsub (by simp)
  | @take p i t t' rest events hrun ih =>
    rcases List.mem_cons.1 hitem with rfl | hitem
    · exact ⟨t, rest, _, le_rfl, .take hrun, List.Subset.refl _⟩
    · obtain ⟨u, rest', events', hle, hrun', hsub⟩ := ih (List.mem_append_right _ hitem)
      exact ⟨u, rest', events', hle, hrun', List.Subset.trans hsub (by simp)⟩

/-- A file that was entered on the way to the table `t` is entered as well by every run that has
`t` at its start and the same things to do. -/
lemma entered_of_le {v : MacroTable} (h : Preprocesses s read t items events t')
    (hp : .entered p v ∈ events) (hv : v ≤ u)
    (hitems : ∀ item ∈ items, ∃ u₁ rest events₁ u₁', u ≤ u₁ ∧
      Preprocesses s read u₁ (item :: rest) events₁ u₁' ∧ events₁ ⊆ events') :
    ∃ v', .entered p v' ∈ events' := by
  -- by the run that has entered the file: what is to be done in it is to be done in the other run
  -- too, with more macros, and more macros never make fewer files of an include
  induction h with
  | done t => cases hp
  | @enter q d t t₁ t' rest events₁ events₂ hread hinner hrest ih ih' =>
    rcases List.mem_cons.1 hp with heq | hp
    · cases heq
      obtain ⟨u₁, rest', events'', u₁', -, hrun, hsub⟩ := hitems _ List.mem_cons_self
      cases hrun with
      | enter _ _ _ => exact ⟨_, hsub List.mem_cons_self⟩
    · rcases List.mem_append.1 hp with hp | hp
      · obtain ⟨u₁, rest', events'', u₁', hle, hrun, hsub⟩ := hitems _ List.mem_cons_self
        cases hrun with
        | @enter _ d' _ t₂ _ _ events₃ events₄ hread' hinner' _ =>
          rw [hread] at hread'
          cases hread'
          refine ih hp fun item hitem => ?_
          obtain ⟨u₂, rest₂, events₅, hle₂, hrun₂, hsub₂⟩ := hinner'.exists_of_mem hitem
          refine ⟨u₂, rest₂, events₅, t₂, ?_, hrun₂, fun e he => hsub ?_⟩
          · exact hle.trans (MacroTable.le_defineAll.trans hle₂)
          · exact List.mem_cons_of_mem _ (List.mem_append_left _ (hsub₂ he))
      · exact ih' hp fun item hitem => hitems item (List.mem_cons_of_mem _ hitem)
  | @take q i t t' rest events hrun ih =>
    rcases List.mem_cons.1 hp with heq | hp
    · cases heq
    refine ih hp fun item hitem => ?_
    rcases List.mem_append.1 hitem with hitem | hitem
    · obtain ⟨f, hf, rfl⟩ := List.mem_map.1 hitem
      obtain ⟨u₁, rest', events'', u₁', hle, hrun', hsub⟩ := hitems _ List.mem_cons_self
      cases hrun' with
      | take hrun' =>
        have htable : t ≤ u₁ := (hrun.le_of_entered hp).trans (hv.trans hle)
        have hmem : Item.file f ∈ (s.files u₁ q i).map Item.file ++ rest' :=
          List.mem_append_left _ (List.mem_map_of_mem (Search.mem_files_mono htable hf))
        obtain ⟨u₂, rest₂, events₃, hle₂, hrun₂, hsub₂⟩ := hrun'.exists_of_mem hmem
        refine ⟨u₂, rest₂, events₃, u₁', hle.trans hle₂, hrun₂, fun e he => hsub ?_⟩
        exact List.mem_cons_of_mem _ (hsub₂ he)
    · exact hitems item (List.mem_cons_of_mem _ hitem)

/-- Behind every file that was entered there is a run through its includes. -/
lemma exists_inner (h : Preprocesses s read t items events t') (hp : .entered p u ∈ events) :
    ∃ d events' u', read p = some d ∧
      Preprocesses s read u (d.includes.map (.take p)) events' u' ∧
      events'.length < events.length := by
  induction h with
  | done t => cases hp
  | @enter q d t t₁ t' rest events₁ events₂ hread hinner hrest ih ih' =>
    rcases List.mem_cons.1 hp with heq | hp
    · cases heq
      refine ⟨d, events₁, t₁, hread, hinner, ?_⟩
      rw [List.length_cons, List.length_append]
      omega
    · rcases List.mem_append.1 hp with hp | hp
      · obtain ⟨d', events', u', hd, hrun, hlength⟩ := ih hp
        refine ⟨d', events', u', hd, hrun, ?_⟩
        rw [List.length_cons, List.length_append]
        omega
      · obtain ⟨d', events', u', hd, hrun, hlength⟩ := ih' hp
        refine ⟨d', events', u', hd, hrun, ?_⟩
        rw [List.length_cons, List.length_append]
        omega
  | take _ ih =>
    rcases List.mem_cons.1 hp with heq | hp
    · cases heq
    · obtain ⟨d', events', u', hd, hrun, hlength⟩ := ih hp
      exact ⟨d', events', u', hd, hrun, Nat.lt_succ_of_lt hlength⟩

/-- A run through the includes of a file does not enter the file.  Otherwise there would be a run
through them within each run through them, with no more events, and without end. -/
theorem not_mem_entered (h : Preprocesses s read t (d.includes.map (.take p)) events t')
    (hread : read p = some d) (u : MacroTable) : .entered p u ∉ events := by
  induction hn : events.length using Nat.strongRecOn generalizing t events t' u with
  | ind n ih =>
    intro hp
    obtain ⟨d', events', u', hd, hrun, hlength⟩ := h.exists_inner hp
    rw [hread] at hd
    cases hd
    -- the run within meets the same files again, and so the file itself
    obtain ⟨v, hv⟩ := h.entered_of_le hp le_rfl fun item hitem => by
      obtain ⟨u₁, rest, events₁, hle, hrun₁, hsub⟩ := hrun.exists_of_mem hitem
      exact ⟨u₁, rest, events₁, u', hle, hrun₁, hsub⟩
    exact ih events'.length (hn ▸ hlength) hrun v rfl hv

end Preprocesses

end IncludeDeps
