import IncludeDeps.Proofs.Workspace.Segments

/-!
# Normal forms of paths in a file tree

Normalisation does not look at the file tree: `a/..` cancels even if `a` is a link to a directory
elsewhere.  A path that leads to a file still does so in its normal form if every name that is cancelled
is that of a directory itself: `Workspace.find_normalize`.

* `Workspace.Finds` is following names to a file, as `Workspace.Leads` is to a directory;
* `Workspace.Leads.cut` and `Workspace.Finds.cut` cut names in two, with the links that are followed on
  either side; `Workspace.Leads.join` and `Workspace.Leads.finds` put them together again;
* `Workspace.Finds.filter` leaves out what is no step;
* `Workspace.Leads.dropLast` is a step up, and `Workspace.Finds.cancel` is normalisation step by step:
  what was kept leads to the directory where the rest is followed;
* `Workspace.IsStraight` is the condition on the path.
-/

namespace IncludeDeps.Workspace

open IncludeDeps.Path (Component)

variable {w : Workspace} {n m : Nat} {dir place place' : Place} {name : String}
  {names rest : List String} {x : Bytes} {p q : Path}

/-! ## Links that are followed on the way -/

/-- More links may be followed than there are. -/
lemma Leads.weaken (h : w.Leads n dir names place) (hm : n ≤ m) : w.Leads m dir names place := by
  induction h generalizing m with
  | stop => exact .stop
  | stay hname _ ih => exact .stay hname (ih hm)
  | up _ ih => exact .up (ih hm)
  | down hname hsize hat _ ih => exact .down hname hsize hat (ih hm)
  | link hname hsize hat _ ih =>
    obtain ⟨m, rfl⟩ := Nat.exists_eq_add_of_le' (Nat.one_le_of_lt hm)
    exact .link hname hsize hat (ih (Nat.le_of_succ_le_succ hm))

/-- Names and more names lead on, with the links on both parts of the way. -/
lemma Leads.join (h : w.Leads n dir names place) (h' : w.Leads m place rest place') :
    w.Leads (n + m) dir (names ++ rest) place' := by
  induction h with
  | stop => exact h'.weaken (Nat.le_add_left _ _)
  | stay hname _ ih => exact .stay hname (ih h')
  | up _ ih => exact .up (ih h')
  | down hname hsize hat _ ih => exact .down hname hsize hat (ih h')
  | link hname hsize hat _ ih =>
    have hlead := ih h'
    rw [List.append_assoc] at hlead
    rw [Nat.add_right_comm]
    exact .link hname hsize hat hlead

/-- A way that is cut in two has the links of its parts. -/
lemma Leads.cut {before : List String} (h : w.Leads n dir (before ++ rest) place) :
    ∃ a b mid, a + b ≤ n ∧ w.Leads a dir before mid ∧ w.Leads b mid rest place := by
  generalize hnames : before ++ rest = names at h
  induction h generalizing before with
  | stop =>
    obtain ⟨rfl, rfl⟩ := List.append_eq_nil_iff.1 hnames
    exact ⟨0, 0, _, Nat.zero_le _, .stop, .stop⟩
  | @stay n dir place name names hname h ih =>
    rcases List.append_eq_cons_iff.1 hnames with ⟨rfl, rfl⟩ | ⟨before, rfl, rfl⟩
    · exact ⟨0, n, dir, by omega, .stop, .stay hname h⟩
    · obtain ⟨a, b, mid, hle, h₁, h₂⟩ := ih rfl
      exact ⟨a, b, mid, hle, .stay hname h₁, h₂⟩
  | @up n dir place names h ih =>
    rcases List.append_eq_cons_iff.1 hnames with ⟨rfl, rfl⟩ | ⟨before, rfl, rfl⟩
    · exact ⟨0, n, dir, by omega, .stop, .up h⟩
    · obtain ⟨a, b, mid, hle, h₁, h₂⟩ := ih rfl
      exact ⟨a, b, mid, hle, .up h₁, h₂⟩
  | @down n dir place name names hname hsize hat h ih =>
    rcases List.append_eq_cons_iff.1 hnames with ⟨rfl, rfl⟩ | ⟨before, rfl, rfl⟩
    · exact ⟨0, n, dir, by omega, .stop, .down hname hsize hat h⟩
    · obtain ⟨a, b, mid, hle, h₁, h₂⟩ := ih rfl
      exact ⟨a, b, mid, hle, .down hname hsize hat h₁, h₂⟩
  | @link n dir place name target names hname hsize hat h ih =>
    rcases List.append_eq_cons_iff.1 hnames with ⟨rfl, rfl⟩ | ⟨before, rfl, rfl⟩
    · exact ⟨0, n + 1, dir, by omega, .stop, .link hname hsize hat h⟩
    · obtain ⟨a, b, mid, hle, h₁, h₂⟩ := ih (List.append_assoc (segments target) before rest)
      exact ⟨a + 1, b, mid, by omega, .link hname hsize hat h₁, h₂⟩

/-! ## Following names to a file -/

/-- The names lead from a directory to a file, and at most the given number of links is followed. -/
inductive Finds (w : Workspace) : Nat → Place → List String → Place → Bytes → Prop
  | stay {n : Nat} {dir place : Place} {name : String} {rest : List String} {x : Bytes} :
    name = "" ∨ name = "." → Finds w n dir rest place x → Finds w n dir (name :: rest) place x
  | up {n : Nat} {dir place : Place} {rest : List String} {x : Bytes} :
    Finds w n dir.dropLast rest place x → Finds w n dir (".." :: rest) place x
  | down {n : Nat} {dir place : Place} {name : String} {rest : List String} {x : Bytes} :
    IsName name → name.utf8ByteSize ≤ nameLimit → w.at? (dir ++ [name]) = some .directory →
    Finds w n (dir ++ [name]) rest place x → Finds w n dir (name :: rest) place x
  | link {n : Nat} {dir place : Place} {name target : String} {rest : List String} {x : Bytes} :
    IsName name → name.utf8ByteSize ≤ nameLimit → w.at? (dir ++ [name]) = some (.link target) →
    Finds w n (origin target dir) (segments target ++ rest) place x →
    Finds w (n + 1) dir (name :: rest) place x
  | file {n : Nat} {dir : Place} {name : String} {x : Bytes} :
    IsName name → name.utf8ByteSize ≤ nameLimit → w.at? (dir ++ [name]) = some (.file x) →
    Finds w n dir [name] (dir ++ [name]) x

lemma Finds.followLinks_eq (h : w.Finds n dir names place x) :
    followLinks w .follow n dir names = .ok (.entry place (.file x)) := by
  induction h with
  | stay hname _ ih => rw [followLinks_stay hname, ih]
  | up _ ih => rw [followLinks_up, ih]
  | down hname hsize hat _ ih => rw [followLinks_follow hname, if_neg (by omega), hat, ih]
  | link hname hsize hat _ ih =>
    rw [followLinks_follow hname, if_neg (by omega), hat]
    exact ih
  | file hname hsize hat =>
    rw [followLinks_follow hname, if_neg (by omega), hat]
    rfl

/-- Names that are followed to a file lead there, if those behind a link do. -/
lemma finds_of_links
    (hlink : ∀ dir names, onLink w .follow n dir names = .ok (.entry place (.file x)) →
      ∃ m, n = m + 1 ∧ w.Finds m dir names place x)
    (h : followLinks w .follow n dir names = .ok (.entry place (.file x))) :
    w.Finds n dir names place x := by
  -- as in `leads_of_links`, the induction stops at a link, and that of `finds_iff` goes on
  induction names generalizing dir with
  | nil =>
    rw [followLinks_eq] at h
    cases h
  | cons name rest ih =>
    by_cases hskip : name = "" ∨ name = "."
    · rw [followLinks_stay hskip] at h
      exact .stay hskip (ih h)
    by_cases hup : name = ".."
    · rw [hup, followLinks_up] at h
      exact hup ▸ .up (ih h)
    rw [not_or] at hskip
    have hname : IsName name := ⟨hskip.1, hskip.2, hup⟩
    rw [followLinks_follow hname] at h
    split at h
    · cases h
    next hsize =>
    have hsize := Nat.le_of_not_lt hsize
    split at h
    · split at h
      · cases h
      · cases h
    · next hat => exact .down hname hsize hat (ih h)
    · next content hat =>
      split at h
      · next hrest =>
        subst hrest
        cases h
        exact .file hname hsize hat
      · cases h
    · next target hat =>
      obtain ⟨m, rfl, hfinds⟩ := hlink _ _ h
      exact .link hname hsize hat hfinds

/-- Names lead to a file if they are followed there: the same as for directories, but that a file
can be only at the end of the way. -/
theorem finds_iff : w.Finds n dir names place x ↔
    followLinks w .follow n dir names = .ok (.entry place (.file x)) := by
  refine ⟨Finds.followLinks_eq, fun h => ?_⟩
  induction n generalizing dir names with
  | zero => exact finds_of_links (fun _ _ hlink => nomatch hlink) h
  | succ n ih => exact finds_of_links (fun _ _ hlink => ⟨n, rfl, ih hlink⟩) h

lemma Finds.weaken (h : w.Finds n dir names place x) (hm : n ≤ m) : w.Finds m dir names place x := by
  induction h generalizing m with
  | stay hname _ ih => exact .stay hname (ih hm)
  | up _ ih => exact .up (ih hm)
  | down hname hsize hat _ ih => exact .down hname hsize hat (ih hm)
  | link hname hsize hat _ ih =>
    obtain ⟨m, rfl⟩ := Nat.exists_eq_add_of_le' (Nat.one_le_of_lt hm)
    exact .link hname hsize hat (ih (Nat.le_of_succ_le_succ hm))
  | file hname hsize hat => exact .file hname hsize hat

/-- From the directory to which names lead, more names lead to a file. -/
lemma Leads.finds (h : w.Leads n dir names place) (h' : w.Finds m place rest place' x) :
    w.Finds (n + m) dir (names ++ rest) place' x := by
  induction h with
  | stop => exact h'.weaken (Nat.le_add_left _ _)
  | stay hname _ ih => exact .stay hname (ih h')
  | up _ ih => exact .up (ih h')
  | down hname hsize hat _ ih => exact .down hname hsize hat (ih h')
  | link hname hsize hat _ ih =>
    have hfinds := ih h'
    rw [List.append_assoc] at hfinds
    rw [Nat.add_right_comm]
    exact .link hname hsize hat hfinds

/-- A way to a file that is cut in two leads over a directory. -/
lemma Finds.cut {before : List String} (h : w.Finds n dir (before ++ rest) place x)
    (hrest : rest ≠ []) :
    ∃ a b mid, a + b ≤ n ∧ w.Leads a dir before mid ∧ w.Finds b mid rest place x := by
  generalize hnames : before ++ rest = names at h
  induction h generalizing before with
  | @stay n dir place name names x hname h ih =>
    rcases List.append_eq_cons_iff.1 hnames with ⟨rfl, rfl⟩ | ⟨before, rfl, rfl⟩
    · exact ⟨0, n, dir, by omega, .stop, .stay hname h⟩
    · obtain ⟨a, b, mid, hle, h₁, h₂⟩ := ih rfl
      exact ⟨a, b, mid, hle, .stay hname h₁, h₂⟩
  | @up n dir place names x h ih =>
    rcases List.append_eq_cons_iff.1 hnames with ⟨rfl, rfl⟩ | ⟨before, rfl, rfl⟩
    · exact ⟨0, n, dir, by omega, .stop, .up h⟩
    · obtain ⟨a, b, mid, hle, h₁, h₂⟩ := ih rfl
      exact ⟨a, b, mid, hle, .up h₁, h₂⟩
  | @down n dir place name names x hname hsize hat h ih =>
    rcases List.append_eq_cons_iff.1 hnames with ⟨rfl, rfl⟩ | ⟨before, rfl, rfl⟩
    · exact ⟨0, n, dir, by omega, .stop, .down hname hsize hat h⟩
    · obtain ⟨a, b, mid, hle, h₁, h₂⟩ := ih rfl
      exact ⟨a, b, mid, hle, .down hname hsize hat h₁, h₂⟩
  | @link n dir place name target names x hname hsize hat h ih =>
    rcases List.append_eq_cons_iff.1 hnames with ⟨rfl, rfl⟩ | ⟨before, rfl, rfl⟩
    · exact ⟨0, n + 1, dir, by omega, .stop, .link hname hsize hat h⟩
    · obtain ⟨a, b, mid, hle, h₁, h₂⟩ := ih (List.append_assoc (segments target) before rest)
      exact ⟨a + 1, b, mid, by omega, .link hname hsize hat h₁, h₂⟩
  | @file n dir name x hname hsize hat =>
    rcases List.append_eq_cons_iff.1 hnames with ⟨rfl, rfl⟩ | ⟨before, rfl, hnil⟩
    · exact ⟨0, n, dir, by omega, .stop, .file hname hsize hat⟩
    · exact absurd (List.append_eq_nil_iff.1 hnil.symm).2 hrest

/-- What is no step may be left out on the way to a file: the empty names between slashes, and the
dots. -/
lemma Finds.filter (h : w.Finds n dir names place x) :
    w.Finds n dir (names.filter fun s => !stays s) place x := by
  -- behind a link there are the segments of its target, which stay as they are
  have hfilter : ∀ before rest, names = before ++ rest →
      w.Finds n dir (before ++ rest.filter fun s => !stays s) place x := by
    induction h with
    | @stay n dir place name names x hname h ih =>
      intro before rest hnames
      rcases List.append_eq_cons_iff.1 hnames.symm with ⟨rfl, rfl⟩ | ⟨before, rfl, rfl⟩
      · rw [List.filter_cons, stays_iff.2 hname]
        exact ih [] names rfl
      · exact .stay hname (ih before rest rfl)
    | @up n dir place names x h ih =>
      intro before rest hnames
      rcases List.append_eq_cons_iff.1 hnames.symm with ⟨rfl, rfl⟩ | ⟨before, rfl, rfl⟩
      · exact .up (ih [] names rfl)
      · exact .up (ih before rest rfl)
    | @down n dir place name names x hname hsize hat h ih =>
      intro before rest hnames
      rcases List.append_eq_cons_iff.1 hnames.symm with ⟨rfl, rfl⟩ | ⟨before, rfl, rfl⟩
      · rw [List.nil_append, List.filter_cons_of_pos (by simp [stays, hname.1, hname.2.1])]
        exact .down hname hsize hat (ih [] names rfl)
      · exact .down hname hsize hat (ih before rest rfl)
    | @link n dir place name target names x hname hsize hat h ih =>
      intro before rest hnames
      rcases List.append_eq_cons_iff.1 hnames.symm with ⟨rfl, rfl⟩ | ⟨before, rfl, rfl⟩
      · rw [List.nil_append, List.filter_cons_of_pos (by simp [stays, hname.1, hname.2.1])]
        exact .link hname hsize hat (ih (segments target) names rfl)
      · have hfinds := ih (segments target ++ before) rest (List.append_assoc _ _ _).symm
        rw [List.append_assoc] at hfinds
        exact .link hname hsize hat hfinds
    | @file n dir name x hname hsize hat =>
      intro before rest hnames
      rcases List.append_eq_cons_iff.1 hnames.symm with ⟨rfl, rfl⟩ | ⟨before, rfl, hnil⟩
      · rw [List.nil_append, List.filter_cons_of_pos (by simp [stays, hname.1, hname.2.1])]
        exact .file hname hsize hat
      · obtain ⟨rfl, rfl⟩ := List.append_eq_nil_iff.1 hnil.symm
        exact .file hname hsize hat
  exact hfilter [] names rfl

/-- A step up on the way to a file. -/
lemma Finds.of_up (h : w.Finds n dir (".." :: rest) place x) : w.Finds n dir.dropLast rest place x := by
  generalize hnames : ".." :: rest = names at h
  cases h with
  | stay hname _ =>
    rw [← (List.cons.inj hnames).1] at hname
    exact absurd hname (by decide)
  | up h => exact (List.cons.inj hnames).2 ▸ h
  | down hname _ _ _ => exact absurd (List.cons.inj hnames).1.symm hname.2.2
  | link hname _ _ _ => exact absurd (List.cons.inj hnames).1.symm hname.2.2
  | file hname _ _ => exact absurd (List.cons.inj hnames).1.symm hname.2.2

/-- A name leads to a directory of that name, unless it is that of a link. -/
lemma Leads.of_name (h : w.Leads n dir [name] place) (hname : IsName name) :
    place = dir ++ [name] ∧ w.at? place = some .directory ∨
      ∃ target, name.utf8ByteSize ≤ nameLimit ∧ w.at? (dir ++ [name]) = some (.link target) := by
  generalize hnames : [name] = names at h
  cases h with
  | stop => cases hnames
  | stay hstay _ =>
    rw [← (List.cons.inj hnames).1] at hstay
    exact absurd hstay (not_or.2 ⟨hname.1, hname.2.1⟩)
  | up _ => exact absurd (List.cons.inj hnames).1 hname.2.2
  | down _ _ hat hstop =>
    obtain ⟨rfl, rfl⟩ := List.cons.inj hnames
    cases hstop
    exact .inl ⟨rfl, hat⟩
  | @link _ _ _ _ target _ _ hsize hat _ =>
    obtain ⟨rfl, rfl⟩ := List.cons.inj hnames
    exact .inr ⟨target, hsize, hat⟩

/-- A slash at the end of the way leads no further. -/
lemma Leads.of_empty (h : w.Leads n dir [""] place) : place = dir := by
  generalize hnames : [""] = names at h
  cases h with
  | stop => cases hnames
  | stay _ hstop =>
    obtain ⟨-, rfl⟩ := List.cons.inj hnames
    cases hstop
    rfl
  | up _ => exact absurd (List.cons.inj hnames).1 (by decide)
  | down hname _ _ _ => exact absurd (List.cons.inj hnames).1.symm hname.1
  | link hname _ _ _ => exact absurd (List.cons.inj hnames).1.symm hname.1

/-! ## Names of entries -/

/-- A name that an entry of a file system can have. -/
structure IsEntryName (name : String) : Prop extends IsFileName name where
  nul : '\x00' ∉ name.toList

instance : Decidable (IsEntryName name) :=
  decidable_of_iff ((name ≠ "" ∧ name ≠ "." ∧ name ≠ "..") ∧ '/' ∉ name.toList ∧ '\x00' ∉ name.toList)
    ⟨fun h => ⟨⟨h.1, h.2.1⟩, h.2.2⟩, fun h => ⟨h.isName, h.slash, h.nul⟩⟩

/-- A component is a step up, or the name of an entry. -/
lemma isStep_iff {c : Component} : c.IsStep ↔ c = .up ∨ ∃ s, c = .name s ∧ IsFileName s := by
  constructor
  · rintro ⟨hsegment, hslash⟩
    cases c with
    | root => exact absurd (by decide) hslash
    | here => cases hsegment
    | up => exact .inl rfl
    | name s =>
      refine .inr ⟨s, rfl, ⟨?_, ?_, ?_⟩, hslash⟩
      · rintro rfl
        cases hsegment
      · rintro rfl
        cases hsegment
      · rintro rfl
        cases hsegment
  · rintro (rfl | ⟨s, rfl, ⟨hempty, hdot, hup⟩, hslash⟩)
    · exact ⟨rfl, by decide⟩
    · refine ⟨?_, hslash⟩
      have hnil : s.toList ≠ [] := fun h => hempty (String.toList_inj.1 h)
      have hone : s.toList ≠ ['.'] := fun h => hdot (String.toList_inj.1 h)
      have htwo : s.toList ≠ ['.', '.'] := fun h => hup (String.toList_inj.1 h)
      simp [Component.ofSegment?, Component.text]

/-! ## Canonical paths -/

lemma checkText_eq_ok_iff : checkText p = .ok () ↔ '\x00' ∉ p.text.toList ∧ p.byteSize < pathLimit := by
  unfold checkText
  split
  · next hnul => simp [hnul]
  split
  · next hlong => simp [Nat.not_lt.2 hlong]
  · next hnul hlong => simp [hnul, Nat.lt_of_not_le hlong]

lemma isAbsolute_of_components {cs : List Component} (h : p.components = .root :: cs) :
    p.isAbsolute ∧ p.steps = cs := by
  have hcomponents : p.split.1.component?.toList ++ p.steps = .root :: cs := h
  rw [Path.isAbsolute]
  cases hlead : p.split.1 with
  | root =>
    rw [hlead] at hcomponents
    exact ⟨rfl, (List.cons.inj hcomponents).2⟩
  | here =>
    rw [hlead] at hcomponents
    cases (List.cons.inj hcomponents).1
  | bare =>
    rw [hlead] at hcomponents
    have hroot : Component.root ∈ p.steps := by
      rw [show p.steps = .root :: cs from hcomponents]
      exact List.mem_cons_self
    exact absurd (by decide) (isStep_of_mem_steps hroot).2

lemma areCanonical_names (hnames : ∀ s ∈ names, IsFileName s) :
    Component.AreCanonical (.root :: names.map .name) := by
  refine ⟨names.map .name, fun c hc => ?_, .inr rfl⟩
  obtain ⟨s, hs, rfl⟩ := List.mem_map.1 hc
  exact isStep_iff.2 (.inr ⟨s, rfl, hnames s hs⟩)

/-- A canonical path is followed by its names from the root. -/
lemma resolve_ofComponents (hnames : ∀ s ∈ names, IsEntryName s) (hne : names ≠ [])
    (hcost : cost names < pathLimit) (last : LastStep) :
    w.resolve last (Path.ofComponents (.root :: names.map .name)) =
      followLinks w last linkLimit [] names := by
  have hfiles : ∀ s ∈ names, IsFileName s := fun s hs => (hnames s hs).toIsFileName
  have hsegments := segments_ofComponents hfiles hne
  have hcomponents := Path.components_ofComponents (areCanonical_names hfiles)
  generalize Path.ofComponents (.root :: names.map .name) = q at *
  have hempty : q.text ≠ "" := by
    intro hempty
    rw [hempty] at hsegments
    exact hne (List.cons.inj hsegments).2.symm
  have hcheck : checkText q = .ok () := by
    refine checkText_eq_ok_iff.2 ⟨?_, ?_⟩
    · rw [mem_toList_iff (by decide), hsegments]
      rintro ⟨s, hs, hnul⟩
      rcases List.mem_cons.1 hs with rfl | hs
      · cases hnul
      · exact (hnames s hs).nul hnul
    · have hbytes := cost_segments q.text
      have hzero : "".utf8ByteSize = 0 := rfl
      rw [hsegments, cost_cons] at hbytes
      rw [Path.byteSize]
      omega
  have horigin : origin q.text w.cwd = [] := by
    rw [origin, if_pos (isAbsolute_iff.1 (isAbsolute_of_components hcomponents).1)]
  rw [Workspace.resolve, start_eq hempty, hcheck, horigin, if_pos (at?_root w), hsegments]
  exact followLinks_stay (.inl rfl)

/-! ## Cancelling names -/

/-- Whether a path is that of a symbolic link. -/
def isLink (w : Workspace) (p : Path) : Bool :=
  match w.resolve .keepLink p with
  | .ok (.entry _ (.link _)) => true
  | _ => false

/-- No step up in a path takes a link away.  Otherwise the normal form of the path may lead to
another place than the path. -/
def SparesLinks (w : Workspace) (p : Path) : Prop :=
  ∀ before after, p.components = before ++ .up :: after →
    w.isLink (Path.ofComponents before).normalize = false

instance : Decidable (w.SparesLinks p) :=
  decidable_of_iff (∀ i < p.components.length, p.components[i]? = some .up →
      w.isLink (Path.ofComponents (p.components.take i)).normalize = false) <| by
    constructor
    · intro h before after heq
      have hlink := h before.length (by simp [heq]) (by simp [heq])
      rwa [heq, List.take_left] at hlink
    · intro h i hi hup
      obtain ⟨_, hup⟩ := List.getElem?_eq_some_iff.1 hup
      refine h _ (p.components.drop (i + 1)) ?_
      rw [← hup, ← List.drop_eq_getElem_cons, List.take_append_drop]

/-- Normalising a path takes no link away, and does not make it too long when it is seen from the
root. -/
def IsStraight (w : Workspace) (p : Path) : Prop :=
  ∀ q ∈ (w.absolute p).toOption, w.SparesLinks q ∧ (p.isAbsolute = false → q.byteSize < pathLimit)

instance : Decidable (w.IsStraight p) :=
  inferInstanceAs (Decidable (∀ q ∈ (w.absolute p).toOption,
    w.SparesLinks q ∧ (p.isAbsolute = false → q.byteSize < pathLimit)))

lemma isLink_ofComponents {target : String} (hnames : ∀ s ∈ names ++ [name], IsEntryName s)
    (hcost : cost (names ++ [name]) < pathLimit) (hlead : w.Leads linkLimit [] names dir)
    (hsize : name.utf8ByteSize ≤ nameLimit) (hat : w.at? (dir ++ [name]) = some (.link target)) :
    w.isLink (Path.ofComponents (.root :: (names ++ [name]).map .name)) := by
  have hname : IsName name := (hnames name (by simp)).isName
  have hne : ∃ s ∈ [name], s ≠ "" := ⟨name, List.mem_singleton_self _, hname.1⟩
  obtain ⟨m, hm⟩ := hlead.append .keepLink hne
  rw [isLink, resolve_ofComponents hnames (by simp) hcost, hm, followLinks_eq, follow]
  simp [hname.1, hname.2.1, hname.2.2, Nat.not_lt.2 hsize, hat]

/-- Canonical names that lead to a directory lead to the one above it if the last name is left out,
unless this is that of a link. -/
lemma Leads.dropLast (h : w.Leads n [] (names ++ [name]) dir) (hn : n ≤ linkLimit)
    (hnames : ∀ s ∈ names ++ [name], IsEntryName s) (hcost : cost (names ++ [name]) < pathLimit)
    (hlink : w.isLink (Path.ofComponents (.root :: (names ++ [name]).map .name)) = false) :
    w.Leads n [] names dir.dropLast := by
  obtain ⟨a, b, mid, hle, hbefore, hlast⟩ := h.cut
  have hbefore := hbefore.weaken (Nat.le_of_add_right_le hle)
  rcases hlast.of_name (hnames name (by simp)).isName with ⟨rfl, -⟩ | ⟨target, hsize, hat⟩
  · rwa [List.dropLast_concat]
  · have htrue := isLink_ofComponents hnames hcost (hbefore.weaken hn) hsize hat
    rw [hlink] at htrue
    cases htrue

/-- What is kept of a path that is normalised, as long as it has a start. -/
def kept (names : List String) : List Component := names.map .name ++ [.root]

lemma cancel_name (names : List String) (name : String) :
    Path.cancel (kept names) (.name name) = kept (name :: names) := by
  cases names with
  | nil => rfl
  | cons s rest => rfl

lemma reverse_kept (names : List String) :
    (kept names).reverse = .root :: names.reverse.map .name := by
  rw [kept, List.reverse_append, ← List.map_reverse]
  rfl

/-- Cancelling keeps the way to a file, if it takes no link away: what was kept leads to the
directory from which the rest is followed.  The names that were kept are in reverse, as `Path.cancel`
has them.  Links before a step up are the reason for the condition: the directory above the target of
a link is not the one in which the link lies. -/
theorem Finds.cancel {cs : List Component} {a b : Nat} (h : w.Finds b dir (cs.map Component.text) place x)
    (hlead : w.Leads a [] names.reverse dir) (hlinks : a + b ≤ linkLimit)
    (hsteps : ∀ c ∈ cs, c.IsStep ∧ '\x00' ∉ c.text.toList) (hnames : ∀ s ∈ names, IsEntryName s)
    (hcost : cost names + cost (cs.map Component.text) < pathLimit)
    (hspare : ∀ before after, cs = before ++ .up :: after →
      w.isLink (Path.ofComponents (before.foldl Path.cancel (kept names)).reverse) = false) :
    ∃ names', cs.foldl Path.cancel (kept names) = kept names' ∧ (∀ s ∈ names', IsEntryName s) ∧
      cost names' < pathLimit ∧ w.Finds linkLimit [] names'.reverse place x := by
  induction cs generalizing names dir a b with
  | nil => cases h
  | cons c rest ih =>
    have hrest : ∀ c ∈ rest, c.IsStep ∧ '\x00' ∉ c.text.toList := fun c hc =>
      hsteps c (List.mem_cons_of_mem _ hc)
    have hspare' : ∀ before after, rest = before ++ .up :: after → w.isLink
        (Path.ofComponents (before.foldl Path.cancel (Path.cancel (kept names) c)).reverse) = false :=
      fun before after heq => hspare (c :: before) after (by rw [heq]; rfl)
    rw [List.map_cons] at h hcost
    rw [cost_cons] at hcost
    have hcost' : cost names + cost (rest.map Component.text) < pathLimit := by omega
    rcases isStep_iff.1 (hsteps c List.mem_cons_self).1 with rfl | ⟨s, rfl, hs⟩
    · -- a step up takes the last name away, if there is one
      have hup : w.Finds b dir.dropLast (rest.map Component.text) place x := h.of_up
      cases names with
      | nil =>
        have hroot : dir = [] := by
          cases hlead
          rfl
        rw [hroot] at hup
        exact ih hup .stop hlinks hrest hnames hcost' hspare'
      | cons s names =>
        have hnames' : ∀ s ∈ names, IsEntryName s := fun t ht => hnames t (List.mem_cons_of_mem _ ht)
        have hentries : ∀ t ∈ names.reverse ++ [s], IsEntryName t := fun t ht =>
          hnames t (by simpa [or_comm] using ht)
        have hbound : cost (names.reverse ++ [s]) < pathLimit := by
          rw [← List.reverse_cons, cost_reverse]
          exact Nat.lt_of_le_of_lt (Nat.le_add_right _ _) hcost'
        have hlink := hspare [] rest rfl
        rw [List.foldl_nil, reverse_kept, List.reverse_cons] at hlink
        rw [List.reverse_cons] at hlead
        have habove := hlead.dropLast (by omega) hentries hbound hlink
        rw [cost_cons] at hcost'
        exact ih hup habove hlinks hrest hnames' (by omega) hspare'
    · -- a name is kept
      have hname : IsEntryName s := ⟨hs, (hsteps (.name s) List.mem_cons_self).2⟩
      have hnames' : ∀ t ∈ s :: names, IsEntryName t := by
        intro t ht
        rcases List.mem_cons.1 ht with rfl | ht
        · exact hname
        · exact hnames t ht
      have hbound : cost (s :: names) + cost (rest.map Component.text) < pathLimit := by
        have htext : (Component.name s).text.utf8ByteSize = s.utf8ByteSize := rfl
        rw [cost_cons]
        omega
      rw [cancel_name] at hspare'
      rw [List.foldl_cons, cancel_name]
      by_cases hnil : rest = []
      · -- the last name, which may be a link to the file
        subst hnil
        have hfinds := hlead.finds h
        rw [List.map_nil, ← List.reverse_cons] at hfinds
        exact ⟨s :: names, rfl, hnames', by omega, hfinds.weaken hlinks⟩
      · have hne : rest.map Component.text ≠ [] := by simpa using hnil
        have hcons : w.Finds b dir ([s] ++ rest.map Component.text) place x := h
        -- it leads to a directory, over links or not, and the rest is followed from there
        obtain ⟨b₁, b₂, mid, hle, hone, hfinds⟩ := hcons.cut hne
        have hjoin := hlead.join hone
        rw [← List.reverse_cons] at hjoin
        exact ih hfinds hjoin (by omega) hrest hnames' hbound hspare'

/-! ## Normal forms -/

/-- The steps of a path can be the names of entries, if the path can be followed. -/
lemma entrySteps (hnul : '\x00' ∉ p.text.toList) : ∀ c ∈ p.steps, c.IsStep ∧ '\x00' ∉ c.text.toList := by
  intro c hc
  refine ⟨isStep_of_mem_steps hc, fun hmem => hnul ?_⟩
  have htext : c.text ∈ (segments p.text).filter fun s => !stays s := by
    rw [filter_segments]
    exact List.mem_map_of_mem hc
  exact (mem_toList_iff (by decide) _).2 ⟨c.text, (List.mem_filter.1 htext).1, hmem⟩

/-- The steps of a path from the root have no more bytes than the path. -/
lemma cost_steps (h : p.isAbsolute) : cost (p.steps.map Component.text) ≤ p.byteSize := by
  obtain ⟨rest, hrest⟩ := List.head?_eq_some_iff.1 (isAbsolute_iff.1 h)
  have hsegments : segments p.text = "" :: (rest.splitOn '/').map String.ofList := by
    rw [segments, hrest, List.splitOn_cons_eq_if_modifyHead]
    rfl
  have hbytes := cost_segments p.text
  have hfilter := filter_segments p
  rw [hsegments, cost_cons] at hbytes
  rw [hsegments, List.filter_cons_of_neg (by decide)] at hfilter
  have hle := cost_le_of_sublist
    (List.filter_sublist (p := fun s => !stays s) (l := (rest.splitOn '/').map String.ofList))
  rw [hfilter] at hle
  have hzero : "".utf8ByteSize = 0 := rfl
  rw [Path.byteSize]
  omega

/-- The normal form of a path from the root leads to the file to which its steps lead. -/
lemma Finds.find_normalize {cs : List Component} (h : w.Finds linkLimit [] (cs.map Component.text) place x)
    (hq : q.components = .root :: cs) (hsteps : ∀ c ∈ cs, c.IsStep ∧ '\x00' ∉ c.text.toList)
    (hcost : cost (cs.map Component.text) < pathLimit) (hspare : w.SparesLinks q) :
    w.find q.normalize = .ok (place, .file x) := by
  -- what was kept before a step up is itself the normal form of the path up to there
  have hspare' : ∀ before after, cs = before ++ .up :: after →
      w.isLink (Path.ofComponents (before.foldl Path.cancel (kept [])).reverse) = false := by
    intro before after heq
    have hbefore : ∀ c ∈ before, c.IsStep := fun c hc => (hsteps c (by simp [heq, hc])).1
    have hlink := hspare (.root :: before) after (by rw [hq, heq]; rfl)
    rw [Path.normalize, Path.components_ofComponents ⟨before, hbefore, .inr rfl⟩] at hlink
    exact hlink
  have hroot : w.Leads 0 [] ([] : List String).reverse [] := .stop
  have hbound : cost [] + cost (cs.map Component.text) < pathLimit := by
    rw [show cost [] = 0 from rfl, Nat.zero_add]
    exact hcost
  obtain ⟨names, hnames, hentries, hshort, hfinds⟩ :=
    h.cancel hroot (Nat.le_of_eq (Nat.zero_add _)) hsteps (List.forall_mem_nil _) hbound hspare'
  have hnormal : q.normalize = Path.ofComponents (.root :: names.reverse.map .name) := by
    rw [Path.normalize, hq, ← reverse_kept, ← hnames]
    rfl
  have hne : names.reverse ≠ [] := by
    intro hnil
    rw [hnil] at hfinds
    cases hfinds
  have hreverse : ∀ s ∈ names.reverse, IsEntryName s := fun s hs => hentries s (List.mem_reverse.1 hs)
  rw [find, hnormal, resolve_ofComponents hreverse hne (by rw [cost_reverse]; exact hshort),
    hfinds.followLinks_eq]
  rfl

/-- The place of a directory leads there. -/
lemma leads_place (hplace : ∀ s ∈ place, IsEntryName s ∧ s.utf8ByteSize ≤ nameLimit)
    (h : w.at? place = some .directory) : w.Leads 0 [] place place := by
  induction place using List.reverseRecOn with
  | nil => exact .stop
  | append_singleton dir name ih =>
    obtain ⟨hname, hsize⟩ := hplace name (by simp)
    have hdir := ih (fun s hs => hplace s (by simp [hs])) (at?_of_append h)
    exact hdir.join (m := 0) (.down hname.isName hsize h .stop)

/-- Every entry has a name that an entry of a file system can have. -/
def IsOrdinary (w : Workspace) : Prop :=
  ∀ e ∈ w.entries.toList, ∀ s ∈ e.1, IsEntryName s ∧ s.utf8ByteSize ≤ nameLimit

instance : Decidable w.IsOrdinary :=
  inferInstanceAs (Decidable (∀ e ∈ w.entries.toList, ∀ s ∈ e.1,
    IsEntryName s ∧ s.utf8ByteSize ≤ nameLimit))

lemma IsOrdinary.of_at? (hw : w.IsOrdinary) {entry : Entry} (h : w.at? place = some entry) :
    ∀ s ∈ place, IsEntryName s ∧ s.utf8ByteSize ≤ nameLimit := by
  intro s hs
  rw [at?_eq_get? (List.ne_nil_of_mem hs)] at h
  exact hw _ (OrderedMap.mem_of_get?_eq_some h) s hs

/-- The segments of the path of a file lead there from where the path is followed. -/
lemma finds_of_find (h : w.find p = .ok (place, .file x)) :
    p.text ≠ "" ∧ checkText p = .ok () ∧ w.at? (origin p.text w.cwd) = some .directory ∧
      w.Finds linkLimit (origin p.text w.cwd) (segments p.text) place x := by
  rw [find] at h
  obtain ⟨found, hresolve, h⟩ := Except.exists_of_bind h
  obtain ⟨dir, hdir, hfollow⟩ := exists_start_of_resolve hresolve
  obtain ⟨hp, hcheck, rfl, hstart⟩ := checkText_of_start hdir
  refine ⟨hp, hcheck, hstart, finds_iff.2 ?_⟩
  rw [hfollow]
  cases found with
  | vacancy dir name => cases h
  | entry place entry =>
    cases h
    rfl

/-- A file that is found is found under the normal form of its absolute path too, if normalising
takes no link away.

The absolute path begins with the place of the current directory, so it is longer than the path
itself, and might be too long where that is not; this is part of `Workspace.IsStraight`.  What the
links on the way lead to does not matter, as long as no step up follows. -/
theorem find_normalize (hw : w.IsOrdinary) (h : w.find p = .ok (place, .file x))
    (hstraight : w.IsStraight p) :
    ∃ q, w.absolute p = .ok q ∧ w.find q.normalize = .ok (place, .file x) := by
  obtain ⟨hempty, hcheck, hstart, hfinds⟩ := finds_of_find h
  obtain ⟨hnul, hbytes⟩ := checkText_eq_ok_iff.1 hcheck
  have hfilter := hfinds.filter
  rw [filter_segments] at hfilter
  have hsteps := entrySteps hnul
  by_cases habsolute : p.isAbsolute = true
  · obtain ⟨q, hq⟩ := exists_absolute? hempty ⟨""⟩
    have hw' : w.absolute p = .ok q := by
      rw [absolute, if_neg hempty, if_pos habsolute, hq]
      rfl
    have hspare := (hstraight q (by rw [hw']; rfl)).1
    have hcomponents := components_absolute? hq
    rw [if_pos habsolute] at hcomponents
    rw [origin, if_pos (isAbsolute_iff.1 habsolute)] at hfilter
    exact ⟨q, hw', hfilter.find_normalize hcomponents hsteps
      (Nat.lt_of_le_of_lt (cost_steps habsolute) hbytes) hspare⟩
  · have horigin : origin p.text w.cwd = w.cwd := if_neg fun h => habsolute (isAbsolute_iff.2 h)
    rw [horigin] at hfilter hstart
    have hcwd := hw.of_at? hstart
    have hfiles : ∀ s ∈ w.cwd, IsFileName s := fun s hs => (hcwd s hs).1.toIsFileName
    obtain ⟨q, hq⟩ := exists_absolute? hempty (Path.ofComponents (.root :: w.cwd.map .name))
    have hw' : w.absolute p = .ok q := by
      rw [absolute, if_neg hempty, if_neg habsolute, currentDirectory, if_pos hstart]
      simp only [bind, Except.bind, hq, pure, Except.pure]
      rfl
    obtain ⟨hspare, hshort⟩ := hstraight q (by rw [hw']; rfl)
    have hcomponents := components_absolute? hq
    rw [if_neg habsolute, Path.components_ofComponents (areCanonical_names hfiles),
      List.cons_append] at hcomponents
    -- a relative path is followed from the current directory, whose place leads there without links
    have htexts : (w.cwd.map Component.name ++ p.steps).map Component.text =
        w.cwd ++ p.steps.map Component.text := by
      rw [List.map_append, List.map_map]
      congr 1
      exact List.map_id _
    obtain ⟨hroot, hall⟩ := isAbsolute_of_components hcomponents
    have hcost := cost_steps hroot
    rw [hall] at hcost
    refine ⟨q, hw', Finds.find_normalize ?_ hcomponents ?_
      (Nat.lt_of_le_of_lt hcost (hshort (Bool.eq_false_iff.2 habsolute))) hspare⟩
    · rw [htexts]
      exact ((leads_place hcwd hstart).finds hfilter).weaken (Nat.le_of_eq (Nat.zero_add _))
    · intro c hc
      rcases List.mem_append.1 hc with hc | hc
      · obtain ⟨s, hs, rfl⟩ := List.mem_map.1 hc
        exact ⟨isStep_iff.2 (.inr ⟨s, rfl, hfiles s hs⟩), (hcwd s hs).1.nul⟩
      · exact hsteps c hc

end IncludeDeps.Workspace
