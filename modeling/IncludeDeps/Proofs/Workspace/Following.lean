import IncludeDeps.Proofs.Path.Canonical
import IncludeDeps.Proofs.Workspace.Places
import Mathlib.Data.List.TakeWhile

/-!
# Following a path

To follow a path to a name in a folder is to follow the folder, and then to look at the name.

* `Workspace.Leads` is following names, links included, as a relation that depends on directories and
  links only (`Workspace.Leads.mono`);
* `Workspace.Leads.append` and `Workspace.exists_leads` cut `Workspace.followLinks` before the last
  name;
* `Workspace.find_eq_iff` is about paths that lead to a directory (`Workspace.Arrives`);
* `Workspace.Ends.resolve` and `Workspace.Ends.locate` are about paths that end with a name
  (`Workspace.Ends`), among them those of the names in a folder (`Workspace.ends_inside_iff`).
-/

namespace IncludeDeps.Workspace

variable {w w' : Workspace} {last : LastStep} {n : Nat} {dir place place' : Place} {name : String}
  {names rest : List String} {found : Found}

/-- A segment of a path that is the name of an entry. -/
def IsName (name : String) : Prop := name ≠ "" ∧ name ≠ "." ∧ name ≠ ".."

/-- The names lead from one directory to another, and at most the given number of links is followed.
A link is replaced by the names of its target, from the root if the target begins with a slash.
Names that lead to a file, to nothing or through too many links are not related to anything. -/
inductive Leads (w : Workspace) : Nat → Place → List String → Place → Prop
  | stop {n : Nat} {dir : Place} : Leads w n dir [] dir
  | stay {n : Nat} {dir place : Place} {name : String} {rest : List String} :
    name = "" ∨ name = "." → Leads w n dir rest place → Leads w n dir (name :: rest) place
  | up {n : Nat} {dir place : Place} {rest : List String} :
    Leads w n dir.dropLast rest place → Leads w n dir (".." :: rest) place
  | down {n : Nat} {dir place : Place} {name : String} {rest : List String} :
    IsName name → name.utf8ByteSize ≤ nameLimit → w.at? (dir ++ [name]) = some .directory →
    Leads w n (dir ++ [name]) rest place → Leads w n dir (name :: rest) place
  | link {n : Nat} {dir place : Place} {name target : String} {rest : List String} :
    IsName name → name.utf8ByteSize ≤ nameLimit → w.at? (dir ++ [name]) = some (.link target) →
    Leads w n (origin target dir) (segments target ++ rest) place →
    Leads w (n + 1) dir (name :: rest) place

/-- All directories and links of one workspace are in another.  Nothing is said about files, which no
path leads through. -/
structure Carries (w w' : Workspace) : Prop where
  directory : ∀ place, w.at? place = some .directory → w'.at? place = some .directory
  link : ∀ place target, w.at? place = some (.link target) → w'.at? place = some (.link target)

lemma Carries.trans {w'' : Workspace} (h : w.Carries w') (h' : w'.Carries w'') : w.Carries w'' :=
  ⟨fun q hq => h'.directory q (h.directory q hq), fun q t hq => h'.link q t (h.link q t hq)⟩

/-- Following names depends on directories and links only, so what happens to files, or beside the
way, does not matter. -/
lemma Leads.mono (h : w.Leads n dir names place) (hw : w.Carries w') :
    w'.Leads n dir names place := by
  induction h with
  | stop => exact .stop
  | stay hname _ ih => exact .stay hname ih
  | up _ ih => exact .up ih
  | down hname hsize hat _ ih => exact .down hname hsize (hw.directory _ hat) ih
  | link hname hsize hat _ ih => exact .link hname hsize (hw.link _ _ hat) ih

lemma at?_origin (h : w.at? dir = some .directory) (text : String) :
    w.at? (origin text dir) = some .directory := by
  unfold origin
  split
  · rfl
  · exact h

lemma Leads.at?_eq (h : w.Leads n dir names place) (hdir : w.at? dir = some .directory) :
    w.at? place = some .directory := by
  induction h with
  | stop => exact hdir
  | stay _ _ ih => exact ih hdir
  | up _ ih => exact ih (at?_dropLast hdir)
  | down _ _ hat _ ih => exact ih hat
  | link _ _ _ _ ih => exact ih (at?_origin hdir _)

/-! ## One name at a time -/

/-- What becomes of a link when so many more may be followed. -/
def onLink (w : Workspace) (last : LastStep) : Nat → Place → List String → Except Fault Found
  | 0 => fun _ _ => .error .tooManyLinks
  | n + 1 => followLinks w last n

lemma followLinks_eq (w : Workspace) (last : LastStep) (n : Nat) :
    followLinks w last n = follow w last (onLink w last n) := by
  cases n with
  | zero => rfl
  | succ n => rfl

lemma followLinks_stay (hname : name = "" ∨ name = ".") :
    followLinks w last n dir (name :: rest) = followLinks w last n dir rest := by
  rw [followLinks_eq, follow]
  exact if_pos hname

lemma followLinks_up :
    followLinks w last n dir (".." :: rest) = followLinks w last n dir.dropLast rest := by
  rw [followLinks_eq, follow]
  rfl

/-- What happens at a name that is not the last one. -/
lemma followLinks_name (hname : IsName name) (hrest : ∃ s ∈ rest, s ≠ "") :
    followLinks w last n dir (name :: rest) =
      if nameLimit < name.utf8ByteSize then .error .nameTooLong
      else match w.at? (dir ++ [name]) with
        | none => .error .notFound
        | some .directory => followLinks w last n (dir ++ [name]) rest
        | some (.file _) => .error .notADirectory
        | some (.link target) => onLink w last n (origin target dir) (segments target ++ rest) := by
  obtain ⟨hempty, hdot, hup⟩ := hname
  have hnil : rest ≠ [] := by
    rintro rfl
    obtain ⟨s, hs, -⟩ := hrest
    cases hs
  have hlast : (rest.all fun s => s.isEmpty) = false := by
    obtain ⟨s, hs, hne⟩ := hrest
    rw [List.all_eq_false]
    exact ⟨s, hs, by simpa using hne⟩
  have hnotLast : ¬ (last = .write ∧ (rest.all fun s => s.isEmpty) = true ∧ rest ≠ []) := by
    rw [hlast]
    simp
  rw [followLinks_eq, follow]
  simp only
  rw [if_neg (not_or.2 ⟨hempty, hdot⟩), if_neg hup, if_neg hnotLast, hlast]
  by_cases hsize : nameLimit < name.utf8ByteSize
  · rw [if_pos hsize, if_pos hsize]
  · rw [if_neg hsize, if_neg hsize]
    cases w.at? (dir ++ [name]) with
    | none => rfl
    | some entry =>
      cases entry with
      | directory => rfl
      | file content => exact if_neg hnil
      | link target => exact if_neg fun h => hnil h.1

/-! ## Cutting a path -/

/-- To follow names and more is to follow the names, and then to follow more from there.  There has
to be a name among the rest, because a link at the last name is treated as the caller wishes. -/
lemma Leads.append (h : w.Leads n dir names place) (last : LastStep) (hrest : ∃ s ∈ rest, s ≠ "") :
    ∃ m, followLinks w last n dir (names ++ rest) = followLinks w last m place rest := by
  induction h with
  | stop => exact ⟨_, rfl⟩
  | stay hname _ ih =>
    obtain ⟨m, hm⟩ := ih
    exact ⟨m, by rw [List.cons_append, followLinks_stay hname, hm]⟩
  | up _ ih =>
    obtain ⟨m, hm⟩ := ih
    exact ⟨m, by rw [List.cons_append, followLinks_up, hm]⟩
  -- the name is not the last one, so what happens there does not depend on the step that comes last
  | @down n dir place name before hname hsize hat _ ih =>
    obtain ⟨m, hm⟩ := ih
    obtain ⟨s, hs, hne⟩ := hrest
    refine ⟨m, ?_⟩
    rw [List.cons_append, followLinks_name hname ⟨s, List.mem_append_right _ hs, hne⟩,
      if_neg (by omega), hat]
    exact hm
  | @link n dir place name target before hname hsize hat _ ih =>
    -- `m` counts the links that are left for the rest
    obtain ⟨m, hm⟩ := ih
    obtain ⟨s, hs, hne⟩ := hrest
    refine ⟨m, ?_⟩
    rw [List.cons_append, followLinks_name hname ⟨s, List.mem_append_right _ hs, hne⟩,
      if_neg (by omega), hat, ← hm, List.append_assoc]
    rfl

/-- The names before the last one lead somewhere, if those behind a link do. -/
lemma exists_leads_of_links (hrest : ∃ s ∈ rest, s ≠ "")
    (hlink : ∀ dir names, onLink w last n dir (names ++ rest) = .ok found →
      ∃ m place, n = m + 1 ∧ w.Leads m dir names place)
    (h : followLinks w last n dir (names ++ rest) = .ok found) :
    ∃ place, w.Leads n dir names place := by
  -- a link brings more names, so this induction stops there, and that of `exists_leads` goes on
  induction names generalizing dir with
  | nil => exact ⟨dir, .stop⟩
  | cons name names ih =>
    rw [List.cons_append] at h
    by_cases hskip : name = "" ∨ name = "."
    · rw [followLinks_stay hskip] at h
      obtain ⟨place, hplace⟩ := ih h
      exact ⟨place, .stay hskip hplace⟩
    by_cases hup : name = ".."
    · rw [hup, followLinks_up] at h
      obtain ⟨place, hplace⟩ := ih h
      exact ⟨place, hup ▸ .up hplace⟩
    rw [not_or] at hskip
    have hname : IsName name := ⟨hskip.1, hskip.2, hup⟩
    obtain ⟨s, hs, hne⟩ := hrest
    rw [followLinks_name hname ⟨s, List.mem_append_right _ hs, hne⟩] at h
    split at h
    · cases h
    next hsize =>
    have hsize := Nat.le_of_not_lt hsize
    split at h
    · cases h
    · next hat =>
      obtain ⟨place, hplace⟩ := ih h
      exact ⟨place, .down hname hsize hat hplace⟩
    · cases h
    · next target hat =>
      rw [← List.append_assoc] at h
      obtain ⟨m, place, rfl, hplace⟩ := hlink _ _ h
      exact ⟨place, .link hname hsize hat hplace⟩

/-- What is found at the end of a path is found in a directory to which the names before lead. -/
lemma exists_leads (h : followLinks w last n dir (names ++ rest) = .ok found)
    (hrest : ∃ s ∈ rest, s ≠ "") : ∃ place, w.Leads n dir names place := by
  induction n generalizing dir names with
  | zero => exact exists_leads_of_links hrest (fun _ _ hlink => nomatch hlink) h
  | succ n ih =>
    refine exists_leads_of_links hrest (fun dir names hlink => ?_) h
    obtain ⟨place, hplace⟩ := ih hlink
    exact ⟨n, place, rfl, hplace⟩

lemma followLinks_dot : followLinks w last n dir ["."] = .ok (.entry dir .directory) := by
  rw [followLinks_stay (.inr rfl), followLinks_eq]
  rfl

/-! ## The last name -/

/-- What there is at a name in a directory. -/
def lastFound (name : String) (place : Place) : Option Entry → Found
  | none => .vacancy place name
  | some e => .entry (place ++ [name]) e

lemma followLinks_last (hname : IsName name) (hsize : name.utf8ByteSize ≤ nameLimit)
    (hlink : last ≠ .keepLink → ∀ target, w.at? (dir ++ [name]) ≠ some (.link target)) :
    followLinks w last n dir [name] = .ok (lastFound name dir (w.at? (dir ++ [name]))) := by
  obtain ⟨hempty, hdot, hup⟩ := hname
  rw [followLinks_eq, follow]
  simp only [hempty, hdot, hup, or_self, if_false, List.all_nil, ne_eq, not_true_eq_false,
    and_false, if_true, if_neg (Nat.not_lt.2 hsize)]
  split
  · next h => rw [h, lastFound]
  · next h => rw [h, lastFound]; rfl
  · next h => rw [h, lastFound]
  · next h =>
    by_cases hlast : last = .keepLink
    · rw [if_pos ⟨trivial, hlast⟩, h, lastFound]
    · exact absurd h (hlink hlast _)

lemma size_of_followLinks (hname : IsName name)
    (h : followLinks w last n dir [name] = .ok found) : name.utf8ByteSize ≤ nameLimit := by
  obtain ⟨hempty, hdot, hup⟩ := hname
  rw [followLinks_eq, follow] at h
  simp only [hempty, hdot, hup, or_self, if_false] at h
  split at h
  · cases h
  · next hsize => exact Nat.le_of_not_lt hsize

/-! ## Paths that lead to a directory -/

/-- What happens at a name when links are followed to the end. -/
lemma followLinks_follow (hname : IsName name) :
    followLinks w .follow n dir (name :: rest) =
      if nameLimit < name.utf8ByteSize then .error .nameTooLong
      else match w.at? (dir ++ [name]) with
        | none =>
          if rest.all fun s => s.isEmpty then .ok (.vacancy dir name) else .error .notFound
        | some .directory => followLinks w .follow n (dir ++ [name]) rest
        | some (.file content) =>
          if rest = [] then .ok (.entry (dir ++ [name]) (.file content)) else .error .notADirectory
        | some (.link target) => onLink w .follow n (origin target dir) (segments target ++ rest) := by
  obtain ⟨hempty, hdot, hup⟩ := hname
  rw [followLinks_eq, follow]
  simp only
  rw [if_neg (not_or.2 ⟨hempty, hdot⟩), if_neg hup]
  by_cases hsize : nameLimit < name.utf8ByteSize
  · rw [if_pos hsize, if_pos hsize]
  · rw [if_neg hsize, if_neg hsize, if_neg (by simp)]
    cases w.at? (dir ++ [name]) with
    | none => rfl
    | some entry =>
      cases entry with
      | directory => rfl
      | file content => rfl
      | link target => exact if_neg (by simp)

lemma Leads.followLinks_eq (h : w.Leads n dir names place) :
    followLinks w .follow n dir names = .ok (.entry place .directory) := by
  induction h with
  | stop =>
    rw [Workspace.followLinks_eq]
    rfl
  | stay hname _ ih => rw [followLinks_stay hname, ih]
  | up _ ih => rw [followLinks_up, ih]
  | down hname hsize hat _ ih => rw [followLinks_follow hname, if_neg (by omega), hat, ih]
  | link hname hsize hat _ ih =>
    rw [followLinks_follow hname, if_neg (by omega), hat]
    exact ih

/-- Names that are followed to a directory lead there, if those behind a link do. -/
lemma leads_of_links
    (hlink : ∀ dir names, onLink w .follow n dir names = .ok (.entry place .directory) →
      ∃ m, n = m + 1 ∧ w.Leads m dir names place)
    (h : followLinks w .follow n dir names = .ok (.entry place .directory)) :
    w.Leads n dir names place := by
  -- as in `exists_leads_of_links`, the induction stops at a link, and that of `leads_iff` goes on
  induction names generalizing dir with
  | nil =>
    rw [followLinks_eq] at h
    cases h
    exact .stop
  | cons name rest ih =>
    by_cases hskip : name = "" ∨ name = "."
    · rw [followLinks_stay hskip] at h
      exact .stay hskip (ih h)
    by_cases hup : name = ".."
    · rw [hup, followLinks_up] at h
      exact hup ▸ .up (ih h)
    rw [not_or] at hskip
    have hname : IsName name := ⟨hskip.1, hskip.2, hup⟩
    rw [followLinks_follow hname] at h
    split at h
    · cases h
    next hsize =>
    have hsize := Nat.le_of_not_lt hsize
    split at h
    · split at h
      · cases h
      · cases h
    · next hat => exact .down hname hsize hat (ih h)
    · split at h
      · cases h
      · cases h
    · next target hat =>
      obtain ⟨m, rfl, hleads⟩ := hlink _ _ h
      exact .link hname hsize hat hleads

/-- Names lead to a directory if they are followed there.  The relation is what later arguments
induct on, the function is what runs. -/
theorem leads_iff : w.Leads n dir names place ↔
    followLinks w .follow n dir names = .ok (.entry place .directory) := by
  refine ⟨Leads.followLinks_eq, fun h => ?_⟩
  induction n generalizing dir names with
  | zero => exact leads_of_links (fun _ _ hlink => nomatch hlink) h
  | succ n ih => exact leads_of_links (fun _ _ hlink => ⟨n, rfl, ih hlink⟩) h

lemma Leads.unique (h : w.Leads n dir names place) (h' : w.Leads n dir names place') :
    place = place' := by
  rw [leads_iff] at h h'
  rw [h] at h'
  cases h'
  rfl

lemma leads_of_directoryAt (h : w.directoryAt dir names = .ok place) :
    w.Leads linkLimit dir names place := by
  have hne : ∃ s ∈ ["."], s ≠ "" := ⟨".", List.mem_singleton_self _, by decide⟩
  rw [directoryAt] at h
  obtain ⟨found, hfollow, h⟩ := Except.exists_of_bind h
  obtain ⟨place', hleads⟩ := exists_leads hfollow hne
  obtain ⟨m, hm⟩ := hleads.append .follow hne
  rw [hfollow, followLinks_dot] at hm
  cases hm
  cases h
  exact hleads

/-- The names lead on from where others have led, if no link is met any more. -/
lemma Leads.trans (h : w.Leads n dir names place) (h' : ∀ m, w.Leads m place rest place') :
    w.Leads n dir (names ++ rest) place' := by
  induction h with
  | stop => exact h' _
  | stay hname _ ih => exact .stay hname (ih h')
  | up _ ih => exact .up (ih h')
  | down hname hsize hat _ ih => exact .down hname hsize hat (ih h')
  | link hname hsize hat _ ih =>
    have hlead := ih h'
    rw [List.append_assoc] at hlead
    exact .link hname hsize hat hlead

/-- Whether a text can be the text of a path at all. -/
def checkText (p : Path) : Except Fault Unit :=
  if '\x00' ∈ p.text.toList then .error .zeroInName
  else if pathLimit ≤ p.byteSize then .error .nameTooLong
  else .ok ()

/-- The path leads to a directory, with all that is asked of a path for that: a text, a start that
is there, and names that can be followed. -/
structure Arrives (w : Workspace) (p : Path) (place : Place) : Prop where
  text_ne : p.text ≠ ""
  check : checkText p = .ok ()
  start : w.at? (origin p.text w.cwd) = some .directory
  leads : w.Leads linkLimit (origin p.text w.cwd) (segments p.text) place

variable {folder p : Path} {x : Bytes}

lemma Arrives.mono (h : w.Arrives p place) (hw : w.Carries w') (hcwd : w'.cwd = w.cwd) :
    w'.Arrives p place where
  text_ne := h.text_ne
  check := h.check
  start := by
    rw [hcwd]
    exact hw.directory _ h.start
  leads := by
    rw [hcwd]
    exact h.leads.mono hw

lemma start_eq (hp : p.text ≠ "") : w.start p =
    (checkText p).bind fun _ =>
      if w.at? (origin p.text w.cwd) = some .directory then .ok (origin p.text w.cwd)
      else .error .notFound := by
  rw [start, checkText]
  simp only [hp, if_false]
  split
  · rfl
  · split
    · rfl
    · rfl

/-- A path that is followed is one that can be, from a directory. -/
lemma checkText_of_start (h : w.start p = .ok dir) :
    p.text ≠ "" ∧ checkText p = .ok () ∧ dir = origin p.text w.cwd ∧
      w.at? (origin p.text w.cwd) = some .directory := by
  have hp : p.text ≠ "" := by
    intro hp
    rw [start, hp] at h
    cases h
  rw [start_eq hp] at h
  obtain ⟨u, hcheck, h⟩ := Except.exists_of_bind h
  split at h
  · next hstart =>
    cases h
    exact ⟨hp, hcheck, rfl, hstart⟩
  · cases h

lemma exists_start_of_resolve (h : w.resolve last p = .ok found) :
    ∃ dir, w.start p = .ok dir ∧ followLinks w last linkLimit dir (segments p.text) = .ok found := by
  rw [Workspace.resolve] at h
  exact Except.exists_of_bind h

/-- A path leads to a directory if and only if that is what is found there.  So the search for a
directory can be told without `Workspace.followLinks`, whose recursion is on the links, and what is
proved by induction on `Workspace.Leads` holds of `Workspace.find`. -/
theorem find_eq_iff : w.find p = .ok (place, .directory) ↔ w.Arrives p place := by
  constructor
  · intro h
    rw [find] at h
    obtain ⟨found, hresolve, h⟩ := Except.exists_of_bind h
    obtain ⟨dir, hdir, hfollow⟩ := exists_start_of_resolve hresolve
    obtain ⟨hp, hcheck, rfl, hstart⟩ := checkText_of_start hdir
    -- `find` has no answer for a free place, and says what it has found otherwise
    refine ⟨hp, hcheck, hstart, leads_iff.2 ?_⟩
    rw [hfollow]
    cases found with
    | vacancy dir name => cases h
    | entry place entry =>
      cases h
      rfl
  · intro h
    rw [find, Workspace.resolve, start_eq h.text_ne, h.check, if_pos h.start]
    simp only [Except.bind, bind, leads_iff.1 h.leads]
    rfl

lemma find_mono (h : w.find p = .ok (place, .directory)) (hw : w.Carries w')
    (hcwd : w'.cwd = w.cwd) : w'.find p = .ok (place, .directory) :=
  find_eq_iff.2 ((find_eq_iff.1 h).mono hw hcwd)

/-! ## Paths that end with a name -/

/-- The path ends with a name, and what stands before it leads to a directory. -/
structure Ends (w : Workspace) (p : Path) (place : Place) (name : String) : Prop where
  isName : IsName name
  size : name.utf8ByteSize ≤ nameLimit
  check : checkText p = .ok ()
  start : w.at? (origin p.text w.cwd) = some .directory
  leads : ∃ names, segments p.text = names ++ [name] ∧
    w.Leads linkLimit (origin p.text w.cwd) names place

lemma text_ne_of_segments (hname : IsName name) (hp : segments p.text = names ++ [name]) :
    p.text ≠ "" := by
  intro h
  rw [h] at hp
  have hlast := congrArg List.getLast? hp
  rw [List.getLast?_concat] at hlast
  exact hname.1 (Option.some.inj hlast).symm

lemma Ends.text_ne (h : w.Ends p place name) : p.text ≠ "" := by
  obtain ⟨names, hp, -⟩ := h.leads
  exact text_ne_of_segments h.isName hp

lemma Ends.mono (h : w.Ends p place name) (hw : w.Carries w') (hcwd : w'.cwd = w.cwd) :
    w'.Ends p place name := by
  obtain ⟨names, hp, hleads⟩ := h.leads
  refine ⟨h.isName, h.size, h.check, ?_, names, hp, ?_⟩
  · rw [hcwd]
    exact hw.directory _ h.start
  · rw [hcwd]
    exact hleads.mono hw

lemma Ends.at?_eq (h : w.Ends p place name) : w.at? place = some .directory := by
  obtain ⟨names, -, hleads⟩ := h.leads
  exact hleads.at?_eq h.start

lemma Ends.unique {name' : String} (h : w.Ends p place name) (h' : w.Ends p place' name') :
    place = place' ∧ name = name' := by
  obtain ⟨names, hp, hleads⟩ := h.leads
  obtain ⟨names', hp', hleads'⟩ := h'.leads
  rw [hp] at hp'
  obtain ⟨rfl, hname⟩ := List.append_inj' hp' rfl
  exact ⟨hleads.unique hleads', List.singleton_inj.1 hname⟩

lemma Ends.resolve (h : w.Ends p place name)
    (hlink : last ≠ .keepLink → ∀ target, w.at? (place ++ [name]) ≠ some (.link target)) :
    w.resolve last p = .ok (lastFound name place (w.at? (place ++ [name]))) := by
  have hne : ∃ s ∈ [name], s ≠ "" := ⟨name, List.mem_singleton_self _, h.isName.1⟩
  obtain ⟨names, hp, hleads⟩ := h.leads
  obtain ⟨m, hm⟩ := hleads.append last hne
  rw [Workspace.resolve, start_eq h.text_ne, hp, if_pos h.start, h.check]
  show followLinks w last linkLimit _ _ = _
  rw [hm, followLinks_last h.isName h.size hlink]

/-- The last name of the path, and where it belongs. -/
lemma Ends.locate (h : w.Ends p place name) : w.locate p = .ok (.name place name false) := by
  obtain ⟨hempty, hdot, hup⟩ := h.isName
  have hne : ∃ s ∈ ["."], s ≠ "" := ⟨".", List.mem_singleton_self _, by decide⟩
  obtain ⟨names, hp, hleads⟩ := h.leads
  obtain ⟨m, hm⟩ := hleads.append .follow hne
  have hreverse : (names ++ [name]).reverse.dropWhile (fun s => s.isEmpty) =
      name :: names.reverse := by
    rw [List.reverse_append]
    simp [hempty]
  rw [Workspace.locate, start_eq h.text_ne, hp, if_pos h.start, h.check]
  simp only [Except.bind, bind]
  rw [hreverse]
  simp only [directoryAt, List.reverse_reverse]
  rw [hm, followLinks_dot]
  simp only [Except.bind, bind, pure, Except.pure, hdot, hup, or_self, if_false]
  rw [if_neg (Nat.not_lt.2 h.size)]
  simp

/-- If there is something at the end of the path, or a place for it, then what stands before the
name leads to a directory. -/
lemma exists_ends (hname : IsName name) (hp : segments p.text = names ++ [name])
    (h : w.resolve last p = .ok found) : ∃ place, w.Ends p place name := by
  have hne : ∃ s ∈ [name], s ≠ "" := ⟨name, List.mem_singleton_self _, hname.1⟩
  obtain ⟨dir, hdir, hfollow⟩ := exists_start_of_resolve h
  obtain ⟨-, hcheck, rfl, hstart⟩ := checkText_of_start hdir
  rw [hp] at hfollow
  obtain ⟨place, hleads⟩ := exists_leads hfollow hne
  obtain ⟨m, hm⟩ := hleads.append last hne
  exact ⟨place, hname, size_of_followLinks hname (hm.symm.trans hfollow), hcheck, hstart, names,
    hp, hleads⟩

/-- A name that is located stands at the end of the path, after names that lead to its directory,
and at most slashes follow it. -/
theorem exists_leads_of_locate {slash : Bool} (h : w.locate p = .ok (.name dir name slash)) :
    IsName name ∧ name.utf8ByteSize ≤ nameLimit ∧ checkText p = .ok () ∧
      w.at? (origin p.text w.cwd) = some .directory ∧
      ∃ names slashes, segments p.text = names ++ name :: slashes ∧ (∀ s ∈ slashes, s = "") ∧
        (slash = false → slashes = []) ∧ w.Leads linkLimit (origin p.text w.cwd) names dir := by
  rw [Workspace.locate] at h
  obtain ⟨here, hdir, h⟩ := Except.exists_of_bind h
  obtain ⟨-, hcheck, rfl, hstart⟩ := checkText_of_start hdir
  dsimp only at h
  -- the names in reverse: first the empty ones after the last slashes, then the last name
  have hparts := List.takeWhile_append_dropWhile
    (p := fun s : String => s.isEmpty) (l := (segments p.text).reverse)
  have hempty : ∀ s ∈ (segments p.text).reverse.takeWhile (fun s => s.isEmpty), s = "" :=
    fun s hs => by simpa using List.mem_takeWhile_imp hs
  cases hreversed : (segments p.text).reverse.dropWhile (fun s => s.isEmpty) with
  | nil =>
    rw [hreversed] at h
    cases h
  | cons name' before =>
  rw [hreversed] at h hparts
  -- the first one that is left is the last name, and it is not empty
  have hname' : name' ≠ "" := by
    have hhead := List.head_dropWhile_not (l := (segments p.text).reverse)
      (fun s : String => s.isEmpty) (by rw [hreversed]; exact List.cons_ne_nil _ _)
    simpa [hreversed] using hhead
  obtain ⟨place, hplace, h⟩ := Except.exists_of_bind h
  split at h
  · cases h
  next hstep =>
  split at h
  · cases h
  next hsize =>
  cases h
  rw [not_or] at hstep
  refine ⟨⟨hname', hstep⟩, Nat.le_of_not_lt hsize, hcheck, hstart, before.reverse,
    ((segments p.text).reverse.takeWhile fun s => s.isEmpty).reverse, ?_, ?_, ?_,
    leads_of_directoryAt hplace⟩
  · have hreverse := congrArg List.reverse hparts
    rw [List.reverse_reverse, List.reverse_append, List.reverse_cons, List.append_assoc] at hreverse
    exact hreverse.symm
  · exact fun s hs => hempty s (List.mem_reverse.1 hs)
  · intro hslash
    have hlength := congrArg List.length hparts
    rw [List.length_append, List.length_reverse] at hlength
    rw [decide_eq_false_iff_not] at hslash
    rw [List.reverse_eq_nil_iff, ← List.length_eq_zero_iff]
    omega

lemma ends_of_locate (h : w.locate p = .ok (.name dir name false)) : w.Ends p dir name := by
  obtain ⟨hname, hsize, hcheck, hstart, names, slashes, hp, -, hslashes, hleads⟩ :=
    exists_leads_of_locate h
  rw [hslashes rfl] at hp
  exact ⟨hname, hsize, hcheck, hstart, names, hp, hleads⟩

/-- A text with a long ending is no step. -/
lemma isName_append {t ending : String} (h : 3 ≤ ending.toList.length) : IsName (t ++ ending) := by
  have hlength : 3 ≤ (t ++ ending).toList.length := by
    rw [String.toList_append, List.length_append]
    omega
  refine ⟨?_, ?_, ?_⟩
  · intro heq
    rw [heq] at hlength
    exact absurd hlength (by decide)
  · intro heq
    rw [heq] at hlength
    exact absurd hlength (by decide)
  · intro heq
    rw [heq] at hlength
    exact absurd hlength (by decide)

lemma slash_scratch (n : Nat) : '/' ∉ (".tmp." ++ n.repr).toList := by
  rw [String.toList_append, List.mem_append, not_or]
  refine ⟨by decide, ?_⟩
  rw [Nat.toList_repr]
  intro h
  have hdigit := Nat.isDigit_of_mem_toDigits (by omega) (by omega) h
  exact absurd hdigit (by decide)

lemma isName_scratch (t : String) (n : Nat) : IsName (t ++ (".tmp." ++ n.repr)) :=
  isName_append (by simp)

/-- An ending without slashes is an ending of the last name. -/
lemma exists_segments_append {ending : String} (h : '/' ∉ ending.toList) (t : String) :
    ∃ names name, segments (t ++ ending) = names ++ [name ++ ending] := by
  have hsplit : ∀ l : List Char, ∃ init last, (l ++ ending.toList).splitOn '/' =
      init ++ [last ++ ending.toList] := by
    intro l
    induction l with
    | nil => exact ⟨[], [], by simp [List.splitOn_eq_singleton h]⟩
    | cons c rest ih =>
      obtain ⟨init, last, hrest⟩ := ih
      rw [List.cons_append, List.splitOn_cons_eq_if_modifyHead, hrest]
      split
      · exact ⟨[] :: init, last, rfl⟩
      · cases init with
        | nil => exact ⟨[], c :: last, rfl⟩
        | cons first others => exact ⟨(c :: first) :: others, last, rfl⟩
  obtain ⟨init, last, hlast⟩ := hsplit t.toList
  refine ⟨init.map String.ofList, String.ofList last, ?_⟩
  rw [segments, String.toList_append, hlast, List.map_append]
  simp [String.ofList_append]

/-! ## Paths in a folder -/

/-- A name that can stand at the end of a path: neither empty nor a dot nor a step up, and without
a slash. -/
structure IsFileName (name : String) : Prop where
  isName : IsName name
  slash : '/' ∉ name.toList

/-- The path of a name in a folder. -/
def inside (folder : Path) (name : String) : Path := ⟨folder.text ++ "/" ++ name⟩

lemma toList_inside (folder : Path) (name : String) :
    (inside folder name).text.toList = folder.text.toList ++ '/' :: name.toList := by
  simp [inside]

lemma segments_inside (hname : IsFileName name) :
    segments (inside folder name).text = segments folder.text ++ [name] := by
  rw [segments, toList_inside, Path.splitOn_append hname.slash, List.map_append]
  simp [segments]

lemma origin_inside (hfolder : folder.text ≠ "") (name : String) (here : Place) :
    origin (inside folder name).text here = origin folder.text here := by
  have hnil : folder.text.toList ≠ [] := by simpa using hfolder
  rw [origin, origin, toList_inside, List.head?_append, List.head?_eq_some_head hnil]
  rfl

lemma Ends.name_eq {name' : String} (h : w.Ends (inside folder name) place name')
    (hname : IsFileName name) : name' = name := by
  obtain ⟨names, hp, -⟩ := h.leads
  rw [segments_inside hname] at hp
  exact List.singleton_inj.1 (List.append_inj' hp rfl).2.symm

lemma checkText_of_append {t u : String} (h : checkText ⟨t ++ u⟩ = .ok ()) :
    checkText ⟨t⟩ = .ok () := by
  unfold checkText at h ⊢
  split at h
  · cases h
  next hzero =>
  split at h
  · cases h
  next hlong =>
  rw [Path.byteSize, String.utf8ByteSize_append] at hlong
  rw [if_neg, if_neg]
  · rw [Path.byteSize]
    show ¬ pathLimit ≤ t.utf8ByteSize
    omega
  · intro hin
    apply hzero
    simp [hin]

lemma checkText_of_inside (h : checkText (inside folder name) = .ok ()) :
    checkText folder = .ok () := by
  rw [inside, String.append_assoc] at h
  exact checkText_of_append h

/-- The path of a name ends with it, in the directory that the folder leads to. -/
theorem ends_inside_iff (hfolder : folder.text ≠ "") (hname : IsFileName name) :
    w.Ends (inside folder name) place name ↔
      name.utf8ByteSize ≤ nameLimit ∧ checkText (inside folder name) = .ok () ∧
        w.find folder = .ok (place, .directory) := by
  constructor
  · rintro ⟨-, hsize, hcheck, hstart, names, hp, hleads⟩
    rw [origin_inside hfolder] at hstart hleads
    rw [segments_inside hname] at hp
    obtain ⟨rfl, -⟩ := List.append_inj' hp rfl
    exact ⟨hsize, hcheck, find_eq_iff.2 ⟨hfolder, checkText_of_inside hcheck, hstart, hleads⟩⟩
  · rintro ⟨hsize, hcheck, hfind⟩
    have harrives := find_eq_iff.1 hfind
    refine ⟨hname.isName, hsize, hcheck, ?_, segments folder.text, segments_inside hname, ?_⟩
    · rw [origin_inside hfolder]
      exact harrives.start
    · rw [origin_inside hfolder]
      exact harrives.leads

end IncludeDeps.Workspace
