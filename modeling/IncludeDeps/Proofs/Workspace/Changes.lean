import IncludeDeps.Proofs.Computation
import IncludeDeps.Proofs.Workspace.Following

/-!
# What changes do to files

Changes are told apart by what they leave in place:

* `Workspace.Adds` and `Workspace.Makes` are about new directories, wherever they are or where certain
  paths lead;
* `Workspace.Sets` is a change at one place, and `Workspace.Replaces` what comes of a file that is
  written under one name and then renamed;
* `Workspace.Alters` is all of these taken together, as long as no directory and no link is gone.  So
  paths lead where they led.

What is at the end of a path is read, written and renamed there: `Workspace.read_iff`,
`Workspace.sets_of_write`, `Workspace.exists_replaces`.

A path that leads nowhere may lead somewhere when directories have been made.  Hence
`Workspace.Stays`, under which a change is seen in a folder only at the places that have changed
(`Workspace.Alters.has_iff`).

`Workspace.LinkFree` and `Workspace.NameFree` are conditions on names that can be decided.
-/

namespace IncludeDeps

/-- Whether an entry is a link. -/
def Entry.isLink : Entry → Bool
  | .link _ => true
  | _ => false

namespace Workspace

variable {w w' w'' : Workspace} {dir place : Place} {name : String} {entry : Entry} {p : Path}

/-! ## New directories -/

/-- A workspace with more directories.  All that was there is still there, and where there was
nothing there may be a directory now.  This is what is left of an attempt to make directories that
stops half-way. -/
structure Adds (w w' : Workspace) : Prop where
  cwd : w'.cwd = w.cwd
  processId : w'.processId = w.processId
  kept : ∀ place e, w.at? place = some e → w'.at? place = some e
  added : ∀ place, w.at? place = none → w'.at? place = none ∨ w'.at? place = some .directory

lemma Adds.refl (w : Workspace) : w.Adds w := ⟨rfl, rfl, fun _ _ => id, fun _ => .inl⟩

lemma Adds.trans (h : w.Adds w') (h' : w'.Adds w'') : w.Adds w'' where
  cwd := h'.cwd.trans h.cwd
  processId := h'.processId.trans h.processId
  kept place e he := h'.kept place e (h.kept place e he)
  added place hnone := by
    rcases h.added place hnone with hnone' | hdir
    · exact h'.added place hnone'
    · exact .inr (h'.kept place _ hdir)

lemma Adds.carries (h : w.Adds w') : w.Carries w' where
  directory place := h.kept place _
  link place _ := h.kept place _

/-- Where there is no directory, there was the same. -/
lemma Adds.at?_eq (h : w.Adds w') {e : Entry} (hat : w'.at? place = some e)
    (he : e ≠ .directory) : w.at? place = some e := by
  cases hold : w.at? place with
  | some e' => rw [← h.kept place e' hold, hat]
  | none =>
    rcases h.added place hold with hnew | hnew
    · rw [hat] at hnew
      cases hnew
    · rw [hat] at hnew
      exact absurd (Option.some.inj hnew) he

/-! ## One entry -/

/-- There is no directory and no link: a file, or nothing. -/
def IsPlain (entry : Option Entry) : Prop :=
  entry ≠ some .directory ∧ ∀ target, entry ≠ some (.link target)

/-- A workspace in which there is something else at one place, or nothing.  What was there before is
not told, so this may be a change of a file, a new file or a removal. -/
structure Sets (w : Workspace) (place : Place) (entry : Option Entry) (w' : Workspace) : Prop where
  cwd : w'.cwd = w.cwd
  processId : w'.processId = w.processId
  at? : ∀ q, w'.at? q = if q = place then entry else w.at? q

lemma Sets.at?_self {e : Option Entry} (h : w.Sets place e w') : w'.at? place = e := by
  rw [h.at?, if_pos rfl]

lemma Sets.at?_of_ne {e : Option Entry} {q : Place} (h : w.Sets place e w') (hq : q ≠ place) :
    w'.at? q = w.at? q := by
  rw [h.at?, if_neg hq]

/-- Paths lead where they led if no directory and no link gives way. -/
lemma Sets.carries {e : Option Entry} (h : w.Sets place e w') (hplain : IsPlain (w.at? place)) :
    w.Carries w' where
  directory q hq := by
    rw [h.at?_of_ne, hq]
    rintro rfl
    exact hplain.1 hq
  link q target hq := by
    rw [h.at?_of_ne, hq]
    rintro rfl
    exact hplain.2 target hq

/-- Paths have led where they lead if no directory and no link is new. -/
lemma Sets.carries_symm {e : Option Entry} (h : w.Sets place e w') (he : IsPlain e) :
    w'.Carries w where
  directory q hq := by
    rw [← h.at?_of_ne, hq]
    rintro rfl
    exact he.1 (h.at?_self.symm.trans hq)
  link q target hq := by
    rw [← h.at?_of_ne, hq]
    rintro rfl
    exact he.2 target (h.at?_self.symm.trans hq)

lemma Sets.trans {e e' : Option Entry} (h : w.Sets place e w') (h' : w'.Sets place e' w'') :
    w.Sets place e' w'' where
  cwd := h'.cwd.trans h.cwd
  processId := h'.processId.trans h.processId
  at? q := by
    rw [h'.at?]
    split
    · rfl
    · next hq => exact h.at?_of_ne hq

lemma isPlain_none : IsPlain none := ⟨nofun, nofun⟩

lemma isPlain_file (x : Bytes) : IsPlain (some (.file x)) := ⟨nofun, nofun⟩

lemma sets_put (hdir : w.at? dir = some .directory)
    (hfree : w.at? (dir ++ [name]) ≠ some .directory) :
    w.Sets (dir ++ [name]) (some entry) (w.put dir name entry) :=
  ⟨cwd_put _ _ _ _, processId_put _ _ _ _, at?_put hdir hfree⟩

lemma sets_remove (h : w.at? place = some entry) (hentry : entry ≠ .directory) :
    w.Sets place none (w.remove place) :=
  ⟨rfl, rfl, at?_remove h hentry⟩

lemma Sets.adds (h : w.Sets place (some .directory) w') (hnone : w.at? place = none) :
    w.Adds w' where
  cwd := h.cwd
  processId := h.processId
  kept q e he := by
    rw [h.at?_of_ne, he]
    rintro rfl
    rw [hnone] at he
    cases he
  added q hq := by
    rw [h.at?]
    split
    · exact .inr rfl
    · exact .inl hq

/-! ## Making directories -/

/-- A directory that was made is where its path leads. -/
lemma exists_of_makeDirectory (h : w.makeDirectory p = .ok w') :
    ∃ place, w.at? place = none ∧ w.Sets place (some .directory) w' ∧
      w'.find p = .ok (place, .directory) := by
  unfold makeDirectory at h
  obtain ⟨spot, hlocate, h⟩ := Except.exists_of_bind h
  cases spot with
  | step => cases h
  | name dir name slash =>
  dsimp only at h
  split at h
  · cases h
  next hfree =>
  cases h
  have hnone : w.at? (dir ++ [name]) = none := by simpa using hfree
  obtain ⟨hname, hsize, hcheck, hstart, names, slashes, hp, hslashes, -, hleads⟩ :=
    exists_leads_of_locate hlocate
  have hset : w.Sets (dir ++ [name]) (some .directory) (w.put dir name .directory) :=
    sets_put (hleads.at?_eq hstart) (by rw [hnone]; nofun)
  have hcarries := (hset.adds hnone).carries
  -- slashes may follow the name; they lead no further
  have hstay : ∀ m, (w.put dir name .directory).Leads m (dir ++ [name]) slashes (dir ++ [name]) := by
    intro m
    clear hp
    induction slashes with
    | nil => exact .stop
    | cons slash rest ih =>
      refine .stay (.inl (hslashes slash List.mem_cons_self)) (ih fun s hs => ?_)
      exact hslashes s (List.mem_cons_of_mem _ hs)
  refine ⟨dir ++ [name], hnone, hset, find_eq_iff.2 ⟨?_, hcheck, ?_, ?_⟩⟩
  · intro htext
    rw [htext] at hp
    have hmem : name ∈ segments "" := by
      rw [hp]
      exact List.mem_append_right _ List.mem_cons_self
    exact hname.1 (List.mem_singleton.1 hmem)
  · rw [hset.cwd]
    exact hcarries.directory _ hstart
  · rw [hset.cwd, hp]
    exact (hleads.mono hcarries).trans fun m => .down hname hsize hset.at?_self (hstay m)

/-- A workspace with more directories, all of them where one of the paths leads. -/
structure Makes (l : List Path) (w w' : Workspace) : Prop extends Adds w w' where
  made : ∀ place, w.at? place = none →
    w'.at? place = none ∨ ∃ p ∈ l, w'.find p = .ok (place, .directory)

variable {l : List Path}

lemma Makes.refl (l : List Path) (w : Workspace) : Makes l w w := ⟨.refl w, fun _ => .inl⟩

lemma Makes.trans (h : Makes l w w') (h' : Makes l w' w'') : Makes l w w'' where
  toAdds := h.toAdds.trans h'.toAdds
  made place hnone := by
    rcases h.made place hnone with hnone' | ⟨p, hp, hfind⟩
    · exact h'.made place hnone'
    · exact .inr ⟨p, hp, find_mono hfind h'.carries h'.cwd⟩

lemma Makes.cons (h : Makes l w w') (p : Path) : Makes (p :: l) w w' where
  toAdds := h.toAdds
  made place hnone := (h.made place hnone).imp_right fun ⟨q, hq, hfind⟩ =>
    ⟨q, List.mem_cons_of_mem _ hq, hfind⟩

lemma makes_of_at?_eq (hcwd : w'.cwd = w.cwd) (hprocess : w'.processId = w.processId)
    (h : ∀ q, w'.at? q = w.at? q) (l : List Path) : Makes l w w' where
  cwd := hcwd
  processId := hprocess
  kept q _ he := (h q).trans he
  added q hq := .inl ((h q).trans hq)
  made q hq := .inl ((h q).trans hq)

lemma makes_makeDirectory (h : w.makeDirectory p = .ok w') (l : List Path) :
    Makes (p :: l) w w' := by
  obtain ⟨place, hnone, hset, hfind⟩ := exists_of_makeDirectory h
  refine ⟨hset.adds hnone, fun q hq => ?_⟩
  by_cases heq : q = place
  · exact .inr ⟨p, List.mem_cons_self, heq ▸ hfind⟩
  · exact .inl ((hset.at?_of_ne heq).trans hq)

theorem makes_createEach (l : List Path) (w : Workspace) :
    Makes l w ((createEach l).run.run w).2 := by
  induction l generalizing w with
  | nil => exact .refl [] w
  | cons p outer ih =>
    rw [createEach_run]
    split
    · next w' hmake => exact makes_makeDirectory hmake outer
    · have hmakes := (ih w).cons p
      split
      · next w₁ houter =>
        rw [houter] at hmakes
        exact hmakes
      · next w₁ houter =>
        rw [houter] at hmakes
        split
        · next w₂ hagain => exact hmakes.trans (makes_makeDirectory hagain outer)
        · exact hmakes
    · exact .refl _ w

lemma adds_makeDirectory (h : w.makeDirectory p = .ok w') : w.Adds w' :=
  (makes_makeDirectory h []).toAdds

lemma adds_createEach (l : List Path) (w : Workspace) : w.Adds ((createEach l).run.run w).2 :=
  (makes_createEach l w).toAdds

/-! ## Names -/

/-- No link has the name, in whichever directory. -/
def LinkFree (w : Workspace) (name : String) : Prop :=
  ∀ dir target, w.at? (dir ++ [name]) ≠ some (.link target)

/-- Nothing has the name, in whichever directory. -/
def NameFree (w : Workspace) (name : String) : Prop := ∀ dir, w.at? (dir ++ [name]) = none

lemma at?_append_eq_some_iff :
    w.at? (dir ++ [name]) = some entry ↔ (dir ++ [name], entry) ∈ w.entries.toList := by
  rw [at?_eq_get? (append_singleton_ne_nil dir name), OrderedMap.get?_eq_some_iff]

lemma forall_at?_iff {P : Entry → Prop} :
    (∀ dir entry, w.at? (dir ++ [name]) = some entry → P entry) ↔
      ∀ e ∈ w.entries.toList, e.1.getLast? = some name → P e.2 := by
  constructor
  · rintro h ⟨place, entry⟩ he hname
    obtain ⟨dir, name', rfl, -⟩ := w.grounded _ he
    rw [List.getLast?_concat] at hname
    cases hname
    exact h dir entry (at?_append_eq_some_iff.2 he)
  · intro h dir entry hat
    exact h _ (at?_append_eq_some_iff.1 hat) List.getLast?_concat

instance : Decidable (w.LinkFree name) :=
  decidable_of_iff (∀ e ∈ w.entries.toList, e.1.getLast? = some name → e.2.isLink = false) <| by
    refine Iff.trans (forall_at?_iff (P := fun entry => entry.isLink = false)).symm ?_
    constructor
    · intro h dir target hat
      exact absurd (h dir _ hat) (by simp [Entry.isLink])
    · intro h dir entry hat
      cases entry with
      | link target => exact absurd hat (h dir target)
      | file content => rfl
      | directory => rfl

instance : Decidable (w.NameFree name) :=
  decidable_of_iff (∀ e ∈ w.entries.toList, e.1.getLast? ≠ some name) <| by
    refine Iff.trans (forall_at?_iff (P := fun _ => False)).symm ?_
    exact forall_congr' fun dir => Option.eq_none_iff_forall_ne_some.symm

lemma linkFree_of_isLink (h : ∀ e ∈ w.entries.toList, e.2.isLink = false) (name : String) :
    w.LinkFree name := fun _ _ hat => absurd (h _ (at?_append_eq_some_iff.1 hat)) (by simp [Entry.isLink])

lemma Adds.linkFree (h : w.Adds w') (hlink : w.LinkFree name) : w'.LinkFree name :=
  fun dir target hat => hlink dir target (h.at?_eq hat nofun)

/-! ## Files at the end of a path -/

variable {names : List String} {x content : Bytes}

lemma Ends.find_file (h : w.Ends p place name)
    (hat : w.at? (place ++ [name]) = some (.file x)) :
    w.find p = .ok (place ++ [name], .file x) := by
  have hlink : ∀ target, w.at? (place ++ [name]) ≠ some (.link target) := by
    rw [hat]
    rintro target ⟨⟩
  rw [find, h.resolve fun _ => hlink, hat]
  rfl

/-- What is read is the content of a file at the end of the path, if there is no link: with a link
there it would be the content of the file to which that leads, at another place. -/
theorem read_iff (hname : IsName name) (hp : segments p.text = names ++ [name])
    (hlink : ∀ place, w.Ends p place name → ∀ target,
      w.at? (place ++ [name]) ≠ some (.link target)) :
    w.read p = .ok x ↔
      ∃ place, w.Ends p place name ∧ w.at? (place ++ [name]) = some (.file x) := by
  constructor
  · intro h
    rw [read, find] at h
    obtain ⟨spot, hfind, h⟩ := Except.exists_of_bind h
    obtain ⟨found, hresolve, hfind⟩ := Except.exists_of_bind hfind
    obtain ⟨place, hends⟩ := exists_ends hname hp hresolve
    rw [hends.resolve fun _ => hlink place hends] at hresolve
    refine ⟨place, hends, ?_⟩
    cases hat : w.at? (place ++ [name]) with
    | none =>
      rw [hat] at hresolve
      cases hresolve
      cases hfind
    | some e =>
      rw [hat] at hresolve
      cases hresolve
      cases hfind
      cases e with
      | file content =>
        cases h
        rfl
      | directory => cases h
      | link target => cases h
  · rintro ⟨place, hends, hat⟩
    rw [read, hends.find_file hat]
    rfl

/-- What is written is a file at the end of the path, and nothing else has changed.  There is no
link there, so it is the path itself that ends at the new file. -/
theorem sets_of_write (hname : IsName name) (hp : segments p.text = names ++ [name])
    (hlink : ∀ place, w.Ends p place name → ∀ target,
      w.at? (place ++ [name]) ≠ some (.link target))
    (h : w.write p content = .ok w') :
    ∃ place, w.Ends p place name ∧ IsPlain (w.at? (place ++ [name])) ∧
      w.Sets (place ++ [name]) (some (.file content)) w' := by
  rw [write] at h
  obtain ⟨found, hresolve, h⟩ := Except.exists_of_bind h
  obtain ⟨place, hends⟩ := exists_ends hname hp hresolve
  rw [hends.resolve fun _ => hlink place hends] at hresolve
  cases hresolve
  -- a new file, or another content for an old one; there is no other way to succeed
  refine ⟨place, hends, ?_⟩
  cases hat : w.at? (place ++ [name]) with
  | none =>
    rw [hat] at h
    cases h
    refine ⟨isPlain_none, sets_put hends.at?_eq ?_⟩
    rw [hat]
    rintro ⟨⟩
  | some e =>
    rw [hat] at h
    cases e with
    | directory => cases h
    | link target => exact absurd hat (hlink place hends target)
    | file old =>
      simp only [lastFound, pure, Except.pure] at h
      cases h
      rw [List.dropLast_concat, List.getLastD_concat]
      refine ⟨isPlain_file old, sets_put hends.at?_eq ?_⟩
      rw [hat]
      rintro ⟨⟩

/-- A file or a link at the end of the path is removed. -/
lemma Ends.unlink (h : w.Ends p place name) (hat : w.at? (place ++ [name]) = some entry)
    (hentry : entry ≠ .directory) : w.unlink p = .ok (w.remove (place ++ [name])) := by
  rw [Workspace.unlink, h.locate]
  simp only [Except.bind, bind, hat]
  cases entry with
  | directory => exact absurd rfl hentry
  | file x => rfl
  | link target => rfl

/-- What is removed is a file or a link at the end of the path. -/
lemma exists_ends_of_unlink (h : w.unlink p = .ok w') :
    ∃ place name entry, w.Ends p place name ∧ w.at? (place ++ [name]) = some entry ∧
      entry ≠ .directory ∧ w' = w.remove (place ++ [name]) := by
  rw [Workspace.unlink] at h
  obtain ⟨spot, hlocate, h⟩ := Except.exists_of_bind h
  cases spot with
  | step => cases h
  | name place name slash =>
  dsimp only at h
  split at h
  · cases h
  · cases h
  next entry hdir hat =>
  split at h
  · cases h
  next hslash =>
  rw [Bool.not_eq_true] at hslash
  rw [hslash] at hlocate
  cases h
  exact ⟨place, name, entry, ends_of_locate hlocate, hat, hdir, rfl⟩

/-! ## Replacing a file -/

variable {target : Path} {source goal : Place}

/-- A file gets another name, which is not that of a directory. -/
lemma Ends.sets_of_rename (h : w.Ends p place name)
    (hat : w.at? (place ++ [name]) = some (.file x)) (hrename : w.rename p target = .ok w') :
    ∃ dir name', w.Ends target dir name' ∧ w.at? (dir ++ [name']) ≠ some .directory ∧
      ∃ v, w.Sets (place ++ [name]) none v ∧ v.Sets (dir ++ [name']) (some (.file x)) w' := by
  rw [rename, h.locate] at hrename
  simp only [Except.bind, bind] at hrename
  split at hrename
  · cases hrename
  next spot htarget =>
  cases spot with
  | step => cases hrename
  | name dir name' slash =>
  simp only [hat] at hrename
  split at hrename
  · cases hrename
  next hslash =>
  rw [Bool.not_eq_true] at hslash
  rw [hslash] at htarget
  split at hrename
  · cases hrename
  next hfree =>
  cases hrename
  have hends := ends_of_locate htarget
  have hremove := sets_remove hat (by nofun)
  refine ⟨dir, name', hends, hfree, _, hremove, sets_put ?_ ?_⟩
  · -- the directory of the new name is not the file that has just lost its own
    rw [hremove.at?_of_ne, hends.at?_eq]
    intro heq
    have hdir := hends.at?_eq
    rw [heq, hat] at hdir
    cases hdir
  · rw [hremove.at?]
    split
    · nofun
    · exact hfree

/-- A file has been written at one place and moved to another.  Only the second place has a new entry
in the end; at the first there is nothing, whatever was there before. -/
structure Replaces (w : Workspace) (source goal : Place) (x : Bytes) (w' : Workspace) : Prop where
  cwd : w'.cwd = w.cwd
  processId : w'.processId = w.processId
  isPlain_source : IsPlain (w.at? source)
  goal_ne : w.at? goal ≠ some .directory
  at? : ∀ q, w'.at? q =
    if q = goal then some (.file x) else if q = source then none else w.at? q

/-- What comes of a file that is written and then renamed.  Both places are told as seen from before
the first change, since the scratch file cannot be on the way to the target. -/
theorem exists_replaces (hname : IsName name) (hp : segments p.text = names ++ [name])
    (hlink : ∀ place, w.Ends p place name → ∀ target,
      w.at? (place ++ [name]) ≠ some (.link target))
    (hwrite : w.write p x = .ok w') (hrename : w'.rename p target = .ok w'') :
    ∃ place dir name', w.Ends p place name ∧ w.Ends target dir name' ∧
      w.Replaces (place ++ [name]) (dir ++ [name']) x w'' := by
  obtain ⟨place, hends, hplain, hset⟩ := sets_of_write hname hp hlink hwrite
  have hends' := hends.mono (hset.carries hplain) hset.cwd
  obtain ⟨dir, name', htarget, hfree, v, hremove, hput⟩ :=
    hends'.sets_of_rename hset.at?_self hrename
  -- a new file is no way to anywhere, so the target is located as before it was written
  have hback := htarget.mono (hset.carries_symm (isPlain_file x)) hset.cwd.symm
  refine ⟨place, dir, name', hends, hback, ?_⟩
  constructor
  case cwd => exact hput.cwd.trans (hremove.cwd.trans hset.cwd)
  case processId => exact hput.processId.trans (hremove.processId.trans hset.processId)
  case isPlain_source => exact hplain
  case goal_ne => exact fun hdir => hfree ((hset.carries hplain).directory _ hdir)
  case at? =>
    intro q
    rw [hput.at?, hremove.at?, hset.at?]
    split
    · rfl
    · split
      · rfl
      · rfl

lemma Sets.replaces {y : Bytes} (h : w.Sets source (some (.file y)) w')
    (hplain : IsPlain (w.at? source)) (h' : w'.Replaces source goal x w'') :
    w.Replaces source goal x w'' where
  cwd := h'.cwd.trans h.cwd
  processId := h'.processId.trans h.processId
  isPlain_source := hplain
  goal_ne hdir := by
    have hold := (h.carries hplain).directory _ hdir
    exact h'.goal_ne hold
  at? q := by
    rw [h'.at?]
    split
    · rfl
    · split
      · rfl
      · next hq => exact h.at?_of_ne hq

lemma Replaces.at?_goal (h : w.Replaces source goal x w') : w'.at? goal = some (.file x) := by
  rw [h.at?, if_pos rfl]

lemma Replaces.at?_source (h : w.Replaces source goal x w') (hne : source ≠ goal) :
    w'.at? source = none := by
  rw [h.at?, if_neg hne, if_pos rfl]

lemma Replaces.at?_of_ne {q : Place} (h : w.Replaces source goal x w') (hsource : q ≠ source)
    (hgoal : q ≠ goal) : w'.at? q = w.at? q := by
  rw [h.at?, if_neg hgoal, if_neg hsource]

/-- Paths lead where they led unless a link was replaced. -/
lemma Replaces.carries (h : w.Replaces source goal x w')
    (hlink : ∀ target, w.at? goal ≠ some (.link target)) : w.Carries w' where
  directory q hq := by
    rw [h.at?_of_ne, hq]
    · rintro rfl
      exact h.isPlain_source.1 hq
    · rintro rfl
      exact h.goal_ne hq
  link q target hq := by
    rw [h.at?_of_ne, hq]
    · rintro rfl
      exact h.isPlain_source.2 target hq
    · rintro rfl
      exact hlink target hq

/-- Paths have led where they lead. -/
lemma Replaces.carries_symm (h : w.Replaces source goal x w') : w'.Carries w := by
  have hold : ∀ q e, w'.at? q = some e → (∀ y, e ≠ .file y) → w.at? q = some e := by
    intro q e hq he
    rw [h.at?] at hq
    split at hq
    · exact absurd (Option.some.inj hq).symm (he x)
    · split at hq
      · cases hq
      · exact hq
  exact ⟨fun q hq => hold q _ hq nofun, fun q target hq => hold q _ hq nofun⟩

/-! ## Changes at some places -/

variable {P Q : Place → Prop}

/-- A workspace with more directories, and with changes at some places that take away no directory
and no link.  So paths to directories still lead there, but a path that led nowhere may come to lead
somewhere. -/
structure Alters (w : Workspace) (P : Place → Prop) (w' : Workspace) : Prop where
  cwd : w'.cwd = w.cwd
  processId : w'.processId = w.processId
  carries : w.Carries w'
  at? : ∀ q, ¬ P q → ∀ e, e ≠ .directory → (w'.at? q = some e ↔ w.at? q = some e)

lemma Alters.mono (h : w.Alters P w') (hPQ : ∀ q, P q → Q q) : w.Alters Q w' :=
  ⟨h.cwd, h.processId, h.carries, fun q hq => h.at? q fun hP => hq (hPQ q hP)⟩

lemma Alters.trans (h : w.Alters P w') (h' : w'.Alters P w'') : w.Alters P w'' where
  cwd := h'.cwd.trans h.cwd
  processId := h'.processId.trans h.processId
  carries := h.carries.trans h'.carries
  at? q hq e he := (h'.at? q hq e he).trans (h.at? q hq e he)

lemma Adds.alters (h : w.Adds w') (P : Place → Prop) : w.Alters P w' :=
  ⟨h.cwd, h.processId, h.carries, fun _ _ _ he => ⟨fun hat => h.at?_eq hat he, h.kept _ _⟩⟩

lemma Sets.alters {e : Option Entry} (h : w.Sets place e w') (hplain : IsPlain (w.at? place)) :
    w.Alters (· = place) w' :=
  ⟨h.cwd, h.processId, h.carries hplain, fun q hq e _ => by rw [h.at?_of_ne hq]⟩

lemma Replaces.alters (h : w.Replaces source goal x w')
    (hlink : ∀ target, w.at? goal ≠ some (.link target)) :
    w.Alters (fun q => q = source ∨ q = goal) w' := by
  refine ⟨h.cwd, h.processId, h.carries hlink, fun q hq e _ => ?_⟩
  rw [not_or] at hq
  rw [h.at?_of_ne hq.1 hq.2]

/-- A scratch file that was not there before is no change. -/
lemma Replaces.alters_of_none (h : w.Replaces source goal x w') (hnone : w.at? source = none)
    (hlink : ∀ target, w.at? goal ≠ some (.link target)) : w.Alters (· = goal) w' := by
  refine ⟨h.cwd, h.processId, h.carries hlink, fun q hq e _ => ?_⟩
  rw [h.at?, if_neg hq]
  split
  · next hsource => rw [hsource, hnone]
  · rfl

/-! ## Names in a folder -/

variable {folder : Path}

/-- The folder is a directory in which the name is that of an entry. -/
def Has (w : Workspace) (folder : Path) (name : String) (entry : Entry) : Prop :=
  ∃ place, w.find folder = .ok (place, .directory) ∧ w.at? (place ++ [name]) = some entry

lemma has_iff (h : w.find folder = .ok (place, .directory)) :
    w.Has folder name entry ↔ w.at? (place ++ [name]) = some entry := by
  constructor
  · rintro ⟨place', hfind, hat⟩
    rw [h] at hfind
    cases hfind
    exact hat
  · intro hat
    exact ⟨place, h, hat⟩

/-- Links in the folder depend on directories and links. -/
lemma has_link_mono {target : String} (hw : w.Carries w') (hcwd : w'.cwd = w.cwd)
    (h : w.Has folder name (.link target)) : w'.Has folder name (.link target) := by
  obtain ⟨place, hfind, hat⟩ := h
  exact ⟨place, find_mono hfind hw hcwd, hw.link _ _ hat⟩

lemma LinkFree.not_has (h : w.LinkFree name) (folder : Path) (target : String) :
    ¬ w.Has folder name (.link target) := by
  rintro ⟨place, -, hat⟩
  exact h place target hat

lemma not_has_link (h : ∀ e ∈ w.entries.toList, e.2.isLink = false) (target : String) :
    ¬ w.Has folder name (.link target) :=
  (linkFree_of_isLink h name).not_has folder target

/-- The folder comes to lead to no directory that was there before, unless it led there.  New
directories may complete a path with dots, like `new/../old`, which then leads to `old`; this is
what is excluded. -/
def Stays (w : Workspace) (folder : Path) (w' : Workspace) : Prop :=
  ∀ place, w'.find folder = .ok (place, .directory) →
    w.find folder = .ok (place, .directory) ∨ w.at? place = none

lemma stays_of_find (h : w.find folder = .ok (place, .directory)) (hw : w.Carries w')
    (hcwd : w'.cwd = w.cwd) : w.Stays folder w' := by
  intro place' hfind
  rw [find_mono h hw hcwd] at hfind
  cases hfind
  exact .inl h

/-- What is in a folder depends on the places that have changed there.  Directories are left out,
since they may have been made anywhere. -/
theorem Alters.has_iff (h : w.Alters P w') (hstays : w.Stays folder w')
    (hP : ∀ dir, w'.find folder = .ok (dir, .directory) → ¬ P (dir ++ [name]))
    (hentry : entry ≠ .directory) : w'.Has folder name entry ↔ w.Has folder name entry := by
  constructor
  · rintro ⟨dir, hfind, hat⟩
    have hold := (h.at? _ (hP dir hfind) entry hentry).1 hat
    rcases hstays dir hfind with hfind' | hnone
    · exact ⟨dir, hfind', hold⟩
    · rw [at?_of_append hold] at hnone
      cases hnone
  · rintro ⟨dir, hfind, hat⟩
    have hfind' := find_mono hfind h.carries h.cwd
    exact ⟨dir, hfind', (h.at? _ (hP dir hfind') entry hentry).2 hat⟩

/-- There is no link at the path of a name in a folder. -/
lemma at?_ne_link_of_ends (hfolder : folder.text ≠ "") (hname : IsFileName name)
    (hlink : ∀ target, ¬ w.Has folder name (.link target))
    (hends : w.Ends (inside folder name) place name) (target : String) :
    w.at? (place ++ [name]) ≠ some (.link target) := by
  intro hat
  obtain ⟨-, -, hfind⟩ := (ends_inside_iff hfolder hname).1 hends
  exact hlink target ⟨place, hfind, hat⟩

/-- What is read is the content of a file in the folder. -/
theorem read_inside_iff (hfolder : folder.text ≠ "") (hname : IsFileName name)
    (hlink : ∀ target, ¬ w.Has folder name (.link target)) :
    w.read (inside folder name) = .ok x ↔
      name.utf8ByteSize ≤ nameLimit ∧ checkText (inside folder name) = .ok () ∧
        w.Has folder name (.file x) := by
  rw [read_iff hname.isName (segments_inside hname) fun _ hends =>
    at?_ne_link_of_ends hfolder hname hlink hends]
  constructor
  · rintro ⟨place, hends, hat⟩
    obtain ⟨hsize, hcheck, hfind⟩ := (ends_inside_iff hfolder hname).1 hends
    exact ⟨hsize, hcheck, place, hfind, hat⟩
  · rintro ⟨hsize, hcheck, place, hfind, hat⟩
    exact ⟨place, (ends_inside_iff hfolder hname).2 ⟨hsize, hcheck, hfind⟩, hat⟩

end Workspace

end IncludeDeps
