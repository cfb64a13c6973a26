import IncludeDeps.Proofs.Settings
import IncludeDeps.Proofs.Task.Failure

/-!
# Forgotten states

A state that is not stored stays away whatever happens to other files: only to store a state under its
key brings a file by its name that stands for a state.

* `Workspace.Gains` tells which contents are new after a change;
* `StateStore.Forgets` says that no state is new under a key, and `StateStore.load_of_forgets` that
  nothing is loaded then if nothing was before;
* `Task.forgets_of_detect`: a task forgets every key under which it does not succeed.

A header dependencies file may take the name of the state, but it stands for none
(`HeaderMap.isBlank_content`).
-/

namespace IncludeDeps

open Workspace

/-! ## Contents that stand for no state -/

namespace TaskState

variable {tool : String} {content bs rest : Bytes} {state : TaskState} {header : Header}

/-- No version of the tool takes the content for a state, so a file with this content counts as no
state for all of them. -/
def IsBlank (content : Bytes) : Prop := ∀ tool, (decode tool content).toOption = none

lemma isBlank_nil : IsBlank [] := fun _ => rfl

lemma Header.magic_of_read (h : Header.wire.read bs = some (header, rest)) :
    header.magic.1 = bs.take 4 := by
  obtain ⟨⟨fields, after⟩, hfields, h⟩ := Option.bind_eq_some_iff.1 h
  obtain ⟨⟨magic, bs'⟩, hmagic, hfields⟩ := Option.bind_eq_some_iff.1 hfields
  obtain ⟨⟨others, bs''⟩, -, hfields⟩ := Option.bind_eq_some_iff.1 hfields
  cases hfields
  cases h
  simp only [Wire.raw] at hmagic
  split at hmagic
  · cases hmagic
    rfl
  · cases hmagic

/-- In a file that stands for a state the magic bytes come after the length of the header. -/
lemma magic_of_decode (h : decode tool content = .ok state) : (content.drop 4).take 4 = magic := by
  unfold decode at h
  cases hlength : Bytes.takeNat? 4 content with
  | none =>
    rw [hlength] at h
    cases h
  | some found =>
  obtain ⟨length, rest⟩ := found
  -- the length takes four bytes, and the header is what comes next
  obtain rfl : content.drop 4 = rest := by
    unfold Bytes.takeNat? at hlength
    split at hlength
    · cases hlength
    · cases hlength
      rfl
  rw [hlength] at h
  simp only [bind, Except.bind] at h
  split at h
  · cases h
  cases hheader : Header.wire.read ((content.drop 4).take length) with
  | none =>
    rw [hheader] at h
    cases h
  | some found =>
  obtain ⟨header, after⟩ := found
  rw [hheader] at h
  simp only at h
  split at h
  · cases h
  next hmagic =>
  have hfront := Header.magic_of_read hheader
  have hlong := header.magic.2
  rw [Decidable.not_not] at hmagic
  -- the header is at least as long as the magic bytes, since it was read
  rw [hfront, List.length_take, List.length_take] at hlong
  rw [hfront, List.take_take, Nat.min_eq_left (by omega)] at hmagic
  exact hmagic

end TaskState

namespace HeaderMap

/-- A header dependencies file stands for no state. -/
lemma isBlank_content (records : List HeaderRecord) : TaskState.IsBlank (content records) := by
  intro tool
  cases h : TaskState.decode tool (content records) with
  | error e => rfl
  | ok state =>
    have hmagic := TaskState.magic_of_decode h
    cases records with
    | nil => exact absurd hmagic (by decide)
    | cons r rest =>
      have hline : ∃ rest', content (r :: rest) = Bytes.ofText "\x7b\"include\":" ++ rest' := by
        rw [content, List.map_cons, String.join_cons, HeaderRecord.line]
        simp only [String.append_assoc]
        exact ⟨_, Bytes.ofText_append _ _⟩
      obtain ⟨rest', hline⟩ := hline
      have hfront : Bytes.ofText "\x7b\"include\":" = [123, 34, 105, 110, 99, 108, 117, 100, 101, 34, 58] := by
        decide +kernel
      rw [hline, hfront] at hmagic
      have hbytes : ([99, 108, 117, 100] : Bytes) = TaskState.magic := hmagic
      exact absurd hbytes (by decide)
end HeaderMap

/-! ## New contents -/

namespace Workspace

variable {w w' w'' : Workspace} {dir place : Place} {name : String} {entry : Entry} {p target : Path}
  {x : Bytes} {Q : Bytes → Prop}

/-- The files that are new, or that have changed, have contents of a certain kind. -/
def Gains (w : Workspace) (Q : Bytes → Prop) (w' : Workspace) : Prop :=
  ∀ place x, w'.at? place = some (.file x) → Q x ∨ w.at? place = some (.file x)

lemma Gains.refl (w : Workspace) (Q : Bytes → Prop) : w.Gains Q w := fun _ _ => .inr

lemma Gains.trans (h : w.Gains Q w') (h' : w'.Gains Q w'') : w.Gains Q w'' := by
  intro place x hat
  rcases h' place x hat with hx | hat
  · exact .inl hx
  · exact h place x hat

lemma Adds.gains (h : w.Adds w') (Q : Bytes → Prop) : w.Gains Q w' :=
  fun _ _ hat => .inr (h.at?_eq hat nofun)

/-- What there is after an entry was put somewhere is this entry, or it was there before. -/
lemma eq_or_at?_of_put {q : Place} {e : Entry} (h : (w.put dir name entry).at? q = some e) :
    (q = dir ++ [name] ∧ e = entry) ∨ w.at? q = some e := by
  by_cases hq : q = []
  · rw [hq] at h ⊢
    exact .inr h
  · rw [at?_eq_get? hq] at h ⊢
    unfold put at h
    split at h
    · change (w.entries.insert (dir ++ [name]) entry).get? q = some e at h
      rw [OrderedMap.get?_insert] at h
      split at h
      · next hcompare =>
        cases h
        exact .inl ⟨Std.LawfulEqCmp.eq_of_compare hcompare, rfl⟩
      · exact .inr h
    · exact .inr h

/-- Whether a file can be written does not depend on its content. -/
lemma exists_put_of_write (h : w.write p x = .ok w') : ∃ dir name, w' = w.put dir name (.file x) ∧
    ∀ y, w.write p y = .ok (w.put dir name (.file y)) := by
  unfold write at h ⊢
  obtain ⟨found, hresolve, h⟩ := Except.exists_of_bind h
  rw [hresolve]
  cases found with
  | vacancy dir name =>
    cases h
    exact ⟨dir, name, rfl, fun _ => rfl⟩
  | entry place e =>
    cases e with
    | file content =>
      cases h
      exact ⟨_, _, rfl, fun _ => rfl⟩
    | directory => cases h
    | link target => cases h

lemma carries_of_write (h : w.write p x = .ok w') : w'.Carries w := by
  obtain ⟨dir, name, rfl, -⟩ := exists_put_of_write h
  constructor
  · intro q hq
    exact (eq_or_at?_of_put hq).resolve_left fun heq => nomatch heq.2
  · intro q t hq
    exact (eq_or_at?_of_put hq).resolve_left fun heq => nomatch heq.2

lemma gains_of_write (h : w.write p x = .ok w') (hx : Q x) : w.Gains Q w' := by
  obtain ⟨dir, name, rfl, -⟩ := exists_put_of_write h
  intro q y hat
  rcases eq_or_at?_of_put hat with ⟨-, heq⟩ | hold
  · cases heq
    exact .inl hx
  · exact .inr hold

lemma gains_of_unlink (h : w.unlink p = .ok w') (Q : Bytes → Prop) : w.Gains Q w' := by
  obtain ⟨place, name, e, -, hat, he, rfl⟩ := exists_ends_of_unlink h
  intro q y hy
  rw [at?_remove hat he] at hy
  split at hy
  · cases hy
  · exact .inr hy

/-- The file at the end of a path to which something has been written has this content. -/
lemma Ends.eq_of_write {y : Bytes} (hends : w'.Ends p dir name) (h : w.write p x = .ok w')
    (hat : w'.at? (dir ++ [name]) = some (.file y)) : y = x := by
  obtain ⟨dir', name', hput, -⟩ := exists_put_of_write h
  have hcwd : w.cwd = w'.cwd := by rw [hput, cwd_put]
  have hends' := hends.mono (carries_of_write h) hcwd
  rcases eq_or_at?_of_put (hput ▸ hat) with ⟨-, heq⟩ | hold
  · exact Entry.file.inj heq
  · -- no link was there, so the path led to this place
    have hlink : ∀ target, w.at? (dir ++ [name]) ≠ some (.link target) := by
      intro target hat
      rw [hold] at hat
      cases hat
    have hdirectory : w.at? (dir ++ [name]) ≠ some .directory := by
      intro hat
      rw [hold] at hat
      cases hat
    have hwrite := h
    rw [write, hends'.resolve fun _ => hlink, hold] at hwrite
    simp only [lastFound, bind, Except.bind, pure, Except.pure] at hwrite
    cases hwrite
    rw [List.dropLast_concat, List.getLastD_concat, at?_put hends'.at?_eq hdirectory, if_pos rfl] at hat
    exact (Entry.file.inj (Option.some.inj hat)).symm

/-- A file that is moved is the only one that is new. -/
lemma gains_of_rename (h : w.rename p target = .ok w')
    (hsource : ∀ dir name slash, w.locate p = .ok (.name dir name slash) → ∀ y,
      w.at? (dir ++ [name]) = some (.file y) → Q y) : w.Gains Q w' := by
  unfold rename at h
  obtain ⟨spot, hlocate, h⟩ := Except.exists_of_bind h
  obtain ⟨goal, -, h⟩ := Except.exists_of_bind h
  cases spot with
  | step => cases h
  | name dir name slash =>
  cases goal with
  | step => cases h
  | name dir' name' slash' =>
  dsimp only at h
  split at h
  · cases h
  · cases h
  next entry hdir hat =>
  split at h
  · cases h
  split at h
  · cases h
  cases h
  -- what is at the new place was at the old one, and everything else was there before
  intro q y hy
  rcases eq_or_at?_of_put hy with ⟨-, heq⟩ | hold
  · cases heq
    exact .inl (hsource dir name slash hlocate y hat)
  · rw [at?_remove hat hdir] at hold
    split at hold
    · cases hold
    · exact .inr hold

/-- Where a path ends with a name, that is what is located. -/
lemma ends_of_locate_of_isName {names : List String} {last : String} {slash : Bool}
    (hlast : IsName last) (hp : segments p.text = names ++ [last])
    (h : w.locate p = .ok (.name dir name slash)) : w.Ends p dir name := by
  obtain ⟨hname, hsize, hcheck, hstart, names', slashes, hp', hempty, -, hleads⟩ :=
    exists_leads_of_locate h
  have hnil : slashes = [] := by
    by_contra hne
    have hend : (segments p.text).getLast? = slashes.getLast? := by
      rw [hp', List.getLast?_append_of_ne_nil _ (List.cons_ne_nil _ _), List.getLast?_cons_of_ne_nil hne]
    rw [hp, List.getLast?_concat] at hend
    exact hlast.1 (hempty last (List.mem_of_getLast? hend.symm))
  rw [hnil] at hp'
  exact ⟨hname, hsize, hcheck, hstart, names', hp', hleads⟩

end Workspace

namespace HeaderMap

variable {m : HeaderMap} {path : Path} {digest : Workspace → Path → Except Fault Digest}
  {w w' : Workspace}

lemma gains_cleaned (p : Path) (w : Workspace) (Q : Bytes → Prop) : w.Gains Q (cleaned p w) := by
  unfold cleaned
  cases hunlink : w.unlink p with
  | error e => exact .refl w Q
  | ok v => exact gains_of_unlink hunlink Q

/-- Whatever comes of a header dependencies file, no content is new that stands for a state. -/
lemma gains_publish (m : HeaderMap) (path : Path)
    (digest : Workspace → Path → Except Fault Digest) (w : Workspace) :
    w.Gains TaskState.IsBlank (m.publish path digest w).2 := by
  obtain ⟨names, last, hlast, hp⟩ := exists_segments_scratch w path
  unfold publish
  split
  · exact gains_cleaned _ _ _
  next w₁ hwrite =>
  have hgains := gains_of_write hwrite TaskState.isBlank_nil
  split
  · exact hgains.trans (gains_cleaned _ _ _)
  next records hrecords =>
  split
  · exact hgains.trans (gains_cleaned _ _ _)
  next w₂ hwrite' =>
  have hgains' := hgains.trans (gains_of_write hwrite' (isBlank_content records))
  split
  · exact hgains'.trans (gains_cleaned _ _ _)
  next w₃ hrename =>
  refine hgains'.trans (gains_of_rename hrename fun dir name slash hlocate y hat => ?_)
  have hends := ends_of_locate_of_isName hlast hp hlocate
  rw [hends.eq_of_write hwrite' hat]
  exact isBlank_content records

theorem gains_write {x : Except HeaderFileError Unit}
    (h : (m.write path digest).run.run w = (x, w')) : w.Gains TaskState.IsBlank w' := by
  have hmade := (makes_opened path w).toAdds.gains TaskState.IsBlank
  rw [write_run] at h
  split at h
  · next hrun =>
    obtain rfl : opened path w = _ := congrArg Prod.snd hrun
    cases h
    exact hmade
  · next hrun =>
    obtain rfl : opened path w = _ := congrArg Prod.snd hrun
    cases h
    exact hmade.trans (gains_publish m path digest _)

end HeaderMap

/-! ## Keys under which nothing is stored -/

namespace StateStore

variable {s : StateStore} {key key' : String} {w w' w'' : Workspace} {state : TaskState}
  {done : Bool}

/-- No file by the name of a state is new that stands for a state. -/
def Forgets (key : String) (w w' : Workspace) : Prop :=
  ∀ dir x, w'.at? (dir ++ [fileName key]) = some (.file x) →
    TaskState.IsBlank x ∨ w.at? (dir ++ [fileName key]) = some (.file x)

lemma Forgets.refl (key : String) (w : Workspace) : Forgets key w w := fun _ _ => .inr

lemma Forgets.trans (h : Forgets key w w') (h' : Forgets key w' w'') : Forgets key w w'' := by
  intro dir x hat
  rcases h' dir x hat with hx | hat
  · exact .inl hx
  · exact h dir x hat

lemma forgets_of_gains (h : w.Gains TaskState.IsBlank w') (key : String) : Forgets key w w' :=
  fun _ _ => h _ _

/-- To store a state under another key, or not to come to an end, forgets a key. -/
lemma forgets_of_stops (hlink : ∀ name target, ¬ (s.opened w).Has s.folder name (.link target))
    (h : s.Stops key' state w done w') (hkey : done → Digest.ofText key ≠ Digest.ofText key') :
    Forgets key w w' := by
  obtain ⟨halters, -⟩ := alters_of_stops (hlink _) (hlink _) h
  intro dir x hat
  refine .inr ((halters.at? _ ?_ (.file x) nofun).1 hat)
  rintro (hscratch | ⟨hdone, dir', heq⟩)
  · exact not_isScratch w key' key dir hscratch
  · exact fileName_ne (hkey hdone) (List.append_singleton_inj.1 heq).2

/-- Where nothing was loaded nothing is loaded, unless the folder of the store has come to lead to a
directory that was there before. -/
theorem load_of_forgets (hempty : s.load w key = ∅) (h : Forgets key w w')
    (hlink : ∀ target, ¬ w'.Has s.folder (fileName key) (.link target))
    (hstays : w.Stays s.folder w') : s.load w' key = ∅ := by
  cases hread : w'.read (s.path key) with
  | error e =>
    unfold load
    rw [hread]
  | ok x =>
  have hload : s.load w' key = (TaskState.decode s.tool x).toOption.getD ∅ := by
    unfold load
    rw [hread]
  rw [path_eq, read_inside_iff (folder_text_ne s) (isFileName_fileName key) hlink] at hread
  obtain ⟨hsize, hcheck, dir, hfind, hat⟩ := hread
  rcases h dir x hat with hblank | hold
  · rw [hload, hblank s.tool]
    rfl
  · rcases hstays dir hfind with hfind' | hnone
    · -- the file was there, so it stands for nothing
      have hends : w.Ends (s.path key) dir (fileName key) := by
        rw [path_eq]
        exact (ends_inside_iff (folder_text_ne s) (isFileName_fileName key)).2
          ⟨hsize, hcheck, hfind'⟩
      rw [hload, ← load_of_ends hends hold, hempty]
    · rw [at?_of_append hold] at hnone
      cases hnone

end StateStore

/-! ## Tasks -/

namespace Task

variable {t : Task} {hasher : Hasher} {s : StateStore} {key : String} {r r' : Run} {w w' : Workspace}
  {o : Outcome} {cache cache' : StateCache}

/-- Behind a task that succeeds there are the header dependencies file and the state. -/
lemma exists_publishes_of_detect (h : (t.detect hasher cache).run.run r = (.ok (o, cache'), r')) :
    ∃ state w₁, t.Publishes r.files w₁ ∧
      (cache.set state).run.run w₁ = (.ok cache', r'.files) := by
  have hdetects := detects_of_detect h
  generalize r'.files = w' at hdetects ⊢
  cases hdetects with
  | kept _ _ hpublish hset => exact ⟨_, _, hpublish, hset⟩

lemma Publishes.forgets (h : t.Publishes w w') (key : String) : StateStore.Forgets key w w' := by
  cases h with
  | unwanted => exact .refl key w
  | written hpath hwrite => exact StateStore.forgets_of_gains (HeaderMap.gains_write hwrite) key

/-- There are no links in the folder of a store when the state of a task is stored there. -/
def IsLinkFree (t : Task) (s : StateStore) (w : Workspace) : Prop :=
  ∀ w₁, t.Publishes w w₁ → ∀ name target, ¬ (s.opened w₁).Has s.folder name (.link target)

/-- A task forgets every key under which it does not succeed: a file with the name of the state was
there before, or it is no state.  This includes the header dependencies file, wherever it is
written. -/
theorem forgets_of_detect {x : Except TaskError (Outcome × StateCache)}
    (hlink : t.IsLinkFree s r.files)
    (hkey : x.toBool → Digest.ofText key ≠ Digest.ofText t.name)
    (h : (t.detect hasher (.stored s t.name)).run.run r = (x, r')) :
    StateStore.Forgets key r.files r'.files := by
  have hsaved : ∀ {state : TaskState} {w₁ w₂ : Workspace} {y : Except StoreError StateCache},
      t.Publishes r.files w₁ → ((StateCache.stored s t.name).set state).run.run w₁ = (y, w₂) →
      (y.toBool → Digest.ofText key ≠ Digest.ofText t.name) →
      StateStore.Forgets key r.files w₂ := by
    intro state w₁ w₂ y hpublish hset hkey
    exact (hpublish.forgets key).trans
      (StateStore.forgets_of_stops (hlink w₁ hpublish) (StateStore.stops_of_set hset) hkey)
  cases x with
  | ok found =>
    obtain ⟨state, w₁, hpublish, hset⟩ := exists_publishes_of_detect h
    exact hsaved hpublish hset fun _ => hkey rfl
  | error e =>
    have hfails := fails_of_detect h
    generalize r'.files = w' at hfails ⊢
    cases hfails with
    | unread => exact .refl key _
    | unwritten hpath hwrite =>
      exact StateStore.forgets_of_gains (HeaderMap.gains_write hwrite) key
    | unkept hpublish hset => exact hsaved hpublish hset nofun

end Task

end IncludeDeps
