import IncludeDeps.Proofs.Task.Success
import IncludeDeps.Proofs.Config.Sources
import IncludeDeps.Proofs.Path.Descent

/-!
# The files under the include roots

Where an expression could not be expanded, all files under the include roots are listed, each under the names
that lead to it from its root.

A file is listed if and only if it is reached from a root that is a directory by going down within the tree,
with a link followed at the end only (`Workspace.IsKeyed`).  Its key says how: the root joined with the key is
the path of the file again.  What is listed depends on which roots there are, and not on their order, up to
the spelling of paths: of files with the same key and the same path the first one that is met stays.

* `Workspace.IsListable`: every directory under a root can be looked into;
* `HeaderMap.exists_filesBelow_iff` is one root, and `HeaderMap.exists_listing` all of them, one after the other;
* `HeaderMap.underRoots_of_listable` is the result.
-/

namespace IncludeDeps

namespace Workspace

variable {w : Workspace} {root p : Path} {place : Place} {names : List String} {entry : Entry} {key : String}

/-- Every directory in or under a root can be looked into, under the path by which it is met. -/
def IsListable (w : Workspace) (root : Path) : Prop :=
  ∀ place names, w.find root = .ok (place, .directory) → w.at? (place ++ names) = some .directory →
    w.isDirectory (root.descend names)

/-- The path is that of a file under a root, and the key that by which it is known there.  The file lies in
the tree under the root, or a link to it does, and the key is made of the names on the way. -/
def IsKeyed (w : Workspace) (root : Path) (key : String) (p : Path) : Prop :=
  ∃ place names entry, w.find root = .ok (place, .directory) ∧ names ≠ [] ∧
    w.at? (place ++ names) = some entry ∧ entry ≠ .directory ∧ w.isFile (root.descend names) ∧
      p.components = root.components ++ names.map .name ∧ key = String.intercalate "/" names

lemma isListable_of_not_directory (h : w.isDirectory root = false) : w.IsListable root := by
  intro place names hfind _
  rw [isDirectory, hfind] at h
  cases h

lemma ne_nil_of_mem_below (h : (names, entry) ∈ w.below place) : names ≠ [] := by
  obtain ⟨e, -, heq⟩ := List.mem_filterMap.1 h
  split at heq
  · next hbelow =>
    have hlength := of_decide_eq_true (Bool.and_eq_true_iff.1 hbelow).2
    cases heq
    rw [← List.length_pos_iff, List.length_drop]
    omega
  · cases heq

/-- A root can be listed if all directories under it can be looked into. -/
lemma isListable_iff (hfind : w.find root = .ok (place, .directory)) : w.IsListable root ↔
    ∀ e ∈ w.below place, e.2 = .directory → w.isDirectory (root.descend e.1) := by
  constructor
  · rintro h ⟨names, entry⟩ he rfl
    exact h place names hfind (at?_of_mem_below (ne_nil_of_mem_below he) he)
  · intro h place' names hfind' hat
    obtain rfl : place = place' := (Prod.mk.inj (Except.ok.inj (hfind.symm.trans hfind'))).1
    by_cases hnames : names = []
    · rw [hnames, Path.descend_nil, isDirectory, hfind]
    · exact h (names, .directory) (mem_below hnames hat) rfl

lemma IsKeyed.isDirectory (h : w.IsKeyed root key p) : w.isDirectory root := by
  obtain ⟨place, names, entry, hfind, -⟩ := h
  rw [Workspace.isDirectory, hfind]

/-- The names on the way can be read off the key, and the root joined with them is the file. -/
lemma IsKeyed.join_eq (hw : w.IsOrdinary) (h : w.IsKeyed root key p) : compare (root.join ⟨key⟩) p = .eq := by
  obtain ⟨place, names, entry, hfind, hne, hat, hentry, hfile, hcomponents, rfl⟩ := h
  have hnames := isFileName_of_at? hw hat
  rw [← Path.descend_eq_join hnames hne, Path.compare_eq_iff, Path.components_descend hnames, hcomponents]

end Workspace

namespace HeaderMap

open Workspace (isFileName_of_at?)

variable {w : Workspace} {m : HeaderMap} {root p q : Path} {place : Place} {names : List String}
  {entry : Entry} {key target : String} {files roots : List Path}

/-! ## Maps -/

/-- The path is in the map under the given key, in whatever spelling. -/
def Holds (m : HeaderMap) (key : String) (p : Path) : Prop := ∃ l, m.get? key = some l ∧ l.contains p

/-- There is a header under every key, so the keys are those under which something was found. -/
def IsFilled (m : HeaderMap) : Prop := ∀ key l, m.get? key = some l → ∃ p, l.contains p

lemma contains_getD : ((m.get? key).getD ∅).contains p ↔ m.Holds key p := by
  unfold Holds
  cases hget : m.get? key with
  | none => simp
  | some l => simp

lemma holds_add : (m.add target q).Holds key p ↔ key = target ∧ compare p q = .eq ∨ m.Holds key p := by
  by_cases hkey : key = target
  · subst hkey
    have hself : (m.add key q).get? key = some (((m.get? key).getD ∅).insert q) :=
      OrderedMap.get?_insert_self _ _ _
    rw [Holds, hself]
    simp only [Option.some.injEq, exists_eq_left', true_and]
    rw [OrderedSet.contains_insert, contains_getD]
  · have hother : (m.add target q).get? key = m.get? key := by
      rw [add, OrderedMap.get?_insert, if_neg]
      exact fun h => hkey (Std.LawfulEqCmp.eq_of_compare h)
    rw [Holds, hother, ← Holds]
    simp [hkey]

lemma IsFilled.add (h : m.IsFilled) : (m.add target q).IsFilled := by
  intro key l hl
  rw [HeaderMap.add, OrderedMap.get?_insert] at hl
  split at hl
  · cases hl
    exact ⟨q, (OrderedSet.contains_insert _ _ _).2 (.inl Std.ReflCmp.compare_self)⟩
  · exact h key l hl

lemma IsFilled.contains_keys_iff (h : m.IsFilled) :
    (OrderedSet.ofKeys m).contains key ↔ ∃ p, m.Holds key p := by
  constructor
  · intro hkey
    obtain ⟨key', hmem, hcompare⟩ := OrderedSet.contains_iff.1 hkey
    obtain rfl := Std.LawfulEqCmp.eq_of_compare hcompare
    obtain ⟨⟨key, l⟩, he, rfl⟩ := List.mem_map.1 hmem
    have hl := OrderedMap.get?_of_entry he
    obtain ⟨p, hp⟩ := h key l hl
    exact ⟨p, l, hl, hp⟩
  · rintro ⟨p, l, hl, -⟩
    exact OrderedSet.contains_of_mem (List.mem_map_of_mem (OrderedMap.mem_of_get?_eq_some hl))

/-- Maps in which the same is found have the same keys. -/
lemma IsFilled.keys_eq {m' : HeaderMap} (h : m.IsFilled) (h' : m'.IsFilled)
    (hsame : ∀ key p, m'.Holds key p ↔ m.Holds key p) : m'.keys = m.keys := by
  have heq : OrderedSet.ofKeys m' = OrderedSet.ofKeys m :=
    OrderedSet.ext_of_contains (P := fun _ => True) (fun _ _ _ _ h => Std.LawfulEqCmp.eq_of_compare h)
      (fun _ _ => trivial) (fun _ _ => trivial) fun key _ => by
        rw [h'.contains_keys_iff, h.contains_keys_iff, exists_congr (hsame key)]
  exact congrArg OrderedSet.toList heq

/-- What is put in under its keys is what is found there afterwards, beside what was there. -/
lemma holds_foldl_add {f : Path → String} :
    Holds (files.foldl (fun m p => m.add (f p) p) m) key p ↔
      m.Holds key p ∨ ∃ q ∈ files, key = f q ∧ compare p q = .eq := by
  induction files generalizing m with
  | nil => simp
  | cons q rest ih =>
    rw [List.foldl_cons, ih, holds_add, List.exists_mem_cons_iff, or_assoc, or_left_comm]

lemma IsFilled.foldl_add {f : Path → String} (h : m.IsFilled) :
    IsFilled (files.foldl (fun m p => m.add (f p) p) m) := by
  induction files generalizing m with
  | nil => exact h
  | cons q rest ih => exact ih h.add

/-! ## One root -/

/-- What is listed for something that lies below a root: nothing for a directory, which has to be found
however, and otherwise its path, if it leads to a file. -/
def listedAt (w : Workspace) (root : Path) (e : List String × Entry) : Except Fault (Option Path) := do
  let p := root.descend e.1
  if e.2 = .directory then
    let _ ← w.find p
    return none
  else return if w.isFile p then some p else none

lemma filesBelow_eq (hfind : w.find root = .ok (place, .directory)) :
    filesBelow w root = ((w.below place).mapM (listedAt w root)).map fun found => found.filterMap id := by
  unfold filesBelow
  rw [hfind]
  show (w.below place).mapM (listedAt w root) >>= _ = _
  cases (w.below place).mapM (listedAt w root) with
  | error e => rfl
  | ok found => rfl

lemma listedAt_directory (h : w.isDirectory (root.descend names)) :
    listedAt w root (names, .directory) = .ok none := by
  unfold Workspace.isDirectory at h
  unfold listedAt
  split at h
  · next place hfound =>
    rw [if_pos rfl, hfound]
    rfl
  · cases h

lemma listedAt_of_ne (h : entry ≠ .directory) : listedAt w root (names, entry) =
    .ok (if w.isFile (root.descend names) then some (root.descend names) else none) := by
  unfold listedAt
  rw [if_neg h]
  rfl

/-- What is listed is what leads to a file and is no directory. -/
lemma listedAt_eq_some_iff : listedAt w root (names, entry) = .ok (some p) ↔
    entry ≠ .directory ∧ w.isFile (root.descend names) ∧ p = root.descend names := by
  by_cases hentry : entry = .directory
  · subst hentry
    refine iff_of_false (fun h => ?_) fun h => h.1 rfl
    unfold listedAt at h
    rw [if_pos rfl] at h
    cases hfound : w.find (root.descend names) with
    | error e => simp only [hfound] at h; cases h
    | ok found => simp only [hfound] at h; cases h
  · rw [listedAt_of_ne hentry]
    cases hfile : w.isFile (root.descend names) with
    | false => exact iff_of_false nofun fun h => nomatch h.2.1
    | true => simp [hentry, eq_comm]

/-- What is listed under a root are the files that are reached by going down from it.  A link on
the way is not followed, and one at the end counts if it leads to a file. -/
theorem exists_filesBelow_iff (hroot : w.IsListable root) (hfind : w.find root = .ok (place, .directory)) :
    ∃ files, filesBelow w root = .ok files ∧ ∀ p, p ∈ files ↔ ∃ names entry, names ≠ [] ∧
      w.at? (place ++ names) = some entry ∧ entry ≠ .directory ∧ w.isFile (root.descend names) ∧
        p = root.descend names := by
  -- to be listable is just that no directory on the way down fails to be read
  have hall : ∀ e ∈ w.below place, ∃ x, listedAt w root e = .ok x := by
    rintro ⟨names, entry⟩ he
    by_cases hentry : entry = .directory
    · subst hentry
      exact ⟨none, listedAt_directory ((Workspace.isListable_iff hfind).1 hroot (names, .directory) he rfl)⟩
    · exact ⟨_, listedAt_of_ne hentry⟩
  obtain ⟨found, hfound⟩ := Except.exists_mapM_iff.2 hall
  refine ⟨found.filterMap id, by rw [filesBelow_eq hfind, hfound]; rfl, fun p => ?_⟩
  constructor
  · intro hp
    obtain ⟨x, hx, hxp⟩ := List.mem_filterMap.1 hp
    obtain rfl : x = some p := hxp
    obtain ⟨⟨names, entry⟩, he, hlisted⟩ := (Except.exists_of_mapM hfound).2 _ hx
    have hne := Workspace.ne_nil_of_mem_below he
    exact ⟨names, entry, hne, Workspace.at?_of_mem_below hne he, listedAt_eq_some_iff.1 hlisted⟩
  · rintro ⟨names, entry, hne, hat, hlisted⟩
    refine List.mem_filterMap.2 ⟨some p, ?_, rfl⟩
    exact Except.mem_of_mapM hfound (Workspace.mem_below hne hat) (listedAt_eq_some_iff.2 hlisted)

/-- The key of a file is made of the names that lead to it. -/
lemma keyBelow_descend (hw : w.IsOrdinary) (hfind : w.find root = .ok (place, .directory)) (hne : names ≠ [])
    (hat : w.at? (place ++ names) = some entry) :
    keyBelow root (root.descend names) = String.intercalate "/" names := by
  have hroot := Path.components_ne_nil (Workspace.find_eq_iff.1 hfind).text_ne
  obtain ⟨q, hq, hcomponents⟩ := Path.components_relativeTo? (isFileName_of_at? hw hat) hne hroot
  rw [keyBelow, hq, Option.getD_some, hcomponents, List.map_map]
  exact congrArg _ (List.map_id _)

/-- Listing one root puts the files under it to the others. -/
lemma exists_filesBelow_isKeyed_iff (hw : w.IsOrdinary) (hroot : w.IsListable root)
    (hdirectory : w.isDirectory root) :
    ∃ files, filesBelow w root = .ok files ∧ ∀ key p,
      (∃ q ∈ files, key = keyBelow root q ∧ compare p q = .eq) ↔ w.IsKeyed root key p := by
  unfold Workspace.isDirectory at hdirectory
  split at hdirectory
  · next place hfind =>
    obtain ⟨files, hfiles, hmem⟩ := exists_filesBelow_iff hroot hfind
    refine ⟨files, hfiles, fun key p => ?_⟩
    constructor
    · rintro ⟨q, hq, rfl, hcompare⟩
      obtain ⟨names, entry, hne, hat, hentry, hfile, rfl⟩ := (hmem q).1 hq
      have hnames := isFileName_of_at? hw hat
      refine ⟨place, names, entry, hfind, hne, hat, hentry, hfile, ?_, keyBelow_descend hw hfind hne hat⟩
      rw [Path.compare_eq_iff.1 hcompare, Path.components_descend hnames]
    · rintro ⟨place', names, entry, hfind', hne, hat, hentry, hfile, hcomponents, rfl⟩
      obtain rfl : place = place' := (Prod.mk.inj (Except.ok.inj (hfind.symm.trans hfind'))).1
      refine ⟨root.descend names, (hmem _).2 ⟨names, entry, hne, hat, hentry, hfile, rfl⟩,
        (keyBelow_descend hw hfind hne hat).symm, ?_⟩
      rw [Path.compare_eq_iff, Path.components_descend (isFileName_of_at? hw hat), hcomponents]
  · cases hdirectory

/-! ## All roots -/

/-- Listing the roots one after the other puts the files under each of them to those of the others. -/
theorem exists_listing (hw : w.IsOrdinary) (hroots : ∀ root ∈ roots, w.IsListable root)
    (hdirectory : ∀ root ∈ roots, w.isDirectory root) (m : HeaderMap) :
    ∃ m', roots.foldlM (fun m root => do
        let files ← (filesBelow w root).mapError (RootScanError.mk root)
        return files.foldl (fun m p => m.add (keyBelow root p) p) m) m = Except.ok m' ∧
      (m.IsFilled → m'.IsFilled) ∧
      ∀ key p, m'.Holds key p ↔ m.Holds key p ∨ ∃ root ∈ roots, w.IsKeyed root key p := by
  induction roots generalizing m with
  | nil => exact ⟨m, rfl, id, fun key p => by simp⟩
  | cons root rest ih =>
    obtain ⟨files, hfiles, hmem⟩ := exists_filesBelow_isKeyed_iff hw (hroots root List.mem_cons_self)
      (hdirectory root List.mem_cons_self)
    obtain ⟨m', hm', hfilled, hholds⟩ := ih (fun r hr => hroots r (List.mem_cons_of_mem _ hr))
      (fun r hr => hdirectory r (List.mem_cons_of_mem _ hr))
      (files.foldl (fun m p => m.add (keyBelow root p) p) m)
    refine ⟨m', ?_, fun h => hfilled h.foldl_add, fun key p => ?_⟩
    · rw [List.foldlM_cons, hfiles]
      exact hm'
    · rw [hholds, holds_foldl_add, hmem, List.exists_mem_cons_iff, or_assoc]

/-- The listing succeeds, with the files under the roots that are directories.  A root that is
none, be it missing or a file, holds nothing and does not make the listing fail. -/
theorem exists_underRoots (hw : w.IsOrdinary) (hroots : ∀ root ∈ roots, w.IsListable root) :
    ∃ m, underRoots w roots = .ok m ∧ m.IsFilled ∧
      ∀ key p, m.Holds key p ↔ ∃ root ∈ roots, w.IsKeyed root key p := by
  have hlistable : ∀ root ∈ roots.filter w.isDirectory, w.IsListable root := fun root hroot =>
    hroots root (List.mem_filter.1 hroot).1
  have hdirectory : ∀ root ∈ roots.filter w.isDirectory, w.isDirectory root := fun root hroot =>
    (List.mem_filter.1 hroot).2
  obtain ⟨m, hm, hfilled, hholds⟩ := exists_listing hw hlistable hdirectory ∅
  refine ⟨m, hm, hfilled nofun, fun key p => ?_⟩
  rw [hholds, or_iff_right (fun ⟨_, h, _⟩ => nomatch h)]
  constructor
  · rintro ⟨root, hroot, hkeyed⟩
    exact ⟨root, (List.mem_filter.1 hroot).1, hkeyed⟩
  · rintro ⟨root, hroot, hkeyed⟩
    exact ⟨root, List.mem_filter.2 ⟨hroot, hkeyed.isDirectory⟩, hkeyed⟩

/-- Where every directory under a root can be looked into, the listing succeeds.  A path is found under a key if
and only if it is that of a file which is reached under this key from one of the roots by going down, and the
root joined with the key is the path again.  Neither the order of the roots nor their repetition matters. -/
theorem underRoots_of_listable (hw : w.IsOrdinary) (hroots : ∀ root ∈ roots, w.IsListable root) :
    ∃ m, underRoots w roots = .ok m ∧
      (∀ key p, (∃ l, m.get? key = some l ∧ l.contains p) ↔ ∃ root ∈ roots, w.IsKeyed root key p) ∧
      (∀ key l, m.get? key = some l → ∃ p, l.contains p) ∧
      (∀ root key p, w.IsKeyed root key p → compare (root.join ⟨key⟩) p = .eq) ∧
      ∀ roots', (∀ root, root ∈ roots' ↔ root ∈ roots) → ∃ m', underRoots w roots' = .ok m' ∧
        m'.keys = m.keys ∧ ∀ key p, (∃ l, m'.get? key = some l ∧ l.contains p) ↔
          ∃ l, m.get? key = some l ∧ l.contains p := by
  obtain ⟨m, hm, hfilled, hholds⟩ := exists_underRoots hw hroots
  refine ⟨m, hm, hholds, hfilled, fun root key p hkeyed => hkeyed.join_eq hw, fun roots' hsame => ?_⟩
  obtain ⟨m', hm', hfilled', hholds'⟩ :=
    exists_underRoots hw fun root hroot => hroots root ((hsame root).1 hroot)
  have heq : ∀ key p, m'.Holds key p ↔ m.Holds key p := by
    intro key p
    rw [hholds', hholds]
    exact exists_congr fun root => and_congr_left' (hsame root)
  exact ⟨m', hm', hfilled.keys_eq hfilled' heq, heq⟩

/-- An include root with a directory in it, which is a root too, with links to a file and to a directory, with
a link back, and with one to nothing. -/
def linked : Workspace :=
  ((((((Workspace.bare ["p"] 1).put ["p"] "inc" .directory).put ["p", "inc"] "sub" .directory).put
    ["p", "inc", "sub"] "b.h" (.file default)).put ["p", "inc"] "l.h" (.link "sub/b.h")).put
    ["p", "inc"] "d" (.link "sub")).put ["p", "inc", "sub"] "up" (.link "..") |>.put ["p", "inc"] "x.h"
    (.link "gone")

/-- The header in the directory is listed under both roots, and again for the link to it, but not over the
link to the directory. -/
theorem underRoots_of_listable_linked : ∃ m m',
    underRoots linked [⟨"/p/inc"⟩, ⟨"/p/none"⟩, ⟨"/p/inc/sub"⟩] = .ok m ∧
      underRoots linked [⟨"/p/inc/sub"⟩, ⟨"/p/inc/sub"⟩, ⟨"/p/inc"⟩, ⟨"/p/none"⟩] = .ok m' ∧
      m'.keys = m.keys ∧ m.keys = ["b.h", "l.h", "sub/b.h"] ∧
      (∃ l, m'.get? "sub/b.h" = some l ∧ l.contains ⟨"/p/inc/sub/b.h"⟩) ∧
      ∃ l, m'.get? "b.h" = some l ∧ l.contains ⟨"/p/inc/sub/b.h"⟩ := by
  have hinc : linked.find ⟨"/p/inc"⟩ = .ok (["p", "inc"], .directory) := by decide +kernel
  have hsub : linked.find ⟨"/p/inc/sub"⟩ = .ok (["p", "inc", "sub"], .directory) := by decide +kernel
  have hlistable : ∀ root ∈ [⟨"/p/inc"⟩, ⟨"/p/none"⟩, ⟨"/p/inc/sub"⟩], linked.IsListable root := by
    intro root hroot
    simp only [List.mem_cons, List.not_mem_nil, or_false] at hroot
    obtain rfl | rfl | rfl := hroot
    · exact (Workspace.isListable_iff hinc).2 (by decide +kernel)
    · exact Workspace.isListable_of_not_directory (by decide +kernel)
    · exact (Workspace.isListable_iff hsub).2 (by decide +kernel)
  have hkeyed : linked.IsKeyed ⟨"/p/inc"⟩ "sub/b.h" ⟨"/p/inc/sub/b.h"⟩ :=
    ⟨["p", "inc"], ["sub", "b.h"], .file default, hinc, by decide +kernel⟩
  have hkeyed' : linked.IsKeyed ⟨"/p/inc/sub"⟩ "b.h" ⟨"/p/inc/sub/b.h"⟩ :=
    ⟨["p", "inc", "sub"], ["b.h"], .file default, hsub, by decide +kernel⟩
  have hkeys : (underRoots linked [⟨"/p/inc"⟩, ⟨"/p/none"⟩, ⟨"/p/inc/sub"⟩]).toOption.any
      (·.keys = ["b.h", "l.h", "sub/b.h"]) := by decide +kernel
  obtain ⟨m, hm, hholds, -, -, hothers⟩ := underRoots_of_listable (by decide +kernel) hlistable
  obtain ⟨m', hm', hsame, hfound⟩ :=
    hothers [⟨"/p/inc/sub"⟩, ⟨"/p/inc/sub"⟩, ⟨"/p/inc"⟩, ⟨"/p/none"⟩] fun root => by
      simp only [List.mem_cons, List.not_mem_nil, or_false]
      rw [or_self_left, or_rotate]
  rw [hm] at hkeys
  exact ⟨m, m', hm, hm', hsame, of_decide_eq_true hkeys,
    (hfound _ _).2 ((hholds _ _).2 ⟨_, List.mem_cons_self, hkeyed⟩),
    (hfound _ _).2 ((hholds _ _).2
      ⟨_, List.mem_cons_of_mem _ (List.mem_cons_of_mem _ List.mem_cons_self), hkeyed'⟩)⟩

end HeaderMap

end IncludeDeps
