import IncludeDeps.Config.Sources
import IncludeDeps.Proofs.Regrouping
import IncludeDeps.Proofs.Headers
import IncludeDeps.Proofs.Workspace.NormalForm

/-!
# The sources that a configuration gives

The sources of a task are the files that its configuration names, and all sources in and below the
directories that it names.

* `Workspace.Walks` are the directories that are looked into, links to directories among them, and
  `Workspace.Meets` is what is met there;
* `Workspace.HoldsSource` are the sources that must not be missed (`Workspace.mem_sourcesWithin`);
* `Task.ne_source_of_detect`: sources that are files can be read, if their paths are straight;
* `Config.readable_of_task` puts these together.

What is met on the way is told by its name alone, so a link to nothing counts if it has the name of a
source.  A source that is a file may still not be read, because its path is normalised first, and a step
up may take a link away.  Both happen in `Config.exists_unreadable`.
-/

namespace IncludeDeps

/-! ## Sets -/

lemma OrderedSet.mem_insertAll {α : Type} [Ord α] [Std.TransOrd α] {l : List α} {s : OrderedSet α}
    {a : α} (h : a ∈ (s.insertAll l).toList) : a ∈ s.toList ∨ a ∈ l := by
  induction l generalizing s with
  | nil => exact .inl h
  | cons b rest ih =>
    rcases ih h with h | h
    · rcases OrderedSet.mem_insert h with rfl | h
      · exact .inr List.mem_cons_self
      · exact .inl h
    · exact .inr (List.mem_cons_of_mem _ h)

lemma OrderedSet.contains_insertAll {α : Type} [Ord α] [Std.TransOrd α] {l : List α}
    {s : OrderedSet α} {a : α} (h : a ∈ l ∨ s.contains a) : (s.insertAll l).contains a := by
  induction l generalizing s with
  | nil => exact h.resolve_left List.not_mem_nil
  | cons b rest ih =>
    refine ih ?_
    rcases h with h | h
    · rcases List.mem_cons.1 h with rfl | h
      · exact .inr ((OrderedSet.contains_insert _ _ _).2 (.inl Std.ReflCmp.compare_self))
      · exact .inl h
    · exact .inr ((OrderedSet.contains_insert _ _ _).2 (.inr h))

namespace Workspace

open IncludeDeps.Path (Component)

variable {w : Workspace} {dir p : Path} {place : Place} {name : String} {names : List String}
  {entry : Entry} {x : Bytes} {depth : Nat}

/-! ## Directories -/

lemma at?_of_mem_below (hnames : names ≠ []) (h : (names, entry) ∈ w.below place) :
    w.at? (place ++ names) = some entry := by
  obtain ⟨e, he, heq⟩ := List.mem_filterMap.1 h
  split at heq
  · next hbelow =>
    obtain ⟨rfl, rfl⟩ := Prod.mk.inj (Option.some.inj heq)
    obtain ⟨rest, hrest⟩ := List.isPrefixOf_iff_prefix.1 (Bool.and_eq_true_iff.1 hbelow).1
    rw [← hrest, List.drop_left, hrest, at?_eq_get?]
    · exact OrderedMap.get?_eq_some_of_mem he
    · rintro hnil
      rw [hnil] at hnames
      exact hnames List.drop_nil
  · cases heq

lemma mem_names_iff : name ∈ w.names place ↔ ∃ entry, w.at? (place ++ [name]) = some entry := by
  constructor
  · intro h
    obtain ⟨⟨names, entry⟩, hbelow, heq⟩ := List.mem_filterMap.1 h
    split at heq
    · next only heq' =>
      cases heq
      cases heq'
      exact ⟨entry, at?_of_mem_below (List.cons_ne_nil _ _) hbelow⟩
    · cases heq
  · rintro ⟨entry, hat⟩
    exact List.mem_filterMap.2 ⟨([name], entry), mem_below (List.cons_ne_nil _ _) hat, rfl⟩

/-- The children of a directory are the paths of its entries. -/
lemma mem_children_iff : p ∈ w.children dir ↔ ∃ place name entry,
    w.find dir = .ok (place, .directory) ∧ w.at? (place ++ [name]) = some entry ∧
      p = dir.join ⟨name⟩ := by
  constructor
  · intro h
    unfold children at h
    split at h
    · next place hfind =>
      obtain ⟨name, hname, rfl⟩ := List.mem_map.1 h
      obtain ⟨entry, hat⟩ := mem_names_iff.1 hname
      exact ⟨place, name, entry, hfind, hat, rfl⟩
    · cases h
  · rintro ⟨place, name, entry, hfind, hat, rfl⟩
    rw [children, hfind]
    exact List.mem_map_of_mem (mem_names_iff.2 ⟨entry, hat⟩)

/-- All that lies on the way to a directory is directories. -/
lemma at?_of_append_directory (h : w.at? (place ++ names) = some .directory) :
    w.at? place = some .directory := by
  induction names using List.reverseRecOn with
  | nil => rwa [List.append_nil] at h
  | append_singleton names name ih =>
    rw [← List.append_assoc] at h
    exact ih (at?_of_append h)

lemma isFileName_of_at? (hw : w.IsOrdinary) (hat : w.at? (place ++ names) = some entry) :
    ∀ s ∈ names, IsFileName s := fun s hs =>
  (hw.of_at? hat s (List.mem_append_right _ hs)).1.toIsFileName

/-! ## The path of an entry of a directory -/

lemma text_join (dir : Path) (hname : '/' ∉ name.toList) :
    ∃ t, (dir.join ⟨name⟩).text = dir.text ++ t ++ name ∧ (t = "" ∨ t = "/") := by
  unfold Path.join
  rw [if_neg (by rw [Path.isAbsolute_of_slash hname]; exact Bool.false_ne_true)]
  split
  · exact ⟨"", by rw [String.append_empty], .inl rfl⟩
  · exact ⟨"/", rfl, .inr rfl⟩

lemma byteSize_join (dir : Path) (hname : '/' ∉ name.toList) :
    dir.byteSize + name.utf8ByteSize ≤ (dir.join ⟨name⟩).byteSize := by
  obtain ⟨t, ht, -⟩ := text_join dir hname
  rw [Path.byteSize, Path.byteSize, ht, String.utf8ByteSize_append, String.utf8ByteSize_append]
  omega

/-- A path with names after it is longer than the path by a byte for every name. -/
lemma byteSize_extend (dir : Path) (hnames : ∀ s ∈ names, IsFileName s) :
    dir.byteSize + names.length ≤ (dir.extend (names.map .name)).byteSize := by
  induction names generalizing dir with
  | nil => exact Nat.le_refl _
  | cons s rest ih =>
    have hs := hnames s List.mem_cons_self
    have hone := byteSize_join dir hs.slash
    have hrest := ih (dir.join ⟨s⟩) fun t ht => hnames t (List.mem_cons_of_mem _ ht)
    have hsize : 0 < s.utf8ByteSize := by
      rw [Nat.pos_iff_ne_zero]
      intro hzero
      exact hs.isName.1 (String.utf8ByteSize_eq_zero_iff.1 hzero)
    show _ ≤ ((dir.join ⟨s⟩).extend (rest.map .name)).byteSize
    rw [List.length_cons]
    omega

/-- The path of an entry ends with its name, in the directory. -/
lemma ends_join (hname : IsEntryName name) (hsize : name.utf8ByteSize ≤ nameLimit)
    (h : w.find dir = .ok (place, .directory)) (hshort : (dir.join ⟨name⟩).byteSize < pathLimit) :
    w.Ends (dir.join ⟨name⟩) place name := by
  have harrives := find_eq_iff.1 h
  obtain ⟨slash, htext, hslash⟩ := text_join dir hname.slash
  have horigin : origin (dir.join ⟨name⟩).text w.cwd = origin dir.text w.cwd := by
    have hnil : dir.text.toList ≠ [] := by simpa using harrives.text_ne
    rw [origin, origin, htext, String.toList_append, String.toList_append, List.append_assoc,
      List.head?_append, List.head?_eq_some_head hnil]
    rfl
  have hcheck : checkText (dir.join ⟨name⟩) = .ok () := by
    refine checkText_eq_ok_iff.2 ⟨?_, hshort⟩
    rw [htext, String.toList_append, String.toList_append, List.mem_append, List.mem_append]
    rintro ((hin | hin) | hin)
    · exact (checkText_eq_ok_iff.1 harrives.check).1 hin
    · rcases hslash with rfl | rfl
      · cases hin
      · revert hin
        decide
    · exact hname.nul hin
  refine ⟨hname.isName, hsize, hcheck, ?_, ?_⟩
  · rw [horigin]
    exact harrives.start
  rw [horigin]
  obtain ⟨t, ht, ⟨rfl, -⟩ | hdir⟩ := join_cases harrives.text_ne hname.slash
  · exact ⟨segments dir.text, by rw [ht, segments_inside hname.toIsFileName], harrives.leads⟩
  · -- the slash at the end of the directory is the one before the name
    refine ⟨segments t, by rw [ht, segments_inside hname.toIsFileName], ?_⟩
    have hleads := harrives.leads
    rw [hdir, segments_slash, ← hdir] at hleads
    obtain ⟨a, b, mid, hle, hbefore, hlast⟩ := hleads.cut
    rw [hlast.of_empty]
    exact hbefore.weaken (Nat.le_of_add_right_le hle)

/-- The path of an entry leads to it, if it is no link. -/
lemma find_join (hname : IsEntryName name) (hsize : name.utf8ByteSize ≤ nameLimit)
    (h : w.find dir = .ok (place, .directory)) (hshort : (dir.join ⟨name⟩).byteSize < pathLimit)
    (hat : w.at? (place ++ [name]) = some entry) (hentry : ∀ target, entry ≠ .link target) :
    w.find (dir.join ⟨name⟩) = .ok (place ++ [name], entry) := by
  have hends := ends_join hname hsize h hshort
  have hlink : ∀ target, w.at? (place ++ [name]) ≠ some (.link target) := by
    intro target heq
    rw [hat] at heq
    exact hentry target (Option.some.inj heq)
  rw [find, hends.resolve fun _ => hlink, hat]
  rfl

/-- The first of the names that lead to a directory leads to one too. -/
lemma find_join_of_below (hw : w.IsOrdinary) (hfind : w.find dir = .ok (place, .directory))
    (hat : w.at? (place ++ [name] ++ names) = some .directory)
    (hshort : ((dir.join ⟨name⟩).extend (names.map .name)).byteSize < pathLimit) :
    w.at? (place ++ [name]) = some .directory ∧
      w.find (dir.join ⟨name⟩) = .ok (place ++ [name], .directory) := by
  have hone := at?_of_append_directory hat
  have hname := hw.of_at? hone name (by simp)
  have hbytes := byteSize_extend (dir.join ⟨name⟩) (isFileName_of_at? hw hat)
  exact ⟨hone, find_join hname.1 hname.2 hfind ((Nat.le_of_add_right_le hbytes).trans_lt hshort) hone nofun⟩

lemma isDirectory_join (hname : IsEntryName name) (hsize : name.utf8ByteSize ≤ nameLimit)
    (h : w.find dir = .ok (place, .directory)) (hat : w.at? (place ++ [name]) = some (.file x)) :
    w.isDirectory (dir.join ⟨name⟩) = false := by
  unfold isDirectory
  split
  · next place' hfind =>
    have hshort := (checkText_eq_ok_iff.1 (find_eq_iff.1 hfind).check).2
    rw [find_join hname hsize h hshort hat nofun] at hfind
    cases hfind
  · rfl

/-! ## What is found -/

/-- What a path leads to is a directory or a file. -/
lemma isFile_of_pathExists (h : w.pathExists p) (hdirectory : w.isDirectory p = false) : w.isFile p := by
  unfold pathExists at h
  unfold isDirectory at hdirectory
  unfold isFile
  cases hfind : w.find p with
  | error e =>
    rw [hfind] at h
    cases h
  | ok found =>
    obtain ⟨place, entry⟩ := found
    cases entry with
    | file x => rfl
    | directory =>
      rw [hfind] at hdirectory
      cases hdirectory
    | link target => exact absurd rfl (of_find (P := (· ≠ .link target)) nofun (fun _ _ _ => nofun) hfind)

lemma isDirectory_of_isFile (h : w.isFile p) : w.isDirectory p = false := by
  unfold isFile at h
  unfold isDirectory
  split at h
  · next hfind => rw [hfind]
  · cases h

/-! ## Looking for sources -/

/-- The directories that are looked into, when sources are looked for in a directory. -/
inductive Walks (w : Workspace) (dir : Path) : Path → Prop
  | start : Walks w dir dir
  | down {folder p : Path} : Walks w dir folder → p ∈ w.children folder → w.isDirectory p →
    Walks w dir p

/-- The path is met when sources are looked for in a directory, and has the name of one. -/
def Meets (w : Workspace) (dir p : Path) : Prop :=
  ∃ folder, w.Walks dir folder ∧ p ∈ w.children folder ∧ p.isSource

/-- The path is that of a file in a directory or below it, with no link on the way, and has the name of
a source.  The path of the directory in which the file lies is no longer than it may be. -/
def HoldsSource (w : Workspace) (dir p : Path) : Prop :=
  ∃ place names name x, w.find dir = .ok (place, .directory) ∧
    w.at? (place ++ names ++ [name]) = some (.file x) ∧ Path.isSource ⟨name⟩ ∧
      (dir.extend (names.map .name)).byteSize < pathLimit ∧
        p = (dir.extend (names.map .name)).join ⟨name⟩

/-- What is found is met on the way, and is no directory. -/
lemma meets_of_mem_sourcesWithin {top : Path} (hwalks : w.Walks top dir)
    (h : p ∈ w.sourcesWithin depth dir) : w.isDirectory p = false ∧ w.Meets top p := by
  induction depth generalizing dir with
  | zero => cases h
  | succ depth ih =>
    obtain ⟨q, hq, hp⟩ := List.mem_flatMap.1 h
    split at hp
    · next hdirectory => exact ih (.down hwalks hq hdirectory) hp
    next hdirectory =>
    split at hp
    · next hsource =>
      obtain rfl := List.mem_singleton.1 hp
      exact ⟨Bool.eq_false_iff.2 hdirectory, dir, hwalks, hq, hsource⟩
    · cases hp

/-- Whether a path is that of a source depends on its last name. -/
lemma isSource_join (hname : IsFileName name) :
    (dir.join ⟨name⟩).isSource = Path.isSource ⟨name⟩ := by
  have hstep : (Component.name name).IsStep := isStep_iff.2 (.inr ⟨name, rfl, hname⟩)
  have hjoin : (dir.join ⟨name⟩).components = dir.components ++ [.name name] :=
    Path.components_join (c := .name name) hstep
  have hone : Path.components ⟨name⟩ = [.name name] :=
    Path.components_of_isStep (c := .name name) hstep
  have hfile : (dir.join ⟨name⟩).fileName? = Path.fileName? ⟨name⟩ := by
    unfold Path.fileName?
    rw [hjoin, hone, List.getLast?_concat, List.getLast?_singleton]
  unfold Path.isSource Path.extension?
  rw [hfile]

/-- A source in a directory or in one below it is found, if no path on the way is too long. -/
theorem mem_sourcesWithin (hw : w.IsOrdinary) (hfind : w.find dir = .ok (place, .directory))
    (hat : w.at? (place ++ names ++ [name]) = some (.file x)) (hsource : Path.isSource ⟨name⟩)
    (hshort : (dir.extend (names.map .name)).byteSize < pathLimit) (hdepth : names.length < depth) :
    (dir.extend (names.map .name)).join ⟨name⟩ ∈ w.sourcesWithin depth dir := by
  -- on the names of the directories on the way; each of them is entered from the one before
  induction names generalizing dir place depth with
  | nil =>
    obtain ⟨depth, rfl⟩ := Nat.exists_eq_add_of_le' (Nat.one_le_of_lt hdepth)
    rw [List.append_nil] at hat
    obtain ⟨hname, hsize⟩ := hw.of_at? hat name (by simp)
    have hdirectory := isDirectory_join hname hsize hfind hat
    have hmem : dir.join ⟨name⟩ ∈ w.children dir := mem_children_iff.2 ⟨_, _, _, hfind, hat, rfl⟩
    refine List.mem_flatMap.2 ⟨dir.join ⟨name⟩, hmem, ?_⟩
    rw [if_neg (by rw [hdirectory]; exact Bool.false_ne_true), isSource_join hname.toIsFileName,
      if_pos hsource]
    exact List.mem_singleton_self _
  | cons s rest ih =>
    obtain ⟨depth, rfl⟩ := Nat.exists_eq_add_of_le' (Nat.one_le_of_lt hdepth)
    have hbelow : w.at? (place ++ [s] ++ rest ++ [name]) = some (.file x) := by
      rw [List.append_assoc place, List.singleton_append]
      exact hat
    obtain ⟨hdirectory, hchild⟩ := find_join_of_below hw hfind (at?_of_append hbelow) hshort
    have hmem : dir.join ⟨s⟩ ∈ w.children dir := mem_children_iff.2 ⟨_, _, _, hfind, hdirectory, rfl⟩
    refine List.mem_flatMap.2 ⟨dir.join ⟨s⟩, hmem, ?_⟩
    rw [if_pos (by rw [isDirectory, hchild])]
    exact ih hchild hbelow hshort (Nat.lt_of_succ_lt_succ hdepth)

lemma HoldsSource.mem_sourcesBelow (hw : w.IsOrdinary) (h : w.HoldsSource dir p) :
    p ∈ w.sourcesBelow dir := by
  obtain ⟨place, names, name, x, hfind, hat, hsource, hshort, rfl⟩ := h
  refine mem_sourcesWithin hw hfind hat hsource hshort ?_
  -- every name on the way takes a byte at least
  have hnames : ∀ s ∈ names, IsFileName s := fun s hs => (hw.of_at? hat s (by simp [hs])).1.toIsFileName
  have hbytes := byteSize_extend dir hnames
  omega

lemma HoldsSource.isDirectory (h : w.HoldsSource dir p) : w.isDirectory dir := by
  obtain ⟨place, names, name, x, hfind, -⟩ := h
  rw [Workspace.isDirectory, hfind]

end Workspace

/-! ## Sources that cannot be read -/

namespace Task

variable {t : Task} {hasher : Hasher} {cache : StateCache} {r r' : Run}

lemma analyseIn_of_detect {task : String} {p : Path} {fault : Fault}
    (h : (t.detect hasher cache).run.run r = (.error (.source task p fault), r')) :
    t.analyseIn hasher r.files (cache.get r.files) = .error (.source task p fault) := by
  have hdetects := detects_of_detect h
  generalize r'.files = w' at hdetects
  cases hdetects with
  | unread hanalyse => exact hanalyse

/-- Sources that are files can be read, if normalising their paths takes no links away.  So the
task does not fail because of them, whatever else it may fail of. -/
theorem ne_source_of_detect (hw : r.files.IsOrdinary)
    (hsources : ∀ p ∈ t.sources, r.files.isFile p ∧ r.files.IsStraight p)
    (hhasher : ∀ p, r.files.isFile p → ∃ digest, hasher r.files p = .ok digest) {e : TaskError}
    (h : (t.detect hasher cache).run.run r = (.error e, r')) {task : String} {p : Path} {fault : Fault} :
    e ≠ .source task p fault := by
  rintro rfl
  have hanalyse := analyseIn_of_detect h
  -- the analysis reads the normal form, which leads to the same file since no link is taken away
  have hnormal : ∀ p ∈ t.sources, ∃ q, r.files.absolute p = .ok q ∧ r.files.isFile q.normalize := by
    intro p hp
    obtain ⟨hfile, hstraight⟩ := hsources p hp
    unfold Workspace.isFile at hfile
    split at hfile
    · next place x hfind =>
      obtain ⟨q, hq, hnormal⟩ := Workspace.find_normalize hw hfind hstraight
      exact ⟨q, hq, by rw [Workspace.isFile, hnormal]⟩
    · cases hfile
  have hread : ∀ p ∈ t.sources, ∃ q, r.files.absolute p = .ok q ∧
      ∃ d, (t.context hasher r.files (cache.get r.files)).draft q.normalize = .ok d := by
    intro p hp
    obtain ⟨q, hq, hfile⟩ := hnormal p hp
    obtain ⟨digest, hdigest⟩ := hhasher _ hfile
    obtain ⟨x, hx⟩ := Workspace.exists_read_of_isFile hfile
    exact ⟨q, hq, PassContext.exists_draft_of_reads hdigest hx⟩
  obtain ⟨l, pass, last, a, -, ha, -⟩ := exists_passes_of_readable hread
  rw [hanalyse] at ha
  cases ha

end Task

/-! ## The sources of a task -/

namespace Config

variable {c : Config} {w : Workspace} {dir : Path} {name : String} {t : Task} {tc : TaskConfig}
  {s : OrderedSet Path} {p : Path}

/-- The sources of a task are those that its paths stand for. -/
lemma mem_sourcesOf (h : sourcesOf w dir tc = .ok s) :
    (∀ p ∈ s.toList, ∃ text ∈ tc.sources, ∃ l, w.sourcesAt? (within dir text) = some l ∧ p ∈ l) ∧
    ∀ text ∈ tc.sources, ∃ l, w.sourcesAt? (within dir text) = some l ∧ ∀ p ∈ l, s.contains p := by
  unfold sourcesOf at h
  obtain ⟨found, hfound, hs⟩ := Except.exists_of_bind h
  cases hs
  obtain ⟨hto, hof⟩ := Except.exists_of_mapM hfound
  constructor
  · intro p hp
    have hflat := (OrderedSet.mem_insertAll hp).resolve_left List.not_mem_nil
    obtain ⟨l, hl, hp⟩ := List.mem_flatten.1 hflat
    obtain ⟨text, htext, h⟩ := hof l hl
    simp only at h
    split at h
    · next hat =>
      cases h
      exact ⟨text, htext, l, hat, hp⟩
    · cases h
  · intro text htext
    obtain ⟨l, hl, h⟩ := hto text htext
    simp only at h
    split at h
    · next hat =>
      cases h
      exact ⟨l, hat, fun p hp =>
        OrderedSet.contains_insertAll (.inl (List.mem_flatten.2 ⟨l, hl, hp⟩))⟩
    · cases h

lemma isFile_or_meets (h : sourcesOf w dir tc = .ok s) (hp : p ∈ s.toList) :
    w.isFile p ∨ w.isDirectory p = false ∧ ∃ text ∈ tc.sources, w.Meets (within dir text) p := by
  obtain ⟨text, htext, l, hl, hp⟩ := (mem_sourcesOf h).1 p hp
  unfold Workspace.sourcesAt? at hl
  split at hl
  · cases hl
    obtain ⟨hdirectory, hmeets⟩ := Workspace.meets_of_mem_sourcesWithin .start hp
    exact .inr ⟨hdirectory, text, htext, hmeets⟩
  split at hl
  · next hfile =>
    cases hl
    obtain rfl := List.mem_singleton.1 hp
    exact .inl hfile
  · cases hl

lemma contains_of_sourcesOf (hw : w.IsOrdinary) (h : sourcesOf w dir tc = .ok s) {text : String}
    (htext : text ∈ tc.sources)
    (hp : p = within dir text ∧ w.isFile p ∨ w.HoldsSource (within dir text) p) : s.contains p := by
  obtain ⟨l, hl, hcontains⟩ := (mem_sourcesOf h).2 text htext
  apply hcontains
  unfold Workspace.sourcesAt? at hl
  rcases hp with ⟨rfl, hfile⟩ | hholds
  · rw [if_neg (by rw [Workspace.isDirectory_of_isFile hfile]; exact Bool.false_ne_true),
      if_pos hfile] at hl
    cases hl
    exact List.mem_singleton_self _
  · rw [if_pos hholds.isDirectory] at hl
    cases hl
    exact hholds.mem_sourcesBelow hw

/-- The sources of a task of a configuration are in order, and none is missing: every file that is
named is among them, and so is every source in or below a directory that is named.  They are files,
apart from what lies in such a directory, has the name of a source and leads nowhere.  If all of
them lead somewhere, the task does not fail to read one of them, unless its path goes up from a
link.

Two paths are the same source if their components are; the same file may be named twice by paths
that differ.  Nothing is told about files that change between the reading of the configuration and
the task. -/
theorem readable_of_task (hw : w.IsOrdinary) (h : c.task w dir name = .ok t) :
    ∃ tc, c.tasks.get? name = some tc ∧
      (∀ p ∈ t.sources, w.isFile p ∨
        w.pathExists p = false ∧ ∃ text ∈ tc.sources, w.Meets (within dir text) p) ∧
      (t.sources.Pairwise fun p q => compare p q = .lt) ∧
      (∀ text ∈ tc.sources, ∀ p,
        (p = within dir text ∧ w.isFile p ∨ w.HoldsSource (within dir text) p) →
          ∃ q ∈ t.sources, compare p q = .eq) ∧
      ((∀ p ∈ t.sources, w.pathExists p ∧ w.IsStraight p) →
        ∀ hasher : Hasher, (∀ p, w.isFile p → ∃ digest, hasher w p = .ok digest) →
          ∀ cache r r' e, r.files = w → (t.detect hasher cache).run.run r = (.error e, r') →
            ∀ task p fault, e ≠ .source task p fault) := by
  unfold task at h
  cases hget : c.tasks.get? name with
  | none =>
    rw [hget] at h
    cases h
  | some tc =>
    rw [hget] at h
    obtain ⟨s, hs, h⟩ := Except.exists_of_bind h
    cases h
    refine ⟨tc, rfl, fun p hp => ?_, s.sorted, fun text htext p hp => ?_, ?_⟩
    · rcases isFile_or_meets hs hp with hfile | ⟨hdirectory, hmeets⟩
      · exact .inl hfile
      · cases hexists : w.pathExists p with
        | true => exact .inl (Workspace.isFile_of_pathExists hexists hdirectory)
        | false => exact .inr ⟨rfl, hmeets⟩
    · exact OrderedSet.contains_iff.1 (contains_of_sourcesOf hw hs htext hp)
    · -- what is no file leads nowhere, and this is excluded now
      rintro hall hasher hhasher cache r r' e rfl hrun task p fault
      refine Task.ne_source_of_detect hw (fun p hp => ?_) hhasher hrun
      obtain ⟨hexists, hstraight⟩ := hall p hp
      refine ⟨?_, hstraight⟩
      rcases isFile_or_meets hs hp with hfile | ⟨hdirectory, -⟩
      · exact hfile
      · exact Workspace.isFile_of_pathExists hexists hdirectory

/-- A configuration with one task. -/
def ofSources (sources : List String) : Config :=
  ⟨"p", "c", OrderedMap.insert ∅ "t" ⟨sources, [], false, none, ∅⟩⟩

/-- Its task, with the sources that are found. -/
def taskOf (sources : List Path) : Task := ⟨":p:t", sources, [], false, ∅, none⟩

/-- A directory `src` with sources at two levels, another directory, a source beside it, and a link. -/
def nested : Workspace :=
  ((((((Workspace.bare ["p"] 1).put ["p"] "src" .directory).put ["p", "src"] "a.c" (.file default)).put
    ["p", "src"] "sub" .directory).put ["p", "src", "sub"] "b.cpp" (.file default)).put ["p"] "d"
    .directory).put ["p"] "e.m" (.file default) |>.put ["p"] "l" (.link "e.m")

/-- The sources are found by name, in the directory, over a step up, and behind the link. -/
theorem readable_nested :
    ∃ t, (ofSources ["src", "d/../e.m", "src/a.c", "l"]).task nested ⟨"/p"⟩ "t" = .ok t ∧
      t.sources.length = 4 ∧
      (∀ p ∈ t.sources, nested.isFile p) ∧
      ∀ cache r' e, (t.detect contentHasher cache).run.run { files := nested } = (.error e, r') →
        ∀ task p fault, e ≠ .source task p fault := by
  have hfacts : nested.IsOrdinary ∧
      (ofSources ["src", "d/../e.m", "src/a.c", "l"]).task nested ⟨"/p"⟩ "t" =
        .ok (taskOf [⟨"/p/d/../e.m"⟩, ⟨"/p/l"⟩, ⟨"/p/src/a.c"⟩, ⟨"/p/src/sub/b.cpp"⟩]) ∧
      ∀ p ∈ [⟨"/p/d/../e.m"⟩, ⟨"/p/l"⟩, ⟨"/p/src/a.c"⟩, ⟨"/p/src/sub/b.cpp"⟩],
        nested.pathExists p ∧ nested.IsStraight p := by
    decide +kernel
  obtain ⟨hordinary, htask, hall⟩ := hfacts
  obtain ⟨tc, -, hfile, -, -, hdetect⟩ := readable_of_task hordinary htask
  refine ⟨_, htask, rfl, fun p hp => ?_, fun cache r' e hrun => ?_⟩
  · refine (hfile p hp).resolve_right fun h => ?_
    rw [(hall p hp).1] at h
    cases h.1
  · exact hdetect hall contentHasher (fun p => exists_contentHasher) cache _ r' e rfl hrun

/-- A link to a directory, and a source beside this directory. -/
def bent : Workspace :=
  ((((Workspace.bare ["p"] 1).put ["p"] "e" .directory).put ["p", "e"] "f" .directory).put ["p", "e"]
    "b.c" (.file default)).put ["p"] "d" (.link "e/f")

/-- A directory with a link to nothing, which has the name of a source. -/
def dangling : Workspace :=
  ((Workspace.bare ["p"] 1).put ["p"] "src" .directory).put ["p", "src"] "x.c" (.link "gone")

/-- A source that is a file cannot be read, because the step up in its path takes the name of a link
away; and the link to nothing counts as a source. -/
theorem exists_unreadable :
    ((ofSources ["d/../b.c"]).task bent ⟨"/p"⟩ "t" = .ok (taskOf [⟨"/p/d/../b.c"⟩]) ∧
      bent.isFile ⟨"/p/d/../b.c"⟩ ∧
      (((taskOf [⟨"/p/d/../b.c"⟩]).detect contentHasher (.memory none)).run.run { files := bent }).1 =
        .error (.source ":p:t" ⟨"/p/b.c"⟩ .notFound)) ∧
    (ofSources ["src"]).task dangling ⟨"/p"⟩ "t" = .ok (taskOf [⟨"/p/src/x.c"⟩]) ∧
      dangling.isFile ⟨"/p/src/x.c"⟩ = false ∧
      (((taskOf [⟨"/p/src/x.c"⟩]).detect contentHasher (.memory none)).run.run { files := dangling }).1 =
        .error (.source ":p:t" ⟨"/p/src/x.c"⟩ .notFound) := by
  decide +kernel

end Config

end IncludeDeps
