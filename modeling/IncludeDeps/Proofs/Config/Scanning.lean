import IncludeDeps.Proofs.Config.Sources
import IncludeDeps.Proofs.Path.Descent

/-!
# Scanning directories for sources

A directory among the sources of a task is scanned, and so is every directory in it.  What is met counts as a
directory if its path leads to one, so links are followed, and nothing is remembered of the directories that
were entered before.

* `Workspace.routesBelow` are the ways to the directories that are entered, one for each time, and
  `Workspace.findings` those to the sources that are listed;
* the scan ends, as every step down makes the path longer (`Workspace.sourcesWithin_eq`);
* no way is gone twice, and one that stays in the tree ends at a place of its own
  (`Workspace.find_or_isDetour`), so that a directory is entered once, if no link below leads to a directory
  (`Workspace.scan_of_directory`).

A link back to the directory takes the scan around, until there are more links in the path than can be
followed: `Workspace.exists_scanned_again`.
-/

namespace IncludeDeps

namespace Workspace

variable {w : Workspace} {dir p : Path} {place : Place} {name : String} {names r s : List String}
  {entry : Entry} {depth depth' : ℕ}

/-! ## Ways -/

/-- The names in the directory to which a path leads. -/
def namesIn (w : Workspace) (dir : Path) : List String :=
  match w.find dir with
  | .ok (place, .directory) => w.names place
  | _ => []

/-- The names of the sources in a directory. -/
def sourceNames (w : Workspace) (dir : Path) : List String :=
  (w.namesIn dir).filter fun name => !w.isDirectory (dir.join ⟨name⟩) && (dir.join ⟨name⟩).isSource

/-- The ways to the directories that `Workspace.sourcesWithin` enters, one for each time. -/
def routesWithin (w : Workspace) : (depth : ℕ) → Path → List (List String)
  | 0, _ => []
  | depth + 1, dir =>
    [] :: (w.namesIn dir).flatMap fun name =>
      if w.isDirectory (dir.join ⟨name⟩) then (w.routesWithin depth (dir.join ⟨name⟩)).map (name :: ·)
      else []

/-- The ways to the directories that `Workspace.sourcesBelow` enters. -/
def routesBelow (w : Workspace) (dir : Path) : List (List String) := w.routesWithin pathLimit dir

/-- The ways to the sources in the directories at the end of the given ones. -/
def findings (w : Workspace) (dir : Path) (routes : List (List String)) : List (List String) :=
  routes.flatMap fun r => (w.sourceNames (dir.descend r)).map fun name => r ++ [name]

/-- The way goes over a link to a directory, and lies in the tree up to there. -/
def IsDetour (w : Workspace) (dir : Path) (place : Place) (r : List String) : Prop :=
  ∃ before name after target, r = before ++ name :: after ∧
    w.at? (place ++ before ++ [name]) = some (.link target) ∧ w.isDirectory (dir.descend (before ++ [name]))

/-! ## Names in a directory -/

/-- No name is listed twice. -/
lemma nodup_names (w : Workspace) (place : Place) : (w.names place).Nodup := by
  have hentries : w.entries.toList.Pairwise fun e f => e.1 ≠ f.1 := by
    refine w.entries.sorted.imp fun {e f} hlt heq => ?_
    have hself : compare f.1 f.1 = .eq := Std.ReflCmp.compare_self
    rw [heq, hself] at hlt
    cases hlt
  -- places below one directory differ in what comes after it
  have hbelow : (w.below place).Pairwise fun e f => e.1 ≠ f.1 := by
    refine hentries.filterMap _ fun e f hne e' he' f' hf' heq => hne ?_
    split at he'
    · next he =>
      split at hf'
      · next hf =>
        cases he'
        cases hf'
        obtain ⟨s, hs⟩ := List.isPrefixOf_iff_prefix.1 (Bool.and_eq_true_iff.1 he).1
        obtain ⟨t, ht⟩ := List.isPrefixOf_iff_prefix.1 (Bool.and_eq_true_iff.1 hf).1
        rw [← hs, ← ht] at heq ⊢
        simpa using heq
      · cases hf'
    · cases he'
  refine hbelow.filterMap _ fun e f hne a ha b hb hab => hne ?_
  subst hab
  split at ha
  · split at hb
    · cases ha
      cases hb
      rfl
    · cases hb
  · cases ha

lemma children_eq (w : Workspace) (dir : Path) :
    w.children dir = (w.namesIn dir).map fun name => dir.join ⟨name⟩ := by
  unfold children namesIn
  rcases w.find dir with e | ⟨place, x | _ | target⟩
  · rfl
  · rfl
  · rfl
  · rfl

lemma nodup_namesIn (w : Workspace) (dir : Path) : (w.namesIn dir).Nodup := by
  unfold namesIn
  split
  · exact nodup_names w _
  · exact .nil

lemma mem_namesIn_iff (hfind : w.find dir = .ok (place, .directory)) :
    name ∈ w.namesIn dir ↔ ∃ entry, w.at? (place ++ [name]) = some entry := by
  rw [namesIn, hfind]
  exact mem_names_iff

lemma exists_find_of_mem_namesIn (h : name ∈ w.namesIn dir) : ∃ place entry,
    w.find dir = .ok (place, .directory) ∧ w.at? (place ++ [name]) = some entry := by
  unfold namesIn at h
  split at h
  · next place hfind =>
    obtain ⟨entry, hat⟩ := mem_names_iff.1 h
    exact ⟨place, entry, hfind, hat⟩
  · cases h

lemma byteSize_of_isDirectory (h : w.isDirectory p) : p.byteSize < pathLimit := by
  unfold isDirectory at h
  split at h
  · next place hfind => exact (checkText_eq_ok_iff.1 (find_eq_iff.1 hfind).check).2
  · cases h

/-! ## The scan ends -/

lemma byteSize_of_mem_namesIn (hw : w.IsOrdinary) (h : name ∈ w.namesIn dir) :
    dir.byteSize + 1 ≤ (dir.join ⟨name⟩).byteSize := by
  obtain ⟨place, entry, -, hat⟩ := exists_find_of_mem_namesIn h
  exact byteSize_extend dir (isFileName_of_at? hw hat)

lemma namesIn_of_long (h : pathLimit ≤ dir.byteSize) : w.namesIn dir = [] := by
  refine List.eq_nil_iff_forall_not_mem.2 fun name hname => ?_
  obtain ⟨place, entry, hfind, -⟩ := exists_find_of_mem_namesIn hname
  have hshort := byteSize_of_isDirectory (w := w) (p := dir) (by rw [isDirectory, hfind])
  omega

lemma sourcesWithin_of_long (h : pathLimit ≤ dir.byteSize) (depth : ℕ) : w.sourcesWithin depth dir = [] := by
  cases depth with
  | zero => rfl
  | succ depth => rw [sourcesWithin, children_eq, namesIn_of_long h, List.map_nil, List.flatMap_nil]

/-- A bound on the depth that leaves room for all paths does not matter, so the scan is the one
without a bound. -/
theorem sourcesWithin_eq (hw : w.IsOrdinary) (h : pathLimit ≤ dir.byteSize + depth)
    (h' : pathLimit ≤ dir.byteSize + depth') : w.sourcesWithin depth dir = w.sourcesWithin depth' dir := by
  induction depth generalizing dir depth' with
  | zero => rw [sourcesWithin_of_long h, sourcesWithin_of_long h]
  | succ depth ih =>
    cases depth' with
    | zero => rw [sourcesWithin_of_long h', sourcesWithin_of_long h']
    | succ depth' =>
      rw [sourcesWithin, sourcesWithin, children_eq]
      refine List.flatMap_congr fun p hp => ?_
      obtain ⟨name, hname, rfl⟩ := List.mem_map.1 hp
      have hbytes := byteSize_of_mem_namesIn hw hname
      have hrest : w.sourcesWithin depth (dir.join ⟨name⟩) = w.sourcesWithin depth' (dir.join ⟨name⟩) :=
        ih (by omega) (by omega)
      rw [hrest]

/-! ## What is listed -/

/-- Of a list in which some elements stand for lists, the others may be put first. -/
lemma flatMap_perm {α β : Type} (l : List α) (d s : α → Bool) (f : α → List β) (g : α → β) :
    (l.flatMap fun a => if d a then f a else if s a then [g a] else []).Perm
      ((l.filter fun a => !d a && s a).map g ++ l.flatMap fun a => if d a then f a else []) := by
  induction l with
  | nil => exact .refl _
  | cons a rest ih =>
    rw [List.flatMap_cons, List.flatMap_cons]
    cases hd : d a with
    | true =>
      rw [List.filter_cons_of_neg (by simp [hd])]
      exact (ih.append_left (f a)).trans (List.perm_append_comm_assoc _ _ _)
    | false =>
      cases hs : s a with
      | true =>
        rw [List.filter_cons_of_pos (by simp [hd, hs])]
        exact ih.cons (g a)
      | false =>
        rw [List.filter_cons_of_neg (by simp [hs])]
        exact ih

lemma findings_map_cons (routes : List (List String)) :
    w.findings dir (routes.map (name :: ·)) = (w.findings (dir.join ⟨name⟩) routes).map (name :: ·) := by
  rw [findings, findings, List.flatMap_map, List.map_flatMap]
  refine List.flatMap_congr fun r _ => ?_
  rw [Path.descend_cons, List.map_map]
  rfl

/-- What a scan lists is what the directories hold that it enters, each as often as it is entered.
-/
theorem sourcesWithin_perm (w : Workspace) (depth : ℕ) (dir : Path) :
    (w.sourcesWithin depth dir).Perm ((w.findings dir (w.routesWithin depth dir)).map dir.descend) := by
  induction depth generalizing dir with
  | zero => exact .refl _
  | succ depth ih =>
    have hhere : w.findings dir (w.routesWithin (depth + 1) dir) =
        (w.sourceNames dir).map ([·]) ++ (w.namesIn dir).flatMap fun name =>
          if w.isDirectory (dir.join ⟨name⟩) then
            (w.findings (dir.join ⟨name⟩) (w.routesWithin depth (dir.join ⟨name⟩))).map (name :: ·)
          else [] := by
      rw [routesWithin, findings, List.flatMap_cons, List.flatMap_assoc]
      refine congrArg₂ (· ++ ·) rfl (List.flatMap_congr fun name _ => ?_)
      split
      · exact findings_map_cons _
      · rfl
    rw [sourcesWithin, children_eq, List.flatMap_map, hhere, List.map_append, List.map_map, List.map_flatMap]
    refine (flatMap_perm _ _ _ _ _).trans (.append (.refl _) (.flatMap_left _ fun name _ => ?_))
    split
    · rw [List.map_map]
      exact ih _
    · exact .refl _

/-- No way is gone twice. -/
lemma nodup_routesWithin (w : Workspace) (depth : ℕ) (dir : Path) : (w.routesWithin depth dir).Nodup := by
  induction depth generalizing dir with
  | zero => exact .nil
  | succ depth ih =>
    refine List.nodup_cons.2 ⟨fun h => ?_, List.nodup_flatMap.2 ⟨fun name _ => ?_, ?_⟩⟩
    · obtain ⟨name, -, hr⟩ := List.mem_flatMap.1 h
      split at hr
      · obtain ⟨r, -, hr⟩ := List.mem_map.1 hr
        cases hr
      · cases hr
    · split
      · exact (ih _).map (List.cons_injective)
      · exact .nil
    · refine (nodup_namesIn w dir).imp fun {name name'} hne r hr hr' => hne ?_
      have hhead : ∀ {name r}, r ∈ (if w.isDirectory (dir.join ⟨name⟩) then
          (w.routesWithin depth (dir.join ⟨name⟩)).map (name :: ·) else []) → r.head? = some name := by
        intro name r hr
        split at hr
        · obtain ⟨r, -, rfl⟩ := List.mem_map.1 hr
          rfl
        · cases hr
      exact Option.some.inj ((hhead hr).symm.trans (hhead hr'))

lemma nodup_findings {routes : List (List String)} (h : routes.Nodup) : (w.findings dir routes).Nodup := by
  refine List.nodup_flatMap.2 ⟨fun r _ => ?_, h.imp fun {r s} hne names hr hs => hne ?_⟩
  · exact ((nodup_namesIn w _).filter _).map fun name name' heq => by simpa using heq
  · obtain ⟨name, -, rfl⟩ := List.mem_map.1 hr
    obtain ⟨name', -, heq⟩ := List.mem_map.1 hs
    exact (List.append_inj' heq rfl).1.symm

/-! ## Where the ways lead -/

/-- Every directory below that is not too deep is entered, by a way that stays in the tree. -/
lemma mem_routesWithin (hw : w.IsOrdinary) (hfind : w.find dir = .ok (place, .directory))
    (hat : w.at? (place ++ r) = some .directory) (hshort : (dir.descend r).byteSize < pathLimit)
    (hdepth : r.length < depth) : r ∈ w.routesWithin depth dir := by
  induction r generalizing dir place depth with
  | nil =>
    obtain ⟨depth, rfl⟩ := Nat.exists_eq_add_of_le' (Nat.one_le_of_lt hdepth)
    exact List.mem_cons_self
  | cons name r ih =>
    obtain ⟨depth, rfl⟩ := Nat.exists_eq_add_of_le' (Nat.one_le_of_lt hdepth)
    rw [List.append_cons] at hat
    obtain ⟨hone, hchild⟩ := find_join_of_below hw hfind hat hshort
    refine List.mem_cons_of_mem _ (List.mem_flatMap.2 ⟨name, (mem_namesIn_iff hfind).2 ⟨_, hone⟩, ?_⟩)
    rw [if_pos (by rw [isDirectory, hchild])]
    exact List.mem_map_of_mem (ih hchild hat hshort (Nat.lt_of_succ_lt_succ hdepth))

/-- A way leads to the place of the same names, unless it goes over a link to a directory.  So
without such links two ways never lead to one directory. -/
theorem find_or_isDetour (hw : w.IsOrdinary) (hfind : w.find dir = .ok (place, .directory))
    (hr : r ∈ w.routesWithin depth dir) :
    w.find (dir.descend r) = .ok (place ++ r, .directory) ∨ w.IsDetour dir place r := by
  induction depth generalizing dir place r with
  | zero => cases hr
  | succ depth ih =>
    rcases List.mem_cons.1 hr with rfl | hr
    · rw [List.append_nil]
      exact .inl hfind
    obtain ⟨name, hname, hr⟩ := List.mem_flatMap.1 hr
    split at hr
    · next hdirectory =>
      obtain ⟨rest, hrest, rfl⟩ := List.mem_map.1 hr
      obtain ⟨entry, hat⟩ := (mem_namesIn_iff hfind).1 hname
      have hordinary := hw.of_at? hat name (by simp)
      -- a directory has been entered: either it is there by this name, or the name is that of a
      -- link
      cases entry with
      | file x =>
        rw [isDirectory_join hordinary.1 hordinary.2 hfind hat] at hdirectory
        cases hdirectory
      | link target => exact .inr ⟨[], name, rest, target, rfl, by simpa using hat, hdirectory⟩
      | directory =>
        have hchild := find_join hordinary.1 hordinary.2 hfind (byteSize_of_isDirectory hdirectory) hat nofun
        rcases ih hchild hrest with hthere | ⟨before, name', after, target, rfl, hlink, hdirectory'⟩
        · left
          rwa [List.append_assoc] at hthere
        · refine .inr ⟨name :: before, name', after, target, rfl, ?_, hdirectory'⟩
          rwa [List.append_cons place]
    · cases hr

/-- The scan of a directory ends, with the sources that lie in the directories that it enters.  A directory is
entered twice only if it is over a link to a directory.  Where no such link is met, every directory is entered
at most once, and every source that is listed is an entry of its own. -/
theorem scan_of_directory (hw : w.IsOrdinary) (hfind : w.find dir = .ok (place, .directory)) :
    w.sourcesAt? dir = some (w.sourcesBelow dir) ∧
      (∀ depth, pathLimit ≤ depth → w.sourcesWithin depth dir = w.sourcesBelow dir) ∧
      (w.sourcesBelow dir).Perm ((w.findings dir (w.routesBelow dir)).map dir.descend) ∧
      (∀ r, w.at? (place ++ r) = some .directory → (dir.descend r).byteSize < pathLimit →
        r ∈ w.routesBelow dir) ∧
      (w.routesBelow dir).Pairwise (fun r s => w.find (dir.descend r) = w.find (dir.descend s) →
        w.IsDetour dir place r ∨ w.IsDetour dir place s) ∧
      ((∀ r ∈ w.routesBelow dir, ¬ w.IsDetour dir place r) →
        ((w.routesBelow dir).map fun r => w.find (dir.descend r)).Nodup ∧
          (w.findings dir (w.routesBelow dir)).Nodup ∧
          ∀ names ∈ w.findings dir (w.routesBelow dir), ∃ entry, w.at? (place ++ names) = some entry) := by
  have hnodup := nodup_routesWithin w pathLimit dir
  -- two ways that lead to one place without a link have the same names
  have hpairwise : (w.routesBelow dir).Pairwise fun r s => w.find (dir.descend r) = w.find (dir.descend s) →
      w.IsDetour dir place r ∨ w.IsDetour dir place s := by
    refine hnodup.imp_of_mem fun {r s} hr hs hne heq => ?_
    rcases find_or_isDetour hw hfind hr with hr | hr
    · rcases find_or_isDetour hw hfind hs with hs | hs
      · rw [hr, hs] at heq
        have hsame : place ++ r = place ++ s := by simpa using heq
        exact absurd (List.append_cancel_left hsame) hne
      · exact .inr hs
    · exact .inl hr
  refine ⟨?_, fun depth hdepth => ?_, sourcesWithin_perm w _ dir, fun r hat hshort => ?_, hpairwise,
    fun hplain => ⟨?_, nodup_findings hnodup, fun names hnames => ?_⟩⟩
  · rw [sourcesAt?, if_pos (by rw [isDirectory, hfind])]
  · exact sourcesWithin_eq hw (hdepth.trans (Nat.le_add_left _ _)) (Nat.le_add_left _ _)
  · -- every name on the way takes a byte at least
    have hbytes : dir.byteSize + r.length ≤ (dir.descend r).byteSize :=
      byteSize_extend dir (isFileName_of_at? hw hat)
    exact mem_routesWithin hw hfind hat hshort (by omega)
  · exact List.pairwise_map.2 (hpairwise.imp_of_mem fun hr hs h heq =>
      (h heq).elim (hplain _ hr) (hplain _ hs))
  · obtain ⟨r, hr, hnames⟩ := List.mem_flatMap.1 hnames
    obtain ⟨name, hname, rfl⟩ := List.mem_map.1 hnames
    have hthere := (find_or_isDetour hw hfind hr).resolve_right (hplain r hr)
    obtain ⟨entry, hat⟩ := (mem_namesIn_iff hthere).1 (List.mem_filter.1 hname).1
    exact ⟨entry, by rwa [← List.append_assoc]⟩

/-- A directory with one in it, with sources in both, a link to one of these, and a link to nothing. -/
def branching : Workspace :=
  (((((Workspace.bare ["p"] 1).put ["p"] "src" .directory).put ["p", "src"] "a.c" (.file default)).put
    ["p", "src"] "sub" .directory).put ["p", "src", "sub"] "b.c" (.file default)).put ["p", "src"] "l.c"
    (.link "sub/b.c") |>.put ["p", "src", "sub"] "x" (.link "gone")

/-- Links that lead to no directory do not lead the scan astray. -/
theorem scan_of_directory_branching :
    branching.routesBelow ⟨"/p/src"⟩ = [[], ["sub"]] ∧
      branching.sourcesBelow ⟨"/p/src"⟩ = [⟨"/p/src/a.c"⟩, ⟨"/p/src/l.c"⟩, ⟨"/p/src/sub/b.c"⟩] ∧
      ((branching.routesBelow ⟨"/p/src"⟩).map fun r => branching.find (Path.descend ⟨"/p/src"⟩ r)).Nodup := by
  have hfacts : branching.IsOrdinary ∧ branching.find ⟨"/p/src"⟩ = .ok (["p", "src"], .directory) ∧
      branching.routesBelow ⟨"/p/src"⟩ = [[], ["sub"]] ∧
      branching.sourcesBelow ⟨"/p/src"⟩ = [⟨"/p/src/a.c"⟩, ⟨"/p/src/l.c"⟩, ⟨"/p/src/sub/b.c"⟩] ∧
      branching.at? ["p", "src", "sub"] = some .directory := by
    decide +kernel
  obtain ⟨hordinary, hfind, hroutes, hsources, hsub⟩ := hfacts
  obtain ⟨-, -, -, -, -, hplain⟩ := scan_of_directory hordinary hfind
  refine ⟨hroutes, hsources, (hplain fun r hr => ?_).1⟩
  rintro ⟨before, name, after, target, rfl, hlink, -⟩
  rw [hroutes] at hr
  -- the only step that is taken is the one to the directory `sub`
  cases before with
  | nil =>
    obtain ⟨rfl, rfl⟩ : name = "sub" ∧ after = [] := by simpa using hr
    rw [show (["p", "src"] ++ [] ++ ["sub"] : Place) = ["p", "src", "sub"] from rfl, hsub] at hlink
    cases hlink
  | cons first before => simp at hr

/-- A directory with a source, and with a link back to the directory. -/
def circular : Workspace :=
  (((Workspace.bare ["p"] 1).put ["p"] "src" .directory).put ["p", "src"] "a.c" (.file default)).put
    ["p", "src"] "l" (.link ".")

/-- The scan enters the directory again over the link, and lists its source once more. -/
theorem exists_scanned_again :
    circular.IsOrdinary ∧ [] ∈ circular.routesBelow ⟨"/p/src"⟩ ∧ ["l"] ∈ circular.routesBelow ⟨"/p/src"⟩ ∧
      circular.find ⟨"/p/src"⟩ = .ok (["p", "src"], .directory) ∧
      circular.find ⟨"/p/src/l"⟩ = .ok (["p", "src"], .directory) ∧
      ⟨"/p/src/a.c"⟩ ∈ circular.sourcesBelow ⟨"/p/src"⟩ ∧
      ⟨"/p/src/l/a.c"⟩ ∈ circular.sourcesBelow ⟨"/p/src"⟩ := by
  decide +kernel

end Workspace

end IncludeDeps
