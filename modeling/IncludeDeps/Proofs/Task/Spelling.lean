import IncludeDeps.Proofs.Config.Sources
import IncludeDeps.Proofs.Headers.Recording
import IncludeDeps.Proofs.Path.Normal
import IncludeDeps.Proofs.Rounds

/-!
# How a task writes paths

The include roots of a task are absolute, but may be written with `.` and `..`.  They are normalised before
headers are searched in them, so all paths of the state are reduced, and with them all headers that were
found: `TaskState.IsReduced` goes from the sources and the roots along every include
(`PassContext.Passes.isReduced_state`).

The files under the include roots are listed below the roots as they were given, though
(`HeaderMap.extends_of_underRoots`).  So where an expression could not be expanded, a header has a normal
path if and only if its root has no `..` in it (`Task.spells_of_detect`), and one header may be named twice
(`Task.exists_spelled_twice`).
-/

namespace IncludeDeps

/-- What every step of a run through a list keeps, the run keeps. -/
lemma Except.keeps_of_foldlM {ε α β : Type} {f : β → α → Except ε β} {P : β → Prop} {l : List α}
    {b b' : β} (hstep : ∀ b, ∀ x ∈ l, ∀ b', f b x = .ok b' → P b → P b')
    (h : l.foldlM f b = .ok b') (hb : P b) : P b' := by
  induction l generalizing b with
  | nil =>
    cases h
    exact hb
  | cons x rest ih =>
    rw [List.foldlM_cons] at h
    obtain ⟨b₁, hx, hrest⟩ := Except.exists_of_bind h
    exact ih (fun b y hy => hstep b y (List.mem_cons_of_mem _ hy)) hrest
      (hstep b x List.mem_cons_self b₁ hx hb)

lemma OrderedSet.eq_of_compare {α : Type} [Ord α] [Std.TransOrd α] {s : OrderedSet α} {a b : α}
    (ha : a ∈ s.toList) (hb : b ∈ s.toList) (h : compare a b = .eq) : a = b := by
  have hsymm : Std.Symm fun a b : α => compare a b = .eq → a = b :=
    ⟨fun a b hab h => (hab (Std.OrientedCmp.eq_symm h)).symm⟩
  have hsorted : s.toList.Pairwise fun a b => compare a b = .eq → a = b := by
    refine s.sorted.imp fun {a b} hlt heq => ?_
    rw [hlt] at heq
    cases heq
  exact hsorted.forall_of_forall (fun _ _ _ => rfl) ha hb h

/-! ## The files under the include roots -/

namespace HeaderMap

variable {w : Workspace} {m : HeaderMap} {target : String} {root p q : Path} {files roots : List Path}
  {e : String × Path}

/-- A file below a directory is named by the directory, as it is written, and the names of entries. -/
lemma extends_of_mem_filesBelow (hw : w.IsOrdinary) (h : filesBelow w root = .ok files)
    (hp : p ∈ files) : root.Extends p := by
  unfold filesBelow at h
  obtain ⟨⟨place, entry⟩, -, h⟩ := Except.exists_of_bind h
  obtain ⟨found, hfound, h⟩ := Except.exists_of_bind h
  cases h
  obtain ⟨x, hx, rfl⟩ := List.mem_filterMap.1 hp
  obtain ⟨⟨names, entry⟩, hbelow, heq⟩ := (Except.exists_of_mapM hfound).2 _ hx
  have hpath : p = root.extend (names.map .name) := by
    simp only at heq
    split at heq
    · obtain ⟨y, -, heq⟩ := Except.exists_of_bind heq
      cases heq
    · split at heq
      · cases heq
        rfl
      · cases heq
  refine ⟨names, fun s hs => ?_, hpath⟩
  have hat := Workspace.at?_of_mem_below (List.ne_nil_of_mem hs) hbelow
  exact (hw.of_at? hat s (List.mem_append_right _ hs)).1.toIsFileName

lemma mem_pairs_add (h : e ∈ (m.add target q).pairs) : e ∈ m.pairs ∨ e.2 = q := by
  obtain ⟨target', p⟩ := e
  obtain ⟨l, hl, hp⟩ := mem_pairs_iff.1 h
  rw [add, OrderedMap.get?_insert] at hl
  split at hl
  · next htarget =>
    obtain rfl : target' = target := Std.LawfulEqCmp.eq_of_compare htarget
    cases hl
    refine (OrderedSet.mem_insert hp).symm.imp_left fun hold => ?_
    cases hget : m.get? target' with
    | none =>
      rw [hget] at hold
      cases hold
    | some l => exact mem_pairs_iff.2 ⟨l, hget, by rw [hget] at hold; exact hold⟩
  · exact .inl (mem_pairs_iff.2 ⟨l, hl, hp⟩)

lemma mem_pairs_foldl_add {key : Path → String}
    (h : e ∈ HeaderMap.pairs (files.foldl (fun m p => m.add (key p) p) m)) :
    e ∈ m.pairs ∨ e.2 ∈ files := by
  induction files generalizing m with
  | nil => exact .inl h
  | cons q rest ih =>
    rcases ih h with h | h
    · rcases mem_pairs_add h with h | h
      · exact .inl h
      · exact .inr (h ▸ List.mem_cons_self)
    · exact .inr (List.mem_cons_of_mem _ h)

/-- What is listed under the include roots is named by one of them, as it was given, with names
after it.  So a `..` in the root stays in the path. -/
theorem extends_of_underRoots (hw : w.IsOrdinary) (h : underRoots w roots = .ok m) :
    ∀ e ∈ m.pairs, ∃ root ∈ roots, root.Extends e.2 := by
  refine Except.keeps_of_foldlM (P := fun m : HeaderMap => ∀ e ∈ m.pairs, ∃ root ∈ roots, root.Extends e.2)
    (fun m root hroot m' hstep hm => ?_) h fun e he => (nomatch he)
  obtain ⟨files, hfiles, rfl⟩ := exists_filesBelow hstep
  intro e he
  rcases mem_pairs_foldl_add he with he | he
  · exact hm e he
  · exact ⟨root, (List.mem_filter.1 hroot).1, extends_of_mem_filesBelow hw hfiles he⟩

end HeaderMap

/-! ## What was found -/

namespace Search

variable {s : Search} {t : MacroTable} {p : Path} {d : Directives} {r : ResolvedInclude} {loc : Location}
  {dirs : List Path} {dir : Path} {kind : IncludeKind} {target : String}

lemma isReduced_of_mem_directories (hroots : ∀ root ∈ s.roots, root.IsReduced) (hp : p.IsReduced)
    (h : dir ∈ s.directories p kind) : dir.IsReduced := by
  cases kind with
  | quoted =>
    rcases List.mem_append.1 h with h | h
    · exact hp.parent? (Option.mem_toList.1 h)
    · exact hroots dir h
  | system => exact hroots dir h
  | computed => exact hroots dir h

lemma isReduced_of_find? (hdirs : ∀ dir ∈ dirs, dir.IsReduced) (h : s.find? dirs target = some loc) :
    loc.file.IsReduced ∧ loc.root.IsReduced := by
  obtain ⟨dir, hdir, rfl⟩ := Option.map_eq_some_iff.1 h
  have hreduced := hdirs dir (List.mem_of_find?_eq_some hdir)
  exact ⟨Path.isReduced_normalize (Path.isAbsolute_join hreduced.normal.isAbsolute), hreduced⟩

/-- A header and the directory in which it is found have reduced paths. -/
lemma isReduced_of_mem_resolveAll (hroots : ∀ root ∈ s.roots, root.IsReduced) (hp : p.IsReduced)
    (hr : r ∈ (s.resolveAll t p d).resolved) (hloc : r.location = some loc) :
    loc.file.IsReduced ∧ loc.root.IsReduced := by
  obtain ⟨i, -, hr⟩ := List.mem_flatMap.1 hr
  rcases List.mem_append.1 hr with hr | hr
  · obtain ⟨path, -, rfl⟩ := List.mem_map.1 hr
    exact isReduced_of_find? (fun dir => isReduced_of_mem_directories hroots hp) hloc
  · split at hr
    · cases hr
    · rw [List.mem_singleton.1 hr] at hloc
      cases hloc

end Search

/-- All paths of a state are reduced: those of the sources, of the files, and of the places in which
includes were found. -/
structure TaskState.IsReduced (s : TaskState) : Prop where
  sources : ∀ p ∈ s.sources.toList, p.IsReduced
  files : ∀ p ∈ s.files.keys, p.IsReduced
  locations : ∀ e ∈ s.files.toList, ∀ r ∈ e.2.resolved, ∀ loc, r.location = some loc →
    loc.file.IsReduced ∧ loc.root.IsReduced

namespace PassContext.Passes

variable {c : PassContext} {sources : OrderedSet Path} {pass last : Pass} {p q s : Path} {a : Analysis}
  {d : Draft} {r : ResolvedInclude} {loc : Location}

lemma isReduced_location (h : c.Passes sources pass last a)
    (hroots : ∀ root ∈ c.settings.roots, root.IsReduced) (hp : p.IsReduced)
    (hd : last.files.get? p = some d) (hr : r ∈ d.resolved) (hloc : r.location = some loc) :
    loc.file.IsReduced ∧ loc.root.IsReduced := by
  obtain ⟨leading, -, -, hresolves⟩ := h.exists_resolves hp.canonical
  obtain ⟨n, -, hcollects, -⟩ := hresolves d (Pass.look?_of_get? hd)
  obtain ⟨t, hr⟩ := hcollects.exists_mem_resolveAll hr
  exact Search.isReduced_of_mem_resolveAll hroots hp hr hloc

/-- Where the sources and the include roots have reduced paths, the files to which they lead have them
too. -/
lemma isReduced_of_reaches (h : c.Passes sources pass last a)
    (hroots : ∀ root ∈ c.settings.roots, root.IsReduced) (hs : s.IsReduced)
    (hpath : Relation.ReflTransGen last.Leads s p) : p.IsReduced := by
  induction hpath with
  | refl => exact hs
  | tail _ hlast ih =>
    obtain ⟨d, hd, hq⟩ := hlast
    obtain ⟨r, hr, loc, hloc, rfl⟩ := Draft.mem_next.1 hq
    exact (h.isReduced_location hroots ih hd hr hloc).1

theorem isReduced_state (h : c.Passes sources pass last a)
    (hroots : ∀ root ∈ c.settings.roots, root.IsReduced) (hsources : ∀ s ∈ sources.toList, s.IsReduced) :
    a.state.IsReduced := by
  have hfiles : ∀ p ∈ a.state.files.keys, p.IsReduced := by
    intro p hp
    obtain ⟨hcanonical, d, hd⟩ := h.mem_keys_iff.1 hp
    obtain ⟨s, hs, hpath⟩ := h.isClosed.2 p d hcanonical hd
    exact h.isReduced_of_reaches hroots (hsources s hs) hpath
  refine ⟨by rw [h.sources_eq]; exact hsources, hfiles, fun e he r hr loc hloc => ?_⟩
  have hreduced := hfiles e.1 (List.mem_map_of_mem he)
  have hstate : a.state.files = last.snapshots := by
    rw [h.outcome]
    rfl
  rw [hstate] at he
  obtain ⟨d, hd, heq⟩ := Pass.mem_snapshots he
  rw [heq] at hr
  exact h.isReduced_location hroots hreduced (OrderedMap.get?_of_entry hd) hr hloc

end PassContext.Passes

/-! ## What a task names -/

/-- A task names a header in its outcome, or in the header dependencies file. -/
def Outcome.Names (o : Outcome) (records : List HeaderRecord) (p : Path) : Prop :=
  p ∈ o.headers.toList ∨ ∃ record ∈ records, record.header = p

namespace Task

variable {t : Task} {hasher : Hasher} {w : Workspace} {previous : TaskState} {cache cache' : StateCache}
  {r r' : Run} {a : Analysis} {o : Outcome} {records : List HeaderRecord} {m : HeaderMap}

/-- How a task writes the paths that it names.  The paths of the state, of the sources that have to be
compiled, and of the headers that were found are reduced.  Where all files under the include roots are listed
instead, a header is named by its root as it was given, so its path is normal if and only if there is no `..`
in that of the root. -/
structure Spells (t : Task) (state : TaskState) (o : Outcome) (records : List HeaderRecord) : Prop where
  state : state.IsReduced
  recompile : ∀ p ∈ o.recompile.toList, p.IsReduced
  found : o.isIncomplete = false → ∀ p, o.Names records p → p.IsReduced
  listed : o.isIncomplete → ∀ p, o.Names records p →
    ∃ root ∈ t.roots, root.Extends p ∧ (p.IsNormal ↔ .up ∉ root.components)

/-- Unless `..` in the include roots gets into the way, all headers have normal paths. -/
lemma Spells.isNormal {state : TaskState} (h : t.Spells state o records)
    (hup : o.isIncomplete → ∀ root ∈ t.roots, .up ∉ root.components) {p : Path} (hp : o.Names records p) :
    p.IsNormal := by
  cases hincomplete : o.isIncomplete with
  | false => exact (h.found hincomplete p hp).normal
  | true =>
    obtain ⟨root, hroot, -, hnormal⟩ := h.listed hincomplete p hp
    exact hnormal.2 (hup hincomplete root hroot)

lemma isReduced_state (hroots : ∀ root ∈ t.roots, root.isAbsolute)
    (h : t.analyseIn hasher w previous = .ok a) :
    a.state.IsReduced ∧ (∀ p ∈ a.recompile.toList, p.IsReduced) ∧
      ∀ e ∈ HeaderMap.pairs a.found, e.2.IsReduced := by
  obtain ⟨sources, pass, last, hpass⟩ := passes_of_analyseIn h
  have hsources : ∀ s ∈ sources.toList, s.IsReduced := by
    obtain ⟨l, hl, rfl⟩ := hpass.absolute
    intro s hs
    obtain ⟨p, -, q, hq, rfl⟩ := (RunM.mem_ofList_absoluteAll hl).1 hs
    exact Path.isReduced_normalize (Workspace.isAbsolute_absolute hq)
  have hsettings : ∀ root ∈ (t.context hasher w previous).settings.roots, root.IsReduced := by
    intro root hroot
    obtain ⟨given, hgiven, rfl⟩ := List.mem_map.1 hroot
    exact Path.isReduced_normalize (hroots given hgiven)
  have hstate := hpass.passes.isReduced_state hsettings hsources
  refine ⟨hstate, fun p hp => ?_, fun e he => ?_⟩
  · rw [hpass.outcome] at hp
    exact hsources p (List.mem_filter.1 hp).1
  · obtain ⟨target, q⟩ := e
    exact hstate.files q ((hpass.passes.covers.found target q).1 (HeaderMap.mem_pairs_iff.1 he)).1

/-- What a task names, it writes in this way, if its include roots are absolute.  One header is not named in two
spellings, unless an expression could not be expanded and there is an include root with a `..` in it. -/
theorem spells_of_detect (hw : r.files.IsOrdinary) (hroots : ∀ root ∈ t.roots, root.isAbsolute)
    (h : (t.detect hasher cache).run.run r = (.ok (o, cache'), r')) :
    ∃ a r₁ records, (t.analyse hasher cache).run.run r = (.ok a, r₁) ∧
      (∀ path, t.headerFile = some path → ∃ w, HeaderMap.Installs path records r.files w) ∧
      t.Spells a.state o records ∧
      ((o.isIncomplete → ∀ root ∈ t.roots, .up ∉ root.components) →
        (∀ p, o.Names records p → p.IsNormal) ∧
        (∀ p q, o.Names records p → o.Names records q → p.normalize = q.normalize → compare p q = .eq) ∧
        ∀ p ∈ o.headers.toList, ∀ q ∈ o.headers.toList, p.normalize = q.normalize → p = q) := by
  obtain ⟨a, r₁, m, hanalyse, hcollect, rfl⟩ := collect_of_detect h
  obtain ⟨r₂, hrun, hfiles⟩ : ∃ r₂, (t.analyse hasher cache).run.run r =
      (t.analyseIn hasher r.files (cache.get r.files), r₂) ∧ r₂.files = r.files := analyse_run
  obtain ⟨hin, rfl⟩ := Prod.mk.inj (hanalyse.symm.trans hrun)
  rw [hfiles] at hcollect
  obtain ⟨hstate, hrecompile, hfound⟩ := isReduced_state hroots hin.symm
  -- the records are those of the headers that are collected
  obtain ⟨records, hinstalls, hrecords⟩ : ∃ records,
      (∀ path, t.headerFile = some path → ∃ w, HeaderMap.Installs path records r.files w) ∧
        ∀ record ∈ records, (record.target, record.header) ∈ m.pairs := by
    cases hpath : t.headerFile with
    | none => exact ⟨[], nofun, nofun⟩
    | some path =>
      rcases cases_of_detect h hin.symm hcollect hpath with ⟨err, heq⟩ | ⟨w, -, hwrite, -⟩
      · cases heq
      · obtain ⟨records, hrecords, hinstalls⟩ := HeaderMap.installs_of_write hwrite
        have hlists := HeaderMap.lists_of_records hrecords
        refine ⟨records, fun path' hpath' => ⟨w, Option.some.inj hpath' ▸ hinstalls⟩, ?_⟩
        intro record hrecord
        exact HeaderMap.mem_pairs_iff.2 ((hlists.mem_iff _ _).1 ⟨record, hrecord, rfl, rfl⟩)
  let o : Outcome := ⟨a.recompile, a.removed, m.headers, a.isIncomplete⟩
  -- whatever is named, in the answer or in the file, is a header that was collected
  have hpair : ∀ p, o.Names records p → ∃ target, (target, p) ∈ m.pairs := by
    rintro p (hp | ⟨record, hrecord, rfl⟩)
    · exact HeaderMap.exists_pair_of_mem_headers hp
    · exact ⟨record.target, hrecords record hrecord⟩
  have hspells : t.Spells a.state o records := by
    refine ⟨hstate, hrecompile, fun hprecise p hp => ?_, fun hincomplete p hp => ?_⟩
    · obtain ⟨target, he⟩ := hpair p hp
      rw [collect_of_precise hin.symm hprecise] at hcollect
      cases hcollect
      exact hfound _ he
    · -- in the other case the headers are those under the roots, spelled as the roots are
      obtain ⟨target, he⟩ := hpair p hp
      rw [HeaderMap.collect, if_pos hincomplete] at hcollect
      obtain ⟨root, hroot, hextends⟩ := HeaderMap.extends_of_underRoots hw hcollect _ he
      exact ⟨root, hroot, hextends, hextends.isNormal_iff (hroots root hroot)⟩
  refine ⟨a, r₁, records, hanalyse, hinstalls, hspells, fun hup => ?_⟩
  have hnormal : ∀ p, o.Names records p → p.IsNormal := fun p => hspells.isNormal hup
  have hsame : ∀ p q, o.Names records p → o.Names records q → p.normalize = q.normalize →
      compare p q = .eq := fun p q hp hq => (hnormal p hp).compare_eq_of_normalize_eq (hnormal q hq)
  refine ⟨hnormal, hsame, fun p hp q hq hequal => ?_⟩
  exact OrderedSet.eq_of_compare hp hq (hsame p q (.inl hp) (.inl hq) hequal)

/-- The task of compiling a source with something that cannot be expanded, with an include root that is
written with a `.` and two slashes. -/
def dottedTask : Task := { unknownTask [⟨"/p/.//"⟩] with headerFile := some ⟨"/p/deps"⟩ }

/-- The header is named as its root is written, and this is a normal path. -/
theorem spells_of_detect_dotted : unknown.files.IsOrdinary ∧ (∀ root ∈ dottedTask.roots, root.isAbsolute) ∧
    ∃ o cache' r' a r₁ records,
      (dottedTask.detect contentHasher (.memory none)).run.run unknown = (.ok (o, cache'), r') ∧
      (dottedTask.analyse contentHasher (.memory none)).run.run unknown = (.ok a, r₁) ∧
      o.isIncomplete ∧ ⟨"/p/.//b.h"⟩ ∈ o.headers.toList ∧ dottedTask.Spells a.state o records ∧
      (∀ root ∈ dottedTask.roots, .up ∉ root.components) ∧ ∀ p, o.Names records p → p.IsNormal := by
  have hfacts : unknown.files.IsOrdinary ∧ (∀ root ∈ dottedTask.roots, root.isAbsolute) ∧
      ∀ root ∈ dottedTask.roots, .up ∉ root.components := by
    decide +kernel
  obtain ⟨hordinary, hroots, hup⟩ := hfacts
  have hfindings : (dottedTask.detect contentHasher (.memory none)).run.run
      unknown |>.1.toOption.any fun x => x.1.isIncomplete ∧ ⟨"/p/.//b.h"⟩ ∈ x.1.headers.toList := by
    decide +kernel
  obtain ⟨⟨o, cache'⟩, r', hrun, hfound⟩ := Except.exists_of_any hfindings
  obtain ⟨hincomplete, hheader⟩ := of_decide_eq_true hfound
  obtain ⟨a, r₁, records, hanalyse, -, hspells, hnormal⟩ := spells_of_detect hordinary hroots hrun
  exact ⟨hordinary, hroots, o, cache', r', a, r₁, records, hrun, hanalyse, hincomplete, hheader, hspells,
    hup, (hnormal fun _ => hup).1⟩

/-- A source with something that cannot be expanded, a header under an include root, and a directory beside
the root. -/
def besideDirectory : Run where
  files := (((Workspace.ofTexts "p" [("a.c", "#include UNKNOWN\n")]).put ["p"] "inc" .directory).put
    ["p", "inc"] "x.h" (.file [])).put ["p"] "d" .directory

/-- Where an expression could not be expanded, and an include root is written with a `..`, a header has a path
that is not normal, and is named a second time in its normal path. -/
theorem exists_spelled_twice : ∃ o cache' r' p q,
    ((unknownTask [⟨"/p/inc"⟩, ⟨"/p/d/../inc"⟩]).detect contentHasher (.memory none)).run.run
      besideDirectory = (.ok (o, cache'), r') ∧
    p ∈ o.headers.toList ∧ q ∈ o.headers.toList ∧ p.normalize = q.normalize ∧ p ≠ q ∧ ¬ q.IsNormal := by
  have hfindings : ((unknownTask [⟨"/p/inc"⟩, ⟨"/p/d/../inc"⟩]).detect contentHasher
      (.memory none)).run.run besideDirectory |>.1.toOption.any fun x =>
        ⟨"/p/inc/x.h"⟩ ∈ x.1.headers.toList ∧ ⟨"/p/d/../inc/x.h"⟩ ∈ x.1.headers.toList := by
    decide +kernel
  have hsame : (⟨"/p/inc/x.h"⟩ : Path).normalize = (⟨"/p/d/../inc/x.h"⟩ : Path).normalize := by
    decide +kernel
  have hup : .up ∈ (⟨"/p/d/../inc/x.h"⟩ : Path).components := by decide +kernel
  obtain ⟨⟨o, cache'⟩, r', hrun, hheaders⟩ := Except.exists_of_any hfindings
  obtain ⟨hp, hq⟩ := of_decide_eq_true hheaders
  refine ⟨o, cache', r', _, _, hrun, hp, hq, hsame, by decide, fun hnormal => ?_⟩
  exact ((Path.isNormal_iff.1 hnormal).2 _ hup).2 rfl

end Task

end IncludeDeps
