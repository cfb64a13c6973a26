import IncludeDeps.Proofs.Headers.Lines
import IncludeDeps.Proofs.Task.Success

/-!
# Header dependencies files are read back

What was written to a header dependencies file is one record for each pair of an included path and a
header, in order and with the digest of the header (`HeaderMap.Lists`), on a line of its own; and these
records are read back (`HeaderMap.readHeaderFile_of_write`).

Two things can come in between, and both are links.  A link in the place of the scratch file is written
through, and may lead to the place of the file itself.  And the file takes the place of a link, which the
path may need to get to its directory (`HeaderMap.Bypasses`).  In both cases the file is written, and
nothing can be read at its path: `HeaderMap.exists_unreachable`.
-/

namespace IncludeDeps

open Workspace

/-- What comes of a list is what comes of its elements, one by one. -/
lemma Except.forall₂_of_mapM {ε α β : Type} {f : α → Except ε β} {l : List α} {ys : List β}
    (h : l.mapM f = .ok ys) : List.Forall₂ (fun x y => f x = .ok y) l ys := by
  induction l generalizing ys with
  | nil =>
    cases h
    exact .nil
  | cons x rest ih =>
    rw [List.mapM_cons] at h
    obtain ⟨y, hy, h⟩ := Except.exists_of_bind h
    obtain ⟨ys, hys, h⟩ := Except.exists_of_bind h
    cases h
    exact .cons hy (ih hys)

/-- What was replaced might as well have been removed before. -/
lemma Workspace.Replaces.without {w w' v : Workspace} {source goal : Place} {x : Bytes}
    (h : w.Replaces source goal x w') (hset : w.Sets goal none v) : v.Replaces source goal x w' where
  cwd := h.cwd.trans hset.cwd.symm
  processId := h.processId.trans hset.processId.symm
  isPlain_source := by
    rw [hset.at?]
    split
    · exact isPlain_none
    · exact h.isPlain_source
  goal_ne := by
    rw [hset.at?_self]
    nofun
  at? q := by
    rw [h.at?]
    split
    · rfl
    · next hq =>
      split
      · rfl
      · exact (hset.at?_of_ne hq).symm

namespace HeaderMap

variable {m : HeaderMap} {path : Path} {hasher : Workspace → Path → Except Fault Digest}
  {w w' : Workspace} {digest : Path → Except Fault Digest} {records : List HeaderRecord}
  {dir : Place} {name : String}

/-! ## Records in order -/

/-- The order of pairs: by included path, and then by header, compared by its components. -/
def Precedes (e f : String × Path) : Prop :=
  compare e.1 f.1 = .lt ∨ e.1 = f.1 ∧ compare e.2 f.2 = .lt

/-- There is one record for each pair of an included path and a header, with the digest of the header. -/
structure Lists (m : HeaderMap) (digest : Path → Except Fault Digest) (records : List HeaderRecord) :
    Prop where
  mem_iff : ∀ target p, (∃ r ∈ records, r.target = target ∧ r.header = p) ↔
    ∃ l, m.get? target = some l ∧ p ∈ l.toList
  digest : ∀ r ∈ records, ∃ d, digest r.header = .ok d ∧ r.digest = d.hex
  sorted : records.Pairwise fun r s => Precedes (r.target, r.header) (s.target, s.header)

lemma mem_pairs_iff {target : String} {p : Path} :
    (target, p) ∈ m.pairs ↔ ∃ l, m.get? target = some l ∧ p ∈ l.toList := by
  constructor
  · intro h
    obtain ⟨⟨target, l⟩, hl, hp⟩ := List.mem_flatMap.1 h
    obtain ⟨p, hp, heq⟩ := List.mem_map.1 hp
    cases heq
    exact ⟨l, OrderedMap.get?_of_entry hl, hp⟩
  · rintro ⟨l, hl, hp⟩
    exact List.mem_flatMap.2 ⟨(target, l), OrderedMap.mem_of_get?_eq_some hl, List.mem_map.2 ⟨p, hp, rfl⟩⟩

lemma sorted_pairs (m : HeaderMap) : m.pairs.Pairwise Precedes := by
  unfold pairs
  rw [List.pairwise_flatMap]
  constructor
  · intro e _
    rw [List.pairwise_map]
    exact e.2.sorted.imp fun h => .inr ⟨rfl, h⟩
  · refine m.sorted.imp fun {e f} h x hx y hy => ?_
    obtain ⟨p, -, rfl⟩ := List.mem_map.1 hx
    obtain ⟨q, -, rfl⟩ := List.mem_map.1 hy
    exact .inl h

lemma exists_digest_of_record {e : String × Path} {r : HeaderRecord}
    (h : (digest e.2).map (fun d => ⟨e.1, e.2, d.hex⟩) = .ok r) :
    ∃ d, digest e.2 = .ok d ∧ r = ⟨e.1, e.2, d.hex⟩ := by
  cases hd : digest e.2 with
  | error err =>
    rw [hd] at h
    cases h
  | ok d =>
    rw [hd] at h
    exact ⟨d, rfl, (Except.ok.inj h).symm⟩

/-- What is written of the headers, if all of them have digests: the pairs of an included path and
a header, each once and in order, with the digests that the headers have. -/
theorem lists_of_records (h : m.records digest = .ok records) : m.Lists digest records := by
  -- there is one record for each pair, in the order of the pairs, which is sorted
  have hpairs : m.pairs = records.map fun r => (r.target, r.header) := by
    rw [← List.forall₂_eq_eq_eq, List.forall₂_map_right_iff]
    refine (Except.forall₂_of_mapM h).imp fun e r her => ?_
    obtain ⟨d, -, rfl⟩ := exists_digest_of_record her
    rfl
  constructor
  case mem_iff =>
    intro target p
    rw [← mem_pairs_iff, hpairs, List.mem_map]
    simp only [Prod.mk.injEq]
  case digest =>
    intro r hr
    obtain ⟨e, -, her⟩ := (Except.exists_of_mapM h).2 r hr
    obtain ⟨d, hd, rfl⟩ := exists_digest_of_record her
    exact ⟨d, hd, rfl⟩
  case sorted =>
    have hsorted := sorted_pairs m
    rw [hpairs, List.pairwise_map] at hsorted
    exact hsorted

/-! ## The way to the file -/

/-- The path leads to its directory without the link that stands in the place of the file, if there is
one. -/
def Bypasses (path : Path) (w : Workspace) : Prop :=
  ∀ dir name target, (opened path w).Ends path dir name →
    (opened path w).at? (dir ++ [name]) = some (.link target) →
      ((opened path w).remove (dir ++ [name])).Ends path dir name

lemma Bypasses.ends {source : Place} {x : Bytes} (hbypass : Bypasses path w)
    (hends : (opened path w).Ends path dir name)
    (hreplaces : (opened path w).Replaces source (dir ++ [name]) x w') : w'.Ends path dir name := by
  by_cases hlink : ∃ target, (opened path w).at? (dir ++ [name]) = some (.link target)
  · obtain ⟨target, hat⟩ := hlink
    have hremove := sets_remove hat nofun
    have hreplaces' := hreplaces.without hremove
    have hcarries := hreplaces'.carries fun text => by
      rw [hremove.at?_self]
      nofun
    exact (hbypass dir name target hends hat).mono hcarries hreplaces'.cwd
  · exact hends.mono (hreplaces.carries fun target hat => hlink ⟨target, hat⟩) hreplaces.cwd

/-- Where the path leads to a file afterwards, it has led there without the link. -/
lemma bypasses_of_isFile {source : Place} {x : Bytes} (hends : (opened path w).Ends path dir name)
    (hreplaces : (opened path w).Replaces source (dir ++ [name]) x w') (hfile : w'.isFile path) :
    Bypasses path w := by
  have hresolve : ∃ found, w'.resolve .follow path = .ok found := by
    unfold isFile find at hfile
    cases hfound : w'.resolve .follow path with
    | ok found => exact ⟨found, rfl⟩
    | error e =>
      rw [hfound] at hfile
      cases hfile
  obtain ⟨found, hfound⟩ := hresolve
  obtain ⟨names, hp, -⟩ := hends.leads
  obtain ⟨place, hplace⟩ := exists_ends hends.isName hp hfound
  -- the path leads to the same place with the file and with what was there before, since a path
  -- has one end
  obtain ⟨rfl, -⟩ := (hplace.mono hreplaces.carries_symm hreplaces.cwd.symm).unique hends
  intro dir name target hends' hat
  obtain ⟨rfl, rfl⟩ := hends.unique hends'
  have hreplaces' := hreplaces.without (sets_remove hat nofun)
  exact hplace.mono hreplaces'.carries_symm hreplaces'.cwd.symm

/-- No link stands in the place of the scratch file, so that what is written to it is written there
and not behind the link. -/
def IsDirect (path : Path) (w : Workspace) : Prop :=
  ∀ place name, (opened path w).Ends (scratch w path) place name → ∀ target,
    (opened path w).at? (place ++ [name]) ≠ some (.link target)

lemma isDirect_of_linkFree (hname : (segments (scratch w path).text).getLast? = some name)
    (hfree : (opened path w).LinkFree name) : IsDirect path w := by
  intro place name' hends
  obtain ⟨names, hp, -⟩ := hends.leads
  rw [hp, List.getLast?_concat] at hname
  cases hname
  exact hfree place

/-! ## What is read back -/

/-- What was written is read back, one record for each pair of an included path and a header and each on
its line, if no link stood in the place of the scratch file.  The path has to lead to its directory without
the link that the file replaces, if it replaces one; otherwise there is no file at the path. -/
theorem readHeaderFile_of_write (hdirect : IsDirect path w)
    (hwrite : (m.write path hasher).run.run w = (.ok (), w')) :
    ∃ records, m.Lists (hasher (begun path w)) records ∧ (w'.isFile path ↔ Bypasses path w) ∧
      (w'.isFile path → readHeaderFile w' path = .ok records ∧
        ∃ text, w'.readText path = .ok text ∧ (Text.lines text.toList).length = records.length) := by
  have hprocess := (makes_opened path w).processId
  obtain ⟨-, hpublish⟩ := write_eq_ok_iff.1 hwrite
  unfold IsDirect at hdirect
  rw [scratch, ← hprocess, ← scratch] at hdirect
  obtain ⟨w₁, records, place, last, dir, name, hbegin, hrecords, -, hends, hreplaces⟩ :=
    replaces_of_publish hdirect hpublish
  rw [← begun_eq hbegin] at hrecords
  have hread : Bypasses path w → w'.read path = .ok (content records) := by
    intro hbypass
    have hfind := (hbypass.ends hends hreplaces).find_file hreplaces.at?_goal
    unfold Workspace.read
    rw [hfind]
    rfl
  have hfile : w'.isFile path → Bypasses path w := bypasses_of_isFile hends hreplaces
  refine ⟨records, lists_of_records hrecords, ⟨hfile, fun hbypass => isFile_of_read (hread hbypass)⟩, ?_⟩
  intro h
  have hcontent := hread (hfile h)
  exact ⟨readHeaderFile_eq hcontent, text records, readText_eq hcontent,
    by rw [lines_text, List.length_map]⟩

/-- Headers with odd names, under odd paths. -/
def odd : HeaderMap := OrderedMap.ofList [("", OrderedSet.ofList [⟨"/x"⟩]),
  ("\"\\\n\r\t\x00\x7f", OrderedSet.ofList [⟨"/y\n\n"⟩, ⟨"/x"⟩])]

/-- A hasher that does not look at the files. -/
def nameHasher : Workspace → Path → Except Fault Digest :=
  fun _ p => .ok (Digest.ofBytes (Bytes.ofText p.text))

/-- A tree with a link. -/
def linking (name target : String) : Workspace := (Workspace.bare ["p"] 1).put ["p"] name (.link target)

/-- The file takes the place of a link that leads nowhere. -/
theorem readHeaderFile_of_write_odd : ∃ w' records,
    IsDirect ⟨"/p/deps"⟩ (linking "deps" "gone") ∧
      (odd.write ⟨"/p/deps"⟩ nameHasher).run.run (linking "deps" "gone") = (.ok (), w') ∧
      w'.isFile ⟨"/p/deps"⟩ ∧ readHeaderFile w' ⟨"/p/deps"⟩ = .ok records ∧
      odd.Lists (nameHasher (begun ⟨"/p/deps"⟩ (linking "deps" "gone"))) records := by
  have hname : (segments (scratch (linking "deps" "gone") ⟨"/p/deps"⟩).text).getLast? =
      some "deps.tmp.1" := by
    decide +kernel
  have hdirect : IsDirect ⟨"/p/deps"⟩ (linking "deps" "gone") :=
    isDirect_of_linkFree hname (by decide +kernel)
  have hrun : ∃ w', (odd.write ⟨"/p/deps"⟩ nameHasher).run.run (linking "deps" "gone") = (.ok (), w') ∧
      w'.isFile ⟨"/p/deps"⟩ :=
    Computation.exists_of_fst_eq (by decide +kernel)
  obtain ⟨w', hwrite, hfile⟩ := hrun
  obtain ⟨records, hlists, -, hread⟩ := readHeaderFile_of_write hdirect hwrite
  exact ⟨w', records, hdirect, hwrite, hfile, (hread hfile).1, hlists⟩

/-- The file takes the place of the link that its own path goes through, or the scratch file is a link to
where the file is to be.  In both cases it is written, and nothing can be read at its path. -/
theorem exists_unreachable :
    (∃ w', (odd.write ⟨"/p/l/l"⟩ nameHasher).run.run (linking "l" ".") = (.ok (), w') ∧
      readHeaderFile w' ⟨"/p/l/l"⟩ = .error .notADirectory) ∧
    ∃ w', (odd.write ⟨"/p/deps"⟩ nameHasher).run.run (linking "deps.tmp.1" "deps") = (.ok (), w') ∧
      readHeaderFile w' ⟨"/p/deps"⟩ = .error .tooManyLinks :=
  ⟨Computation.exists_of_fst_eq (by decide +kernel), Computation.exists_of_fst_eq (by decide +kernel)⟩

end HeaderMap

end IncludeDeps
