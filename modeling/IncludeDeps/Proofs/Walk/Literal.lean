import IncludeDeps.Proofs.Pass

/-!
# Walks without computed includes

Where no include has to be expanded, the files that a walk enters are those that its source leads
to, whatever the walk knows at its start.

* `PassContext.Includes`: an include of one file is resolved to another;
* `Walk.visited_iff`: a walk enters the closure of its source under `PassContext.Includes`.

That no include has to be expanded is said of the files that the pass knows in the end
(`Pass.IsLiteral`), so it is nothing that would have to hold of files that no walk comes to.
`Search.same_literal_iff` tells when two searches for such an include come to the same: when both
find the same file, or neither finds one.
-/

namespace IncludeDeps

/-- The file `p` can be read, and one of its includes is resolved to `q`. -/
def PassContext.Includes (c : PassContext) (p q : Path) : Prop :=
  ∃ d, c.draft p = .ok d ∧ ∃ i ∈ d.directives.includes, (c.search.literal p i).file? = some q

/-- No file of a pass has an include that has to be expanded. -/
def Pass.IsLiteral (pass : Pass) : Prop :=
  ∀ p d, p.IsCanonical → pass.files.get? p = some d → d.directives.hasComputedIncludes = false

variable {c : PassContext} {p q source : Path} {d : Draft} {pass : Pass} {w w' : Walk}

lemma Search.canonical_literal {s : Search} {i : Include} (h : (s.literal p i).file? = some q) :
    q.IsCanonical := by
  obtain ⟨loc, hloc, rfl⟩ := Option.map_eq_some_iff.1 h
  exact (find?_eq_some hloc).2

/-- Two searches end alike: with one file under one root, however the root is spelled, or both of
them without a file. -/
def EndAlike : Option Location → Option Location → Prop
  | some l, some m => l.file = m.file ∧ l.root.components = m.root.components
  | none, none => True
  | _, _ => False

lemma EndAlike.file_eq {l m : Option Location} (h : EndAlike l m) :
    l.map Location.file = m.map Location.file := by
  cases l with
  | none =>
    cases m with
    | none => rfl
    | some m => cases h
  | some l =>
    cases m with
    | none => cases h
    | some m => exact congrArg some h.1

/-- As paths of files are canonical, files that are the same have the same path. -/
lemma Search.same_literal_iff {s s' : Search} {i : Include} :
    (s.literal p i).same (s'.literal p i) ↔
      EndAlike (s.literal p i).location (s'.literal p i).location := by
  unfold ResolvedInclude.same
  cases hl : (s.literal p i).location with
  | none =>
    cases hm : (s'.literal p i).location with
    | none => simp [EndAlike, literal]
    | some m => simp [EndAlike]
  | some l =>
    cases hm : (s'.literal p i).location with
    | none => simp [EndAlike]
    | some m =>
      have hfile := (find?_eq_some hl).2.compare_eq_iff (find?_eq_some hm).2
      simp [EndAlike, literal, Location.same, Path.same, hfile, Path.compare_eq_iff]

lemma PassContext.Includes.canonical (h : c.Includes p q) : q.IsCanonical := by
  obtain ⟨d, -, i, -, hi⟩ := h
  exact Search.canonical_literal hi

lemma PassContext.canonical_of_includes (hp : p.IsCanonical)
    (h : Relation.ReflTransGen c.Includes p q) : q.IsCanonical := by
  cases h with
  | refl => exact hp
  | tail _ h => exact h.canonical

lemma Draft.Fits.resolved_eq (h : d.Fits c p) (hdone : d.isResolved)
    (hd : d.directives.hasComputedIncludes = false) :
    d.resolved = (distinct d.directives.includes).map (c.search.literal p) := by
  rw [h.literal hdone hd, foldl_addNew_map fun _ => rfl]

lemma Draft.Fits.mem_next_iff (h : d.Fits c p) (hdone : d.isResolved)
    (hd : d.directives.hasComputedIncludes = false) : q ∈ d.next ↔ c.Includes p q := by
  rw [next, h.resolved_eq hdone hd, List.mem_filterMap, PassContext.Includes, h.fresh]
  constructor
  · rintro ⟨r, hr, hq⟩
    obtain ⟨i, hi, rfl⟩ := List.mem_map.1 hr
    exact ⟨d.fresh, rfl, i, mem_distinct.1 hi, hq⟩
  · rintro ⟨d', hd', i, hi, hq⟩
    cases hd'
    exact ⟨_, List.mem_map_of_mem (mem_distinct.2 hi), hq⟩

/-- A file without computed includes is resolved alike in two passes if the search for each of its
includes ends alike. -/
lemma Draft.Fits.sameAll_iff {c' : PassContext} {d' : Draft} (h : d.Fits c p) (h' : d'.Fits c' p)
    (hdone : d.isResolved) (hdone' : d'.isResolved) (hdirectives : d'.directives = d.directives)
    (hd : d.directives.hasComputedIncludes = false) :
    ResolvedInclude.sameAll d.resolved d'.resolved ↔ ∀ i ∈ d.directives.includes,
      EndAlike (c.search.literal p i).location (c'.search.literal p i).location := by
  have hd' : d'.directives.hasComputedIncludes = false := by rw [hdirectives, hd]
  rw [h.literal hdone hd, h'.literal hdone' hd', hdirectives,
    sameAll_foldl_addNew_iff (fun _ => rfl) (fun _ => rfl)]
  simp only [Search.same_literal_iff]

namespace Walk

/-- A file that is known leads to what it includes, unless its includes were not followed. -/
lemma includes_of_leads (hw : w.Sound c) (hp : p.IsCanonical) (hliteral : w.pass.IsLiteral)
    (h : w.Leads p q) : c.Includes p q := by
  obtain ⟨d, hd, hq⟩ := h
  have hfits := hw.pass.fits hp hd
  have hdone : d.isResolved := by
    by_contra hopen
    rw [Draft.next, hfits.unresolved (Bool.eq_false_iff.2 hopen)] at hq
    cases hq
  exact (hfits.mem_next_iff hdone (hliteral p d hp hd)).1 hq

/-- A walk enters the closure of its source: all files that it comes to over includes.  No include
has to be expanded here, so what a file includes does not depend on the way on which it was
entered. -/
theorem visited_iff (h : Explores c [source] w w') (hw : w.Sound c) (hstart : w.visited = ∅)
    (hsource : source.IsCanonical) (hliteral : w'.pass.IsLiteral) (hq : q.IsCanonical) :
    w'.visited.contains q ↔ Relation.ReflTransGen c.Includes source q := by
  have hs : ∀ p ∈ [source], p.IsCanonical := by simpa using hsource
  have hnew : ∀ p, w.visited.contains p = false := by
    intro p
    rw [hstart]
    rfl
  have hsound := h.sound hw hs
  constructor
  · intro hvisited
    rcases h.reached hw hs hq hvisited with hin | ⟨p, hp, hpath⟩
    · rw [hnew] at hin
      cases hin
    · rw [List.mem_singleton.1 hp] at hpath
      -- by the way from the source, each step of which is an include that was followed
      clear hq hvisited
      induction hpath with
      | refl => exact .refl
      | tail _ hlast ih =>
        have hp := PassContext.canonical_of_includes hsource ih
        exact ih.tail (includes_of_leads hsound hp hliteral hlast)
  · intro hpath
    induction hpath with
    | refl => exact h.visited_of_mem List.mem_cons_self
    | @tail p q hpath hlast ih =>
      have hp := PassContext.canonical_of_includes hsource hpath
      have hin := ih hp
      obtain ⟨d', hd', -⟩ := id hlast
      -- an entered file is done with or cannot be read; of the former all includes are followed
      rcases h.isDone hw hs hstart hp hin with ⟨d, hd, hdone⟩ | ⟨⟨e, he⟩, -⟩
      · have hfits := hsound.pass.fits hp hd
        have hnext := (hfits.mem_next_iff hdone (hliteral p d hp hd)).2 hlast
        exact h.closed hw hs hp hin (hnew p) ⟨d, hd, hnext⟩
      · rw [he] at hd'
        cases hd'

end Walk

end IncludeDeps
