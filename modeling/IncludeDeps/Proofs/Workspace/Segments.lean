import IncludeDeps.Proofs.Workspace.Following

/-!
# The segments of a path

A path is followed by the segments of its text, but compared and normalised by its components.

* `Path.steps` are the components after the start; they are the segments that are followed at all
  (`Workspace.filter_segments`);
* `Workspace.segments_ofComponents` are the segments of a canonical text;
* `Workspace.cost` counts bytes, so that a path is not too long if its segments are among those of
  another one;
* `Workspace.components_absolute?` are the components of a path seen from the current directory;
* `Workspace.join_cases` is what a name after a path looks like.
-/

namespace IncludeDeps

/-- The components of a path after its start. -/
def Path.steps (p : Path) : List Path.Component := p.split.2.filterMap Path.Component.ofSegment?

namespace Workspace

open IncludeDeps.Path (Component)

variable {w : Workspace} {p q : Path} {name : String} {names : List String}

/-! ## Segments and components -/

/-- Whether a segment is no step. -/
def stays (s : String) : Bool := s = "" || s = "."

lemma stays_iff {s : String} : stays s ↔ s = "" ∨ s = "." := by simp [stays]

lemma filter_map_ofList (l : List (List Char)) :
    ((l.map String.ofList).filter fun s => !stays s) =
      (l.filterMap Component.ofSegment?).map Component.text := by
  induction l with
  | nil => rfl
  | cons s rest ih =>
    rw [List.map_cons, List.filter_cons, List.filterMap_cons, ih]
    by_cases hempty : s = []
    · subst hempty
      rfl
    by_cases hdot : s = ['.']
    · subst hdot
      rfl
    have hgo : stays (String.ofList s) = false := by
      rw [Bool.eq_false_iff, ne_eq, stays_iff]
      rintro (h | h)
      · exact hempty (by simpa using h)
      · exact hdot (by simpa using congrArg String.toList h)
    rw [hgo]
    by_cases hup : s = ['.', '.']
    · subst hup
      rfl
    · have hname : Component.ofSegment? s = some (.name (String.ofList s)) := by
        simp [Component.ofSegment?]
      rw [hname]
      rfl

/-- The start of a path leaves no step. -/
lemma steps_eq (p : Path) : p.steps = (p.text.toList.splitOn '/').filterMap Component.ofSegment? := by
  unfold Path.steps Path.split
  split
  · next rest h =>
    rw [h, List.splitOn_cons_eq_if_modifyHead]
    rfl
  · next h =>
    rw [h]
    rfl
  · next rest h =>
    rw [h, List.splitOn_cons_eq_if_modifyHead, List.splitOn_cons_eq_if_modifyHead]
    rfl
  · rfl

/-- The segments that are followed are the steps of the path. -/
theorem filter_segments (p : Path) :
    ((segments p.text).filter fun s => !stays s) = p.steps.map Component.text := by
  rw [segments, filter_map_ofList, steps_eq]

lemma isStep_of_mem_steps {c : Component} (h : c ∈ p.steps) : c.IsStep :=
  Path.isStep_of_mem_segments h

/-! ## Bytes -/

/-- The number of bytes of segments, with a slash for each. -/
def cost : List String → Nat
  | [] => 0
  | s :: rest => s.utf8ByteSize + 1 + cost rest

lemma cost_cons (s : String) (l : List String) : cost (s :: l) = s.utf8ByteSize + 1 + cost l := rfl

lemma cost_append (l m : List String) : cost (l ++ m) = cost l + cost m := by
  induction l with
  | nil => exact (Nat.zero_add _).symm
  | cons s rest ih =>
    rw [List.cons_append, cost_cons, cost_cons, ih]
    exact (Nat.add_assoc _ _ _).symm

lemma cost_reverse (l : List String) : cost l.reverse = cost l := by
  induction l with
  | nil => rfl
  | cons s rest ih =>
    rw [List.reverse_cons, cost_append, ih, cost_cons]
    exact Nat.add_comm _ _

lemma cost_le_of_sublist {l m : List String} (h : l.Sublist m) : cost l ≤ cost m := by
  induction h with
  | slnil => exact Nat.le_refl _
  | cons s _ ih =>
    rw [cost_cons]
    exact Nat.le_add_left_of_le ih
  | cons_cons s _ ih =>
    rw [cost_cons, cost_cons]
    exact Nat.add_le_add_left ih _

lemma utf8ByteSize_cons (c : Char) (l : List Char) :
    (String.ofList (c :: l)).utf8ByteSize = c.utf8Size + (String.ofList l).utf8ByteSize := by
  have happend : String.ofList (c :: l) = String.ofList [c] ++ String.ofList l := by
    rw [← String.ofList_append]
    rfl
  rw [happend, String.utf8ByteSize_append]
  congr 1
  exact String.utf8ByteSize_singleton

/-- A text has as many bytes as its segments and the slashes between them. -/
lemma cost_segments (t : String) : cost (segments t) = t.utf8ByteSize + 1 := by
  have hchars : ∀ l : List Char, cost ((l.splitOn '/').map String.ofList) =
      (String.ofList l).utf8ByteSize + 1 := by
    intro l
    induction l with
    | nil => rfl
    | cons c rest ih =>
      rw [List.splitOn_cons_eq_if_modifyHead, utf8ByteSize_cons]
      by_cases hc : c = '/'
      · subst hc
        rw [if_pos (by decide), List.map_cons, cost_cons, ih]
        exact Nat.add_assoc 1 _ 1
      · obtain ⟨first, others, hsplit⟩ := List.exists_cons_of_ne_nil (List.splitOn_ne_nil '/' rest)
        rw [hsplit] at ih ⊢
        rw [if_neg (by simpa using hc), List.modifyHead_cons, List.map_cons, cost_cons,
          utf8ByteSize_cons]
        rw [List.map_cons, cost_cons] at ih
        omega
  rw [segments, hchars, String.ofList_toList]

/-! ## A name after a path -/

/-- A name is written after a path with one slash between the two. -/
lemma join_cases (hp : p.text ≠ "") (hname : '/' ∉ name.toList) :
    ∃ t, p.join ⟨name⟩ = inside ⟨t⟩ name ∧
      (p.text = t ∧ p.text.toList.getLast? ≠ some '/' ∨ p.text = t ++ "/") := by
  have hempty : p.text.isEmpty = false := by simpa using hp
  unfold Path.join
  rw [if_neg (by rw [Path.isAbsolute_of_slash hname]; exact Bool.false_ne_true), hempty, Bool.false_or]
  by_cases hlast : p.text.toList.getLast? = some '/'
  · obtain ⟨init, hinit⟩ := List.getLast?_eq_some_iff.1 hlast
    have htext : p.text = String.ofList init ++ "/" := by
      rw [← String.ofList_toList (s := p.text), hinit, String.ofList_append]
    exact ⟨String.ofList init, by rw [if_pos (by simpa using hlast), inside, ← htext], .inr htext⟩
  · exact ⟨p.text, by rw [if_neg (by simpa using hlast), inside], .inl ⟨rfl, hlast⟩⟩

lemma segments_slash (t : String) : segments (t ++ "/") = segments t ++ [""] := by
  rw [segments, String.toList_append]
  show ((t.toList ++ '/' :: []).splitOn '/').map String.ofList = _
  rw [Path.splitOn_append (by simp), List.map_append]
  rfl

/-- A character that is no slash stands in a segment. -/
lemma mem_toList_iff {c : Char} (hc : c ≠ '/') (t : String) :
    c ∈ t.toList ↔ ∃ s ∈ segments t, c ∈ s.toList := by
  have hchars : ∀ l : List Char, c ∈ l ↔ ∃ s ∈ l.splitOn '/', c ∈ s := by
    intro l
    induction l with
    | nil => simp
    | cons d rest ih =>
      rw [List.splitOn_cons_eq_if_modifyHead, List.mem_cons, ih]
      by_cases hd : d = '/'
      · subst hd
        simp [hc]
      · obtain ⟨first, others, hsplit⟩ := List.exists_cons_of_ne_nil (List.splitOn_ne_nil '/' rest)
        rw [hsplit, if_neg (by simpa using hd), List.modifyHead_cons]
        simp [or_assoc]
  rw [hchars, segments]
  simp

/-! ## Canonical texts -/

/-- The segments of a canonical text are its names. -/
theorem segments_ofComponents (hnames : ∀ n ∈ names, IsFileName n) (hne : names ≠ []) :
    segments (Path.ofComponents (.root :: names.map .name)).text = "" :: names := by
  induction names using List.reverseRecOn with
  | nil => exact absurd rfl hne
  | append_singleton init name ih =>
    have hname : IsFileName name := hnames name (by simp)
    have hjoin : Path.ofComponents (.root :: (init ++ [name]).map .name) =
        (Path.ofComponents (.root :: init.map .name)).join ⟨name⟩ := by
      rw [List.map_append, Path.ofComponents, Path.ofComponents, Path.extend, Path.extend,
        ← List.cons_append, List.foldl_append]
      rfl
    rw [hjoin]
    by_cases hinit : init = []
    · subst hinit
      have hroot : Path.ofComponents [.root] = ⟨"/"⟩ := by decide
      rw [List.map_nil, hroot]
      obtain ⟨t, ht, ⟨-, hlast⟩ | htext⟩ := join_cases (p := ⟨"/"⟩) (by decide) hname.slash
      · exact absurd (by decide) hlast
      · have hempty : t = "" := by
          have hlist := congrArg String.toList htext
          rw [String.toList_append] at hlist
          simpa using hlist
        rw [ht, hempty, segments_inside hname]
        rfl
    · -- the path before is not the root, so it ends with a name, and a slash comes between
      have hsegments := ih (fun n hn => hnames n (by simp [hn])) hinit
      have hp : (Path.ofComponents (.root :: init.map .name)).text ≠ "" := by
        intro hempty
        rw [hempty] at hsegments
        exact hinit (List.cons.inj hsegments).2.symm
      obtain ⟨t, ht, ⟨htext, -⟩ | htext⟩ := join_cases hp hname.slash
      · rw [ht, segments_inside hname, ← htext, hsegments]
        rfl
      · rw [htext, segments_slash] at hsegments
        have hlast := congrArg List.getLast? hsegments
        rw [List.getLast?_concat, List.getLast?_cons] at hlast
        have hmem : "" ∈ init := by
          have hget := List.getLast?_eq_some_getLast hinit
          rw [hget] at hlast
          exact Option.some.inj hlast ▸ List.getLast_mem hinit
        -- an end without a name would be a name that is empty
        exact absurd rfl (hnames "" (by simp [hmem])).isName.1

/-! ## Paths seen from the current directory -/

lemma components_join_empty (p : Path) : (p.join ⟨""⟩).components = p.components := by
  by_cases hp : p.text = ""
  · rw [Path.join_of_text_eq_empty hp, Path.components_of_text_eq_empty hp,
      Path.components_of_text_eq_empty rfl]
  · rw [Path.components_join_of_relative hp (by decide)]
    simp [Component.ofSegment?]

lemma dropWhile_here (p : Path) : p.components.dropWhile (· == .here) =
    if p.isAbsolute then .root :: p.steps else p.steps := by
  have hsteps : p.steps.dropWhile (· == .here) = p.steps := by
    rw [List.dropWhile_eq_self_iff]
    intro hlength hhere
    have hstep := isStep_of_mem_steps (List.getElem_mem hlength)
    rw [beq_iff_eq.1 hhere] at hstep
    exact absurd hstep.1 (by decide)
  show (p.split.1.component?.toList ++ p.steps).dropWhile _ = _
  rw [Path.isAbsolute]
  cases p.split.1 with
  | root => rfl
  | here => simpa [Path.Lead.component?] using hsteps
  | bare => simpa [Path.Lead.component?] using hsteps

lemma isAbsolute_iff : p.isAbsolute ↔ p.text.toList.head? = some '/' := by
  unfold Path.isAbsolute Path.split
  split
  · next h => simp [h]
  · next h => simp [h]
  · next h => simp [h]
  · next hroot _ _ =>
    cases htext : p.text.toList with
    | nil => simp
    | cons c rest =>
      have hc : c ≠ '/' := by
        rintro rfl
        exact hroot rest htext
      simp [hc]

/-- A path seen from a directory has its own steps after those of the directory. -/
lemma components_absolute? {cwd : Path} (h : p.absolute? cwd = some q) :
    q.components = (if p.isAbsolute then [.root] else cwd.components) ++ p.steps := by
  have hsteps : ∀ c ∈ p.steps, c.IsStep := fun c => isStep_of_mem_steps
  unfold Path.absolute? at h
  split at h
  · cases h
  simp only [dropWhile_here, Option.some.injEq] at h
  rw [← h, apply_ite Path.components, components_join_empty, ite_self]
  -- of the slashes at the beginning only two are kept, and they mean the same as one
  by_cases habsolute : p.isAbsolute = true
  · obtain ⟨rest, hrest⟩ := List.head?_eq_some_iff.1 (isAbsolute_iff.1 habsolute)
    rw [if_pos habsolute, if_pos habsolute, hrest, List.takeWhile_cons_of_pos (by decide),
      if_neg (by simp)]
    split
    · have hroot : Path.components ⟨"//"⟩ = [.root] := by decide
      rw [List.drop_one, List.tail_cons, Path.components_extend _ hsteps, hroot]
    · rw [Path.components_ofComponents ⟨p.steps, hsteps, .inr rfl⟩]
      rfl
  · have hhead : p.text.toList.takeWhile (· == '/') = [] := by
      cases htext : p.text.toList with
      | nil => rfl
      | cons c rest =>
        have hc : c ≠ '/' := by
          rintro rfl
          exact habsolute (isAbsolute_iff.2 (by rw [htext]; rfl))
        simp [hc]
    rw [if_neg habsolute, if_neg habsolute, hhead, List.length_nil, if_pos rfl,
      Path.components_extend _ hsteps]

lemma exists_absolute? (hp : p.text ≠ "") (cwd : Path) : ∃ q, p.absolute? cwd = some q := by
  unfold Path.absolute?
  rw [if_neg (by simpa using hp)]
  exact ⟨_, rfl⟩

end Workspace

end IncludeDeps
