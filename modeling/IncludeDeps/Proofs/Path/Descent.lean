import IncludeDeps.Proofs.Workspace.NormalForm

/-!
# Going down from a directory

The paths that are met when a directory is looked through are the path of the directory with names after it.
`Path.descend` is such a path.  It is what the directory and the names with slashes between them are joined to
(`Path.descend_eq_join`), and the names are what is left of it below the directory
(`Path.components_relativeTo?`).

The latter works on the text of the path, from which the start and the segments of the directory are cut
away.  Empty segments and dots stand for no component there, so the segments are counted by the components
that they leave (`Path.filterMap_dropSegments`).
-/

namespace IncludeDeps

namespace Path

open Workspace (IsFileName isStep_iff isAbsolute_iff)

variable {base p : Path} {name k : String} {names : List String} {s : List Char} {l : List (List Char)} {n : ℕ}

/-- The path at the end of the names that follow `base`. -/
def descend (base : Path) (names : List String) : Path := base.extend (names.map .name)

@[simp] lemma descend_nil (base : Path) : base.descend [] = base := rfl

lemma descend_cons (base : Path) (name : String) (names : List String) :
    base.descend (name :: names) = (base.join ⟨name⟩).descend names := rfl

lemma components_descend (hnames : ∀ s ∈ names, IsFileName s) :
    (base.descend names).components = base.components ++ names.map .name := by
  refine components_extend base fun c hc => ?_
  obtain ⟨s, hs, rfl⟩ := List.mem_map.1 hc
  exact isStep_iff.2 (.inr ⟨s, rfl, hnames s hs⟩)

/-! ## Names put together -/

/-- A text that goes on with a name does not start at the root. -/
lemma isAbsolute_of_name (hname : IsFileName name) (t : String) : isAbsolute ⟨name ++ t⟩ = false := by
  rw [Bool.eq_false_iff]
  intro habsolute
  have hhead := isAbsolute_iff.1 habsolute
  have hnil : name.toList ≠ [] := fun h => hname.isName.1 (String.toList_inj.1 h)
  rw [String.toList_append, List.head?_append_of_ne_nil _ hnil] at hhead
  exact hname.slash (List.mem_of_mem_head? hhead)

/-- What is written between a path and what it is joined with. -/
def separator (p : Path) : String :=
  if p.text.isEmpty || p.text.toList.getLast? = some '/' then "" else "/"

lemma join_of_relative (p : Path) (h : isAbsolute ⟨k⟩ = false) : p.join ⟨k⟩ = ⟨p.text ++ p.separator ++ k⟩ := by
  unfold join separator
  rw [if_neg (by rw [h]; exact Bool.false_ne_true)]
  split
  · rw [String.append_empty]
  · rfl

lemma separator_of_name (hname : IsFileName name) (t : String) : separator ⟨t ++ name⟩ = "/" := by
  have hnil : name.toList ≠ [] := fun h => hname.isName.1 (String.toList_inj.1 h)
  have hlast : (t ++ name).toList.getLast? ≠ some '/' := by
    intro hlast
    rw [String.toList_append, List.getLast?_append_of_ne_nil _ hnil] at hlast
    exact hname.slash (List.mem_of_getLast? hlast)
  have hempty : (t ++ name).isEmpty = false := by
    simpa using fun _ => hname.isName.1
  unfold separator
  rw [hempty, Bool.false_or, if_neg (by simpa using hlast)]

lemma join_join (base : Path) (hname : IsFileName name) (hk : isAbsolute ⟨k⟩ = false) :
    (base.join ⟨name⟩).join ⟨k⟩ = base.join ⟨name ++ "/" ++ k⟩ := by
  have hall : isAbsolute ⟨name ++ "/" ++ k⟩ = false := by
    rw [String.append_assoc]
    exact isAbsolute_of_name hname _
  rw [join_of_relative base (isAbsolute_of_slash hname.slash), join_of_relative base hall,
    join_of_relative _ hk, separator_of_name hname]
  simp only [String.append_assoc]

/-- Going down name by name comes to what the names say when they are put together with slashes
between them. -/
theorem descend_eq_join (hnames : ∀ s ∈ names, IsFileName s) (hne : names ≠ []) :
    base.descend names = base.join ⟨String.intercalate "/" names⟩ := by
  induction names generalizing base with
  | nil => exact absurd rfl hne
  | cons name rest ih =>
    have hname := hnames name List.mem_cons_self
    rw [descend_cons]
    cases rest with
    | nil => rw [String.intercalate_singleton, descend_nil]
    | cons next rest =>
      have hrest : ∀ s ∈ next :: rest, IsFileName s := fun s hs => hnames s (List.mem_cons_of_mem _ hs)
      -- what begins with a name is no absolute path, so joining it does not start again
      have hrelative : isAbsolute ⟨String.intercalate "/" (next :: rest)⟩ = false := by
        have hnext := hrest next List.mem_cons_self
        cases rest with
        | nil => exact isAbsolute_of_slash (by rw [String.intercalate_singleton]; exact hnext.slash)
        | cons _ _ =>
          rw [String.intercalate_cons_cons, String.append_assoc]
          exact isAbsolute_of_name hnext _
      rw [ih hrest (List.cons_ne_nil _ _), join_join base hname hrelative, String.intercalate_cons_cons]

/-! ## What is left below a directory -/

lemma filterMap_dropSegments (n : ℕ) (l : List (List Char)) :
    (dropSegments n l).filterMap Component.ofSegment? = (l.filterMap Component.ofSegment?).drop n := by
  induction l generalizing n with
  | nil => rw [dropSegments, List.filterMap_nil, List.drop_nil]
  | cons s rest ih =>
    unfold dropSegments
    cases hs : Component.ofSegment? s with
    | none =>
      rw [if_pos (by rw [isVoid, hs]; rfl), ih, List.filterMap_cons_none hs]
    | some c =>
      rw [if_neg (by rw [isVoid, hs]; exact Bool.false_ne_true), List.filterMap_cons_some hs]
      cases n with
      | zero => rw [List.drop_zero, List.filterMap_cons_some hs]
      | succ n => rw [List.drop_succ_cons, ih]

lemma isVoid_of_head?_dropSegments (h : (dropSegments n l).head? = some s) : isVoid s = false := by
  induction l generalizing n with
  | nil => cases h
  | cons t rest ih =>
    unfold dropSegments at h
    split at h
    · exact ih h
    next hsolid =>
    cases n with
    | zero =>
      cases h
      exact Bool.eq_false_iff.2 hsolid
    | succ n => exact ih h

lemma dropSegments_sublist (n : ℕ) (l : List (List Char)) : (dropSegments n l).Sublist l := by
  induction l generalizing n with
  | nil => exact .slnil
  | cons s rest ih =>
    unfold dropSegments
    split
    · exact (ih n).cons s
    · cases n with
      | zero => exact List.Sublist.refl _
      | succ n => exact (ih n).cons s

lemma trimEnd_isPrefix (l : List (List Char)) : trimEnd l <+: l := by
  have hsuffix := List.reverse_prefix.2 (List.dropWhile_suffix isVoid (l := l.reverse))
  rwa [List.reverse_reverse] at hsuffix

lemma filterMap_trimEnd (l : List (List Char)) :
    (trimEnd l).filterMap Component.ofSegment? = l.filterMap Component.ofSegment? := by
  have hdrop : ∀ l : List (List Char), (l.dropWhile isVoid).filterMap Component.ofSegment? =
      l.filterMap Component.ofSegment? := by
    intro l
    induction l with
    | nil => rfl
    | cons s rest ih =>
      cases hs : Component.ofSegment? s with
      | none => rw [List.dropWhile_cons_of_pos (by rw [isVoid, hs]; rfl), ih, List.filterMap_cons_none hs]
      | some c => rw [List.dropWhile_cons_of_neg (by rw [isVoid, hs]; exact Bool.false_ne_true)]
  rw [trimEnd, List.filterMap_reverse, hdrop, ← List.filterMap_reverse, List.reverse_reverse]

/-- Segments of which the first leaves a component are the components of the text that they make. -/
lemma components_ofSplit (hs : isVoid s = false) (hslash : ∀ t ∈ s :: l, '/' ∉ t) :
    (ofSplit .bare (s :: l)).components = (s :: l).filterMap Component.ofSegment? := by
  -- splitting undoes the joining; what is left to see is that the text begins with neither a slash
  -- nor a dot alone
  have hsplit : (['/'].intercalate (s :: l)).splitOn '/' = s :: l :=
    List.splitOn_intercalate '/' hslash (List.cons_ne_nil _ _)
  have hfirst := hslash s List.mem_cons_self
  rw [ofSplit, Lead.chars, List.nil_append]
  cases htext : ['/'].intercalate (s :: l) with
  | nil =>
    rw [htext, List.splitOn_nil] at hsplit
    obtain ⟨rfl, -⟩ := List.cons.inj hsplit
    cases hs
  | cons c rest =>
    rw [htext, List.splitOn_cons_eq_if_modifyHead] at hsplit
    split at hsplit
    · obtain ⟨rfl, -⟩ := List.cons.inj hsplit
      cases hs
    next hc =>
    obtain ⟨first, others, hrest⟩ := List.exists_cons_of_ne_nil (List.splitOn_ne_nil '/' rest)
    rw [hrest, List.modifyHead_cons] at hsplit
    obtain ⟨rfl, rfl⟩ := List.cons.inj hsplit
    have hdot : ¬ (c = '.' ∧ (rest.splitOn '/').headD [] = []) := by
      rintro ⟨rfl, hhead⟩
      rw [hrest, List.headD_cons] at hhead
      rw [hhead] at hs
      cases hs
    rw [components_ofList_cons, if_neg (by simpa using hc), if_neg hdot, List.splitOn_cons_eq_if_modifyHead,
      if_neg hc, hrest, List.modifyHead_cons]

/-- A path that is not empty has a component. -/
lemma components_ne_nil (h : p.text ≠ "") : p.components ≠ [] := by
  obtain ⟨text⟩ := p
  obtain ⟨cs, rfl⟩ : ∃ cs, text = String.ofList cs := ⟨_, String.ofList_toList.symm⟩
  cases cs with
  | nil => exact absurd rfl h
  | cons c rest =>
    rw [components_ofList_cons]
    split
    · exact List.cons_ne_nil _ _
    next hc =>
    split
    · exact List.cons_ne_nil _ _
    next hdot =>
    obtain ⟨first, others, hrest⟩ := List.exists_cons_of_ne_nil (List.splitOn_ne_nil '/' rest)
    rw [hrest, List.headD_cons] at hdot
    rw [List.splitOn_cons_eq_if_modifyHead, if_neg (by simpa using hc), hrest, List.modifyHead_cons]
    -- the first segment is not empty, and a dot alone at the start was the case before
    have hsolid : ∃ d, Component.ofSegment? (c :: first) = some d := by
      unfold Component.ofSegment?
      split
      · next heq => cases heq
      · next heq =>
        obtain ⟨rfl, rfl⟩ := List.cons.inj heq
        exact absurd ⟨rfl, rfl⟩ hdot
      · exact ⟨_, rfl⟩
      · exact ⟨_, rfl⟩
    obtain ⟨d, hd⟩ := hsolid
    rw [List.filterMap_cons_some hd]
    exact List.cons_ne_nil _ _

/-- Below the directory from which it goes down, a path is the names on the way.  So the key under
which a file is listed leads back to it. -/
theorem components_relativeTo? (hnames : ∀ s ∈ names, IsFileName s) (hne : names ≠ [])
    (hbase : base.components ≠ []) :
    ∃ q, (base.descend names).relativeTo? base = some q ∧ q.components = names.map .name := by
  have hcomponents : (base.descend names).components = base.components ++ names.map .name :=
    components_descend hnames
  rcases hsplit : (base.descend names).split with ⟨lead, segments⟩
  have hslash : ∀ t ∈ segments, '/' ∉ t := by
    intro t ht
    refine slash_of_mem_segments (p := base.descend names) ?_
    rw [hsplit]
    exact ht
  have hparts : lead.component?.toList ++ segments.filterMap Component.ofSegment? =
      base.components ++ names.map .name := by
    rw [← hcomponents, components, hsplit]
  -- the start of the path belongs to the directory
  have hlead : lead.component?.toList.length ≤ base.components.length :=
    (Option.length_toList_le).trans (List.length_pos_of_ne_nil hbase)
  let rest := dropSegments (base.components.length - lead.component?.toList.length) segments
  have hrest : rest.filterMap Component.ofSegment? = names.map .name := by
    have hdrop := congrArg (List.drop base.components.length) hparts
    rw [List.drop_left, List.drop_append, List.drop_eq_nil_of_le hlead, List.nil_append] at hdrop
    rw [← hdrop]
    exact filterMap_dropSegments _ _
  have htrim := (filterMap_trimEnd rest).trans hrest
  refine ⟨ofSplit .bare (trimEnd rest), ?_, ?_⟩
  · unfold relativeTo?
    rw [hsplit, if_pos (by rw [hcomponents]; simp)]
    simp only [List.isEmpty_eq_false_iff.2 hbase, Bool.false_eq_true, if_false]
    rfl
  · rw [← htrim]
    obtain ⟨tail, htail⟩ := trimEnd_isPrefix rest
    cases hcut : trimEnd rest with
    | nil =>
      rw [hcut] at htrim
      exact absurd (List.map_eq_nil_iff.1 htrim.symm) hne
    | cons s l =>
      have hmem : ∀ t ∈ s :: l, '/' ∉ t := by
        intro t ht
        refine hslash t ((dropSegments_sublist _ _).subset (?_ : t ∈ rest))
        rw [← htail, hcut]
        exact List.mem_append_left _ ht
      have hhead : rest.head? = some s := by
        rw [← htail, hcut]
        rfl
      exact components_ofSplit (isVoid_of_head?_dropSegments hhead) hmem

end Path

end IncludeDeps
