import IncludeDeps.MacroTable.Expansion
import Mathlib.Data.List.Chain

/-!
# What an expression stands for

The names that are expanded one inside the other are a branch of the tree of possibilities
(`MacroTable.IsBranch`): at most sixteen macros, all different, each with a value that stands for the
next one.  An expression stands for the paths that the last names of its branches have as values
(`MacroTable.mem_paths_iff`), and it is expanded completely if every value at the end of every
branch is a path or makes the branch longer (`MacroTable.forall_isSome_places_iff`).

The order of the paths is that of a search depth first.  A path is found at a place of the tree, and
the place is told by the numbers of the values that are taken on the way (`MacroTable.FoundAt`); the
leaves are listed in the lexicographic order of their places (`MacroTable.pairwise_places`), so each
path comes when it is found for the first time (`pairwise_eraseDups`).
-/

namespace IncludeDeps

/-- Where elements are listed with places that increase, dropping repeated elements leaves each one
at its first place.  So the order of what is left is that of the first places. -/
lemma pairwise_eraseDups {κ α : Type} [LT κ] [BEq α] [LawfulBEq α] :
    ∀ {l : List (κ × α)}, (l.Pairwise fun x y => x.1 < y.1) →
      (l.map Prod.snd).eraseDups.Pairwise fun a b =>
        ∃ x, (x, a) ∈ l ∧ ∀ y, (y, b) ∈ l → x < y
  | [], _ => List.Pairwise.nil
  | e :: rest, h => by
    obtain ⟨hfirst, hrest⟩ := List.pairwise_cons.1 h
    have hfilter : (rest.map Prod.snd).filter (fun b => !b == e.2) =
        (rest.filter fun y => !y.2 == e.2).map Prod.snd := List.filter_map
    -- elements that are equal to the first one are dropped, so the others keep the places that they
    -- had
    have hother : ∀ b ∈ ((rest.filter fun y => !y.2 == e.2).map Prod.snd).eraseDups, b ≠ e.2 := by
      intro b hb
      obtain ⟨y, hy, rfl⟩ := List.mem_map.1 (List.mem_eraseDups.1 hb)
      simpa using (List.mem_filter.1 hy).2
    have hmem : ∀ {b y}, b ≠ e.2 → (y, b) ∈ e :: rest → (y, b) ∈ rest := by
      intro b y hb hy
      refine (List.mem_cons.1 hy).resolve_left fun heq => hb ?_
      rw [← heq]
    rw [List.map_cons, List.eraseDups_cons, hfilter, List.pairwise_cons]
    constructor
    · intro b hb
      exact ⟨e.1, List.mem_cons_self, fun y hy => hfirst _ (hmem (hother b hb) hy)⟩
    · -- what is left after the first element are the elements of a shorter list with places
      have hshorter := pairwise_eraseDups (hrest.filter fun y => !y.2 == e.2)
      refine hshorter.imp_of_mem fun _ hb hbefore => ?_
      obtain ⟨x, hx, hleast⟩ := hbefore
      refine ⟨x, List.mem_cons_of_mem _ (List.mem_filter.1 hx).1, fun y hy => hleast y ?_⟩
      refine List.mem_filter.2 ⟨hmem (hother _ hb) hy, ?_⟩
      simpa using hother _ hb
termination_by l => l.length
decreasing_by exact Nat.lt_succ_of_le (List.length_filter_le _ _)

namespace MacroTable

variable {t : MacroTable} {depth i : ℕ} {within names : List String} {e name next value : String}
  {turns : List ℕ} {path target : IncludeKind × String}

/-! ## Branches -/

/-- Some value of a name stands for a target, read like what stands behind an include. -/
def StandsFor (t : MacroTable) (name : String) (target : IncludeKind × String) : Prop :=
  ∃ value ∈ t.values name, Source.includeTarget? value.toList = some target

/-- Names that are expanded one inside the other, from the expression `e` on: at most `depth`
macros, all different and none of them among `within`, each with a value that stands for the next
one. -/
structure IsBranch (t : MacroTable) (depth : ℕ) (within : List String) (e : String)
    (names : List String) : Prop where
  head : names.head? = some e
  length_le : names.length ≤ depth
  nodup : names.Nodup
  apart : ∀ name ∈ names, name ∉ within
  isMacro : ∀ name ∈ names, isIdentifier name ∧ t.values name ≠ []
  linked : names.IsChain fun name next => t.StandsFor name (.computed, next)

/-- A name that is not being expanded and can be. -/
structure Opens (t : MacroTable) (within : List String) (e : String) : Prop where
  isIdentifier : isIdentifier e
  apart : e ∉ within
  defined : t.values e ≠ []

lemma not_isBranch_zero : ¬ t.IsBranch 0 within e names := by
  intro h
  have hnil := List.length_eq_zero_iff.1 (Nat.le_zero.1 h.length_le)
  have hhead := h.head
  rw [hnil] at hhead
  cases hhead

lemma IsBranch.opens (h : t.IsBranch depth within e names) : t.Opens within e := by
  have hmem : e ∈ names := List.mem_of_mem_head? h.head
  exact ⟨(h.isMacro e hmem).1, h.apart e hmem, (h.isMacro e hmem).2⟩

lemma Opens.isBranch (h : t.Opens within e) : t.IsBranch (depth + 1) within e [e] where
  head := rfl
  length_le := Nat.le_add_left 1 depth
  nodup := List.pairwise_singleton _ e
  apart := by simpa using h.apart
  isMacro := by simpa using ⟨h.isIdentifier, h.defined⟩
  linked := List.isChain_singleton e

/-- A branch goes on with a branch of what one of the values stands for. -/
lemma isBranch_cons_iff (hhead : names.head? = some next) :
    t.IsBranch (depth + 1) within e (e :: names) ↔
      t.Opens within e ∧ t.StandsFor e (.computed, next) ∧
        t.IsBranch depth (e :: within) next names := by
  constructor
  · intro h
    obtain ⟨rest, rfl⟩ := List.head?_eq_some_iff.1 hhead
    obtain ⟨hfirst, hnodup⟩ := List.nodup_cons.1 h.nodup
    obtain ⟨hstands, hlinked⟩ := List.isChain_cons_cons.1 h.linked
    refine ⟨h.opens, hstands, rfl, Nat.le_of_succ_le_succ h.length_le, hnodup, ?_,
      fun name hname => h.isMacro name (List.mem_cons_of_mem _ hname), hlinked⟩
    intro name hname hwithin
    rcases List.mem_cons.1 hwithin with rfl | hwithin
    · exact hfirst hname
    · exact h.apart name (List.mem_cons_of_mem _ hname) hwithin
  · rintro ⟨hopens, hstands, h⟩
    have hfirst : e ∉ names := fun he => h.apart e he List.mem_cons_self
    refine ⟨rfl, Nat.succ_le_succ h.length_le, List.nodup_cons.2 ⟨hfirst, h.nodup⟩, ?_, ?_, ?_⟩
    · intro name hname hwithin
      rcases List.mem_cons.1 hname with rfl | hname
      · exact hopens.apart hwithin
      · exact h.apart name hname (List.mem_cons_of_mem _ hwithin)
    · intro name hname
      rcases List.mem_cons.1 hname with rfl | hname
      · exact ⟨hopens.isIdentifier, hopens.defined⟩
      · exact h.isMacro name hname
    · refine List.isChain_cons.2 ⟨fun y hy => ?_, h.linked⟩
      rw [hhead, Option.mem_some_iff] at hy
      exact hy ▸ hstands

/-! ## Places -/

/-- The value with the number `i` of a name stands for a target. -/
def Reads (t : MacroTable) (name : String) (i : ℕ) (target : IncludeKind × String) : Prop :=
  ∃ value, (t.values name)[i]? = some value ∧ Source.includeTarget? value.toList = some target

/-- Taking the values with the numbers `turns` leads from each of the names to the next one, and
from the last name to a path in quotes or brackets. -/
inductive Leads (t : MacroTable) : List String → List ℕ → IncludeKind × String → Prop
  | last {name : String} {i : ℕ} {path : IncludeKind × String} (hread : t.Reads name i path)
    (hpath : path.1 ≠ .computed) : Leads t [name] [i] path
  | cons {name next : String} {names : List String} {i : ℕ} {turns : List ℕ}
    {path : IncludeKind × String} (hread : t.Reads name i (.computed, next))
    (hhead : names.head? = some next) (hrest : Leads t names turns path) :
    Leads t (name :: names) (i :: turns) path

/-- The place of the tree of `e` that the numbers `turns` tell is a leaf with a path. -/
def FoundAt (t : MacroTable) (e : String) (turns : List ℕ) (path : IncludeKind × String) : Prop :=
  ∃ names, t.IsBranch 16 [] e names ∧ t.Leads names turns path

lemma standsFor_iff : t.StandsFor name target ↔ ∃ i, t.Reads name i target := by
  constructor
  · rintro ⟨value, hvalue, htarget⟩
    obtain ⟨i, hi⟩ := List.mem_iff_getElem?.1 hvalue
    exact ⟨i, value, hi, htarget⟩
  · rintro ⟨i, value, hi, htarget⟩
    exact ⟨value, List.mem_of_getElem? hi, htarget⟩

/-- A place is reached on a branch if its last name has a value for the path. -/
lemma exists_leads_iff (h : t.IsBranch depth within e names) : (∃ turns, t.Leads names turns path) ↔
    ∃ last ∈ names.getLast?, t.StandsFor last path ∧ path.1 ≠ .computed := by
  constructor
  · rintro ⟨turns, hleads⟩
    induction hleads generalizing depth within e with
    | @last name i path hread hpath => exact ⟨name, rfl, standsFor_iff.2 ⟨i, hread⟩, hpath⟩
    | @cons name next names i turns path hread hhead hrest ih =>
      obtain rfl : name = e := Option.some.inj h.head
      cases depth with
      | zero => exact absurd h not_isBranch_zero
      | succ depth =>
        obtain ⟨-, -, hbranch⟩ := (isBranch_cons_iff hhead).1 h
        obtain ⟨last, hlast, hstands⟩ := ih hbranch
        refine ⟨last, ?_, hstands⟩
        rw [List.getLast?_cons, Option.mem_def.1 hlast]
        rfl
  · rintro ⟨last, hlast, hstands, hpath⟩
    induction names generalizing depth within e with
    | nil => cases hlast
    | cons name names ih =>
      obtain rfl : name = e := Option.some.inj h.head
      cases depth with
      | zero => exact absurd h not_isBranch_zero
      | succ depth =>
        cases names with
        | nil =>
          cases hlast
          obtain ⟨i, hread⟩ := standsFor_iff.1 hstands
          exact ⟨[i], .last hread hpath⟩
        | cons next names =>
          obtain ⟨-, hnext, hbranch⟩ := (isBranch_cons_iff rfl).1 h
          obtain ⟨i, hread⟩ := standsFor_iff.1 hnext
          obtain ⟨turns, hleads⟩ := ih hbranch hlast
          exact ⟨i :: turns, .cons hread hbranch.head hleads⟩

/-! ## The leaves in their order -/

/-- The leaves of an expression with their places: at each name on the way the number of the value
that was taken. -/
def places (t : MacroTable) :
    (depth : ℕ) → (within : List String) → String → List (List ℕ × Option (IncludeKind × String))
  | 0, _, _ => [([], none)]
  | depth + 1, within, name =>
    if isIdentifier name && !within.contains name && !(t.values name).isEmpty then
      (t.values name).zipIdx.flatMap fun (value, i) =>
        match Source.includeTarget? value.toList with
        | some (.computed, next) =>
          (places t depth (name :: within) next).map fun l => (i :: l.1, l.2)
        | leaf => [([i], leaf)]
    else [([], none)]

/-- The leaves that come of one value. -/
def placesOf (t : MacroTable) (depth : ℕ) (within : List String) (value : String) (i : ℕ) :
    List (List ℕ × Option (IncludeKind × String)) :=
  match Source.includeTarget? value.toList with
  | some (.computed, next) => (t.places depth within next).map fun l => (i :: l.1, l.2)
  | leaf => [([i], leaf)]

lemma opens_iff : t.Opens within e ↔
    (isIdentifier e && !within.contains e && !(t.values e).isEmpty) = true := by
  simp only [Bool.and_eq_true, Bool.not_eq_true', List.isEmpty_eq_false_iff, List.contains_eq_mem,
    decide_eq_false_iff_not]
  exact ⟨fun h => ⟨⟨h.1, h.2⟩, h.3⟩, fun h => ⟨h.1.1, h.1.2, h.2⟩⟩

lemma places_of_opens (h : t.Opens within e) : t.places (depth + 1) within e =
    (t.values e).zipIdx.flatMap fun (value, i) => t.placesOf depth (e :: within) value i := by
  rw [places, if_pos (opens_iff.1 h)]
  rfl

lemma places_of_not_opens (h : ¬ t.Opens within e) : t.places depth within e = [([], none)] := by
  cases depth with
  | zero => rfl
  | succ depth => rw [places, if_neg (mt opens_iff.2 h)]

lemma placesOf_of_path (htarget : Source.includeTarget? value.toList = some path)
    (hpath : path.1 ≠ .computed) : t.placesOf depth within value i = [([i], some path)] := by
  obtain ⟨kind, text⟩ := path
  rw [placesOf, htarget]
  cases kind with
  | computed => exact absurd rfl hpath
  | quoted => rfl
  | system => rfl

lemma placesOf_of_name (htarget : Source.includeTarget? value.toList = some (.computed, next)) :
    t.placesOf depth within value i =
      (t.places depth within next).map fun l => (i :: l.1, l.2) := by
  rw [placesOf, htarget]

lemma placesOf_of_none (htarget : Source.includeTarget? value.toList = none) :
    t.placesOf depth within value i = [([i], none)] := by
  rw [placesOf, htarget]

/-- What a value stands for: nothing, a path, or a name to go on with. -/
lemma target_cases (value : String) : Source.includeTarget? value.toList = none ∨
    (∃ path, Source.includeTarget? value.toList = some path ∧ path.1 ≠ .computed) ∨
      ∃ next, Source.includeTarget? value.toList = some (.computed, next) := by
  cases htarget : Source.includeTarget? value.toList with
  | none => exact .inl rfl
  | some target =>
    obtain ⟨kind, text⟩ := target
    by_cases hkind : kind = .computed
    · exact .inr (.inr ⟨text, by rw [hkind]⟩)
    · exact .inr (.inl ⟨(kind, text), rfl, hkind⟩)

/-- The leaves are the same with and without their places. -/
lemma map_places : (t.places depth within e).map Prod.snd = t.leaves depth within e := by
  induction depth generalizing within e with
  | zero => rfl
  | succ depth ih =>
    have hof : ∀ value i, (t.placesOf depth (e :: within) value i).map Prod.snd =
        match Source.includeTarget? value.toList with
        | some (.computed, next) => t.leaves depth (e :: within) next
        | leaf => [leaf] := by
      intro value i
      rcases target_cases value with h | ⟨path, h, hpath⟩ | ⟨next, h⟩
      · rw [placesOf_of_none h, h]
        rfl
      · rw [placesOf_of_path h hpath, h]
        obtain ⟨kind, text⟩ := path
        cases kind with
        | computed => exact absurd rfl hpath
        | quoted => rfl
        | system => rfl
      · rw [placesOf_of_name h, h, List.map_map]
        exact ih
    unfold leaves
    by_cases hopens : t.Opens within e
    · rw [places_of_opens hopens, if_pos (opens_iff.1 hopens), List.map_flatMap]
      -- both go through the values in order, here with their numbers and there without
      simp only [hof]
      conv_rhs => rw [← List.zipIdx_map_fst 0 (t.values e)]
      refine Eq.trans ?_ (List.flatMap_map _ _ _).symm
      rfl
    · rw [places_of_not_opens hopens, if_neg (mt opens_iff.2 hopens)]
      rfl

lemma exists_of_mem_placesOf {l : List ℕ × Option (IncludeKind × String)}
    (h : l ∈ t.placesOf depth within value i) : ∃ turns, l.1 = i :: turns := by
  rcases target_cases value with htarget | ⟨path, htarget, hpath⟩ | ⟨next, htarget⟩
  · rw [placesOf_of_none htarget, List.mem_singleton] at h
    exact ⟨[], by rw [h]⟩
  · rw [placesOf_of_path htarget hpath, List.mem_singleton] at h
    exact ⟨[], by rw [h]⟩
  · rw [placesOf_of_name htarget] at h
    obtain ⟨l', -, rfl⟩ := List.mem_map.1 h
    exact ⟨l'.1, rfl⟩

/-- The leaves are listed in the lexicographic order of their places.  A place is the way to a
leaf: the number of the value that was taken at each name. -/
theorem pairwise_places : (t.places depth within e).Pairwise fun x y => x.1 < y.1 := by
  induction depth generalizing within e with
  | zero => exact List.pairwise_singleton _ _
  | succ depth ih =>
    by_cases hopens : t.Opens within e
    · rw [places_of_opens hopens, List.pairwise_flatMap]
      constructor
      · rintro ⟨value, i⟩ -
        rcases target_cases value with h | ⟨path, h, hpath⟩ | ⟨next, h⟩
        · simp only [placesOf_of_none h]
          exact List.pairwise_singleton _ _
        · simp only [placesOf_of_path h hpath]
          exact List.pairwise_singleton _ _
        · simp only [placesOf_of_name h, List.pairwise_map]
          exact ih.imp fun hlt => List.cons_lt_cons_iff.2 (.inr ⟨rfl, hlt⟩)
      · -- leaves of different values differ in the first number
        have hnumbers : (t.values e).zipIdx.Pairwise fun x y => x.2 < y.2 := by
          rw [← List.pairwise_map (f := Prod.snd) (R := (· < ·)), List.zipIdx_map_snd]
          exact List.pairwise_lt_range' 1
        refine hnumbers.imp fun hlt x hx y hy => ?_
        obtain ⟨turns, hx'⟩ := exists_of_mem_placesOf hx
        obtain ⟨turns', hy'⟩ := exists_of_mem_placesOf hy
        rw [hx', hy']
        exact List.cons_lt_cons_iff.2 (.inl hlt)
    · rw [places_of_not_opens hopens]
      exact List.pairwise_singleton _ _

/-- The leaves with paths are those that are reached on branches.  The induction is on the number of
macros that may still be expanded, with which the recursion and the branches stop alike. -/
theorem mem_places_iff : (turns, some path) ∈ t.places depth within e ↔
    ∃ names, t.IsBranch depth within e names ∧ t.Leads names turns path := by
  induction depth generalizing within e turns with
  | zero =>
    constructor
    · intro h
      cases List.mem_singleton.1 h
    · rintro ⟨names, h, -⟩
      exact absurd h not_isBranch_zero
  | succ depth ih =>
    by_cases hopens : t.Opens within e
    · rw [places_of_opens hopens, List.mem_flatMap]
      constructor
      · rintro ⟨⟨value, i⟩, hvalue, hleaf⟩
        have hi : (t.values e)[i]? = some value := List.mem_zipIdx_iff_getElem?.1 hvalue
        rcases target_cases value with h | ⟨path', h, hpath⟩ | ⟨next, h⟩
        · simp only [placesOf_of_none h] at hleaf
          cases List.mem_singleton.1 hleaf
        · -- the value is a path: the branch ends here
          simp only [placesOf_of_path h hpath] at hleaf
          cases List.mem_singleton.1 hleaf
          exact ⟨[e], hopens.isBranch, .last ⟨value, hi, h⟩ hpath⟩
        · simp only [placesOf_of_name h] at hleaf
          -- it is a name, with which the branch goes on
          obtain ⟨⟨turns', leaf⟩, hl, heq⟩ := List.mem_map.1 hleaf
          cases heq
          obtain ⟨names, hbranch, hleads⟩ := ih.1 hl
          have hread : t.Reads e i (.computed, next) := ⟨value, hi, h⟩
          have hstands : t.StandsFor e (.computed, next) := standsFor_iff.2 ⟨i, hread⟩
          exact ⟨e :: names, (isBranch_cons_iff hbranch.head).2 ⟨hopens, hstands, hbranch⟩,
            .cons hread hbranch.head hleads⟩
      · rintro ⟨names, hbranch, hleads⟩
        cases hleads with
        | @last name i _ hread hpath =>
          obtain rfl : name = e := Option.some.inj hbranch.head
          obtain ⟨value, hi, h⟩ := hread
          refine ⟨(value, i), List.mem_zipIdx_iff_getElem?.2 hi, ?_⟩
          simp only [placesOf_of_path h hpath]
          exact List.mem_singleton_self _
        | @cons name next names i turns _ hread hhead hrest =>
          obtain rfl : name = e := Option.some.inj hbranch.head
          obtain ⟨value, hi, h⟩ := hread
          obtain ⟨-, -, hbranch'⟩ := (isBranch_cons_iff hhead).1 hbranch
          refine ⟨(value, i), List.mem_zipIdx_iff_getElem?.2 hi, ?_⟩
          simp only [placesOf_of_name h]
          exact List.mem_map.2 ⟨(turns, some path), ih.2 ⟨names, hbranch', hrest⟩, rfl⟩
    · rw [places_of_not_opens hopens]
      constructor
      · intro h
        cases List.mem_singleton.1 h
      · rintro ⟨names, h, -⟩
        exact absurd h.opens hopens

/-! ## Complete expansions -/

/-- Every value of the last name of a branch is a path in quotes or brackets, or a name with which
the branch becomes longer. -/
def GoesOn (t : MacroTable) (depth : ℕ) (within : List String) (e : String)
    (names : List String) : Prop :=
  ∀ last ∈ names.getLast?, ∀ value ∈ t.values last,
    (∃ path, Source.includeTarget? value.toList = some path ∧ path.1 ≠ .computed) ∨
      ∃ next, Source.includeTarget? value.toList = some (.computed, next) ∧
        t.IsBranch depth within e (names ++ [next])

lemma forall_isSome_placesOf_iff : (∀ l ∈ t.placesOf depth within value i, l.2.isSome) ↔
    (∃ path, Source.includeTarget? value.toList = some path ∧ path.1 ≠ .computed) ∨
      ∃ next, Source.includeTarget? value.toList = some (.computed, next) ∧
        ∀ l ∈ t.places depth within next, l.2.isSome := by
  rcases target_cases value with h | ⟨path, h, hpath⟩ | ⟨next, h⟩
  · simp [placesOf_of_none h, h]
  · simp [placesOf_of_path h hpath, h, hpath]
  · rw [placesOf_of_name h, List.forall_mem_map]
    simp [h]

/-- No leaf is missing if and only if all branches go on until they come to paths.  A leaf is missing
where a name is no macro, is being expanded already, or would be the macro that is one too many, and
where a value is no target at all. -/
theorem forall_isSome_places_iff : (∀ l ∈ t.places depth within e, l.2.isSome) ↔
    t.IsBranch depth within e [e] ∧
      ∀ names, t.IsBranch depth within e names → t.GoesOn depth within e names := by
  induction depth generalizing within e with
  | zero =>
    constructor
    · intro h
      cases h _ (List.mem_singleton_self _)
    · exact fun h => absurd h.1 not_isBranch_zero
  | succ depth ih =>
    by_cases hopens : t.Opens within e
    · rw [places_of_opens hopens]
      constructor
      · intro h
        have hvalue : ∀ value ∈ t.values e, (∃ path, Source.includeTarget? value.toList = some path ∧
            path.1 ≠ .computed) ∨ ∃ next, Source.includeTarget? value.toList =
              some (.computed, next) ∧ ∀ l ∈ t.places depth (e :: within) next, l.2.isSome := by
          intro value hvalue
          obtain ⟨i, hi⟩ := List.mem_iff_getElem?.1 hvalue
          refine (forall_isSome_placesOf_iff (i := i)).1 fun l hl => h l ?_
          exact List.mem_flatMap.2 ⟨(value, i), List.mem_zipIdx_iff_getElem?.2 hi, hl⟩
        refine ⟨hopens.isBranch, fun names hbranch last hlast value hv => ?_⟩
        obtain ⟨rest, rfl⟩ := List.head?_eq_some_iff.1 hbranch.head
        cases rest with
        | nil =>
          obtain rfl : e = last := Option.some.inj hlast
          refine (hvalue value hv).imp_right ?_
          rintro ⟨next, htarget, hall⟩
          exact ⟨next, htarget, (isBranch_cons_iff rfl).2
            ⟨hopens, ⟨value, hv, htarget⟩, (ih.1 hall).1⟩⟩
        | cons next rest =>
          -- the branch has gone on with some value, below which no leaf is missing either
          obtain ⟨-, ⟨value', hv', htarget'⟩, hbranch'⟩ := (isBranch_cons_iff rfl).1 hbranch
          have hall : ∀ l ∈ t.places depth (e :: within) next, l.2.isSome := by
            rcases hvalue value' hv' with ⟨path, hpath, hkind⟩ | ⟨next', hnext, hall⟩
            · rw [htarget'] at hpath
              cases hpath
              exact absurd rfl hkind
            · rw [htarget'] at hnext
              cases hnext
              exact hall
          refine ((ih.1 hall).2 _ hbranch' last hlast value hv).imp_right ?_
          rintro ⟨next', htarget, hlonger⟩
          exact ⟨next', htarget, (isBranch_cons_iff rfl).2
            ⟨hopens, ⟨value', hv', htarget'⟩, hlonger⟩⟩
      · rintro ⟨-, h⟩ l hl
        obtain ⟨⟨value, i⟩, hi, hl⟩ := List.mem_flatMap.1 hl
        have hv : value ∈ t.values e := List.mem_of_getElem? (List.mem_zipIdx_iff_getElem?.1 hi)
        refine (forall_isSome_placesOf_iff (i := i)).2 ?_ l hl
        refine (h [e] hopens.isBranch e rfl value hv).imp_right ?_
        rintro ⟨next, htarget, hbranch⟩
        obtain ⟨-, hstands, hnext⟩ := (isBranch_cons_iff rfl).1 hbranch
        -- a branch below the value is the rest of a longer one, on which the assumption is about
        refine ⟨next, htarget, ih.2 ⟨hnext, fun names hnames last hlast value' hv' => ?_⟩⟩
        have hlast' : last ∈ (e :: names).getLast? := by
          rw [List.getLast?_cons, Option.mem_def.1 hlast]
          rfl
        have hlonger := (isBranch_cons_iff hnames.head).2 ⟨hopens, hstands, hnames⟩
        refine (h _ hlonger last hlast' value' hv').imp_right ?_
        rintro ⟨next', htarget', hbranch'⟩
        have hhead : (names ++ [next']).head? = some next := by
          rw [List.head?_append, hnames.head]
          rfl
        exact ⟨next', htarget', ((isBranch_cons_iff hhead).1 hbranch').2.2⟩
    · rw [places_of_not_opens hopens]
      constructor
      · intro h
        cases h _ (List.mem_singleton_self _)
      · exact fun h => absurd h.1.opens hopens

/-! ## Expressions -/

/-- An expression stands for what is found on branches that start with it.  A branch goes from a
name to one of its values, does not come to a name twice, and is not longer than the limit. -/
theorem mem_paths_iff : path ∈ (t.expand e).paths ↔ ∃ names, t.IsBranch 16 [] e names ∧
    ∃ last ∈ names.getLast?, t.StandsFor last path ∧ path.1 ≠ .computed := by
  have hplaces : path ∈ (t.expand e).paths ↔ ∃ turns, (turns, some path) ∈ t.places 16 [] e := by
    show path ∈ ((t.leaves 16 [] e).filterMap id).eraseDups ↔ _
    rw [List.mem_eraseDups, List.mem_filterMap, ← map_places]
    simp
  rw [hplaces]
  constructor
  · rintro ⟨turns, hleaf⟩
    obtain ⟨names, hbranch, hleads⟩ := mem_places_iff.1 hleaf
    exact ⟨names, hbranch, (exists_leads_iff hbranch).1 ⟨turns, hleads⟩⟩
  · rintro ⟨names, hbranch, hlast⟩
    obtain ⟨turns, hleads⟩ := (exists_leads_iff hbranch).2 hlast
    exact ⟨turns, mem_places_iff.2 ⟨names, hbranch, hleads⟩⟩

/-- The paths come in the order of the places where they are found first, although a path may be
found again on later branches. -/
theorem pairwise_paths : (t.expand e).paths.Pairwise fun p q =>
    ∃ turns, t.FoundAt e turns p ∧ ∀ turns', t.FoundAt e turns' q → turns < turns' := by
  let found := (t.places 16 [] e).filterMap fun l => l.2.map fun path => (l.1, path)
  have hpaths : (t.expand e).paths = (found.map Prod.snd).eraseDups := by
    show ((t.leaves 16 [] e).filterMap id).eraseDups = _
    rw [← map_places, List.filterMap_map, List.map_filterMap]
    simp [Function.comp_def]
  have hmem : ∀ {turns path}, (turns, path) ∈ found ↔ t.FoundAt e turns path := by
    intro turns path
    rw [FoundAt, ← mem_places_iff, List.mem_filterMap]
    simp
  have hsorted : found.Pairwise fun x y => x.1 < y.1 := by
    refine pairwise_places.filterMap _ fun l l' hlt x hx y hy => ?_
    obtain ⟨-, -, rfl⟩ := Option.map_eq_some_iff.1 hx
    obtain ⟨-, -, rfl⟩ := Option.map_eq_some_iff.1 hy
    exact hlt
  rw [hpaths]
  simpa only [hmem] using pairwise_eraseDups hsorted

/-- An expression is expanded completely if and only if its branches go on until they come to
paths: none ends in something that is neither a path nor a macro, in a name that it has come to
before, or at the limit. -/
theorem isComplete_expand_iff : (t.expand e).isComplete ↔
    t.IsBranch 16 [] e [e] ∧ ∀ names, t.IsBranch 16 [] e names → t.GoesOn 16 [] e names := by
  rw [← forall_isSome_places_iff]
  show (t.leaves 16 [] e).all Option.isSome ↔ _
  rw [List.all_eq_true, ← map_places, List.forall_mem_map]

/-- An expression stands for the paths at the ends of its branches, each of them once and in the
order in which a search depth first comes to them, and it is expanded completely if and only if
every value at the end of a branch is a path or makes the branch longer. -/
theorem expand_exact (t : MacroTable) (e : String) :
    (t.expand e).paths.Nodup ∧
    (∀ path, path ∈ (t.expand e).paths ↔ ∃ names, t.IsBranch 16 [] e names ∧
      ∃ last ∈ names.getLast?, t.StandsFor last path ∧ path.1 ≠ .computed) ∧
    ((t.expand e).paths.Pairwise fun p q =>
      ∃ turns, t.FoundAt e turns p ∧ ∀ turns', t.FoundAt e turns' q → turns < turns') ∧
    ((t.expand e).isComplete ↔
      t.IsBranch 16 [] e [e] ∧ ∀ names, t.IsBranch 16 [] e names → t.GoesOn 16 [] e names) := by
  refine ⟨pairwise_paths.imp ?_, fun path => mem_paths_iff, pairwise_paths, isComplete_expand_iff⟩
  rintro p q ⟨turns, hfound, hleast⟩ rfl
  exact absurd (hleast turns hfound) (List.lt_irrefl turns)

/-- A macro that leads back to itself, and nevertheless stands for two paths. -/
example : let t : MacroTable := ofMap (.ofList [("A", "B"), ("B", "A")])
    let e := ((t.define "B" "<b.h>").define "A" "\"a.h\"").expand "A"
    e.paths = [(.system, "b.h"), (.quoted, "a.h")] ∧ e.isComplete = false := by
  decide +kernel

end MacroTable

end IncludeDeps
