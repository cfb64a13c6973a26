import IncludeDeps.Path
import Mathlib.Tactic.Lemma

/-!
# Canonical paths

Paths are compared by their components, but shown and looked up by their texts.  For the paths
that normalisation makes the two agree: `Path.components_normalize` says which components the
canonical text has, and `Path.IsCanonical.eq_of_compare` that canonical paths which compare as
equal are the same text.

Later modules speak of the components of a path and hardly ever of its text.  What it takes for
that is here: `Path.components_ofList_cons` and `Path.components_append_slash` tell the components
of a text, `Path.components_join` those of a path with a step after it, and
`Path.components_ofComponents` that components are read back from the text that is made of them.
-/

namespace IncludeDeps

namespace Path

/-! ## Components that compare as equal -/

instance : Std.LawfulEqOrd Component where
  eq_of_compare {a b} h := by
    have hlex : compareLex (compareOn Component.rank) (compareOn Component.text) a b = .eq := h
    rw [compareLex, Ordering.then_eq_eq] at hlex
    have hrank : a.rank = b.rank := Std.LawfulEqCmp.eq_of_compare hlex.1
    have htext : a.text = b.text := Std.LawfulEqCmp.eq_of_compare hlex.2
    cases a <;> cases b <;> simp_all [Component.rank, Component.text]

/-- Paths compare as equal if and only if their components are the same. -/
lemma compare_eq_iff {p q : Path} : compare p q = .eq ↔ p.components = q.components := by
  constructor
  · intro h
    have hcomponents : compare p.components q.components = .eq := h
    exact Std.LawfulEqCmp.eq_of_compare hcomponents
  · intro h
    show compare p.components q.components = .eq
    rw [h]
    exact Std.ReflCmp.compare_self

/-! ## Texts and their components -/

/-- A component that is one step: a name, or a step up. -/
def Component.IsStep (c : Component) : Prop :=
  ofSegment? c.text.toList = some c ∧ '/' ∉ c.text.toList

lemma Component.isStep_of_ofSegment? {s : List Char} {c : Component} (hs : '/' ∉ s)
    (h : ofSegment? s = some c) : c.IsStep := by
  unfold ofSegment? at h
  split at h
  · cases h
  · cases h
  · cases h
    exact ⟨rfl, by decide⟩
  · cases h
    simp_all [IsStep, Component.text, ofSegment?]

lemma not_mem_of_mem_splitOn {l s : List Char} (h : s ∈ l.splitOn '/') : '/' ∉ s := by
  induction l generalizing s with
  | nil =>
    rw [List.splitOn_nil, List.mem_singleton] at h
    simp [h]
  | cons c rest ih =>
    rw [List.splitOn_cons_eq_if_modifyHead] at h
    split at h
    · rcases List.mem_cons.1 h with rfl | h
      · simp
      · exact ih h
    · next hc =>
      obtain ⟨first, others, hsplit⟩ := List.exists_cons_of_ne_nil (List.splitOn_ne_nil '/' rest)
      rw [hsplit, List.modifyHead_cons] at h
      rcases List.mem_cons.1 h with rfl | h
      · have hfirst : '/' ∉ first := ih (by rw [hsplit]; exact List.mem_cons_self)
        simp only [beq_iff_eq] at hc
        simp [hfirst, Ne.symm hc]
      · exact ih (by rw [hsplit]; exact List.mem_cons_of_mem _ h)

lemma slash_of_mem_segments {p : Path} {s : List Char} (h : s ∈ p.split.2) : '/' ∉ s := by
  unfold split at h
  split at h
  · exact not_mem_of_mem_splitOn h
  · cases h
  · rcases List.mem_cons.1 h with rfl | h
    · simp
    · exact not_mem_of_mem_splitOn h
  · exact not_mem_of_mem_splitOn h

lemma isStep_of_mem_segments {p : Path} {c : Component}
    (h : c ∈ p.split.2.filterMap Component.ofSegment?) : c.IsStep := by
  obtain ⟨s, hs, hc⟩ := List.mem_filterMap.1 h
  exact Component.isStep_of_ofSegment? (slash_of_mem_segments hs) hc

/-- The start of a text that is not empty, and the segments after it, without the text. -/
lemma components_ofList_cons (c : Char) (rest : List Char) :
    components ⟨String.ofList (c :: rest)⟩ =
      if c = '/' then .root :: (rest.splitOn '/').filterMap Component.ofSegment?
      else if c = '.' ∧ (rest.splitOn '/').headD [] = [] then
        .here :: (rest.splitOn '/').filterMap Component.ofSegment?
      else ((c :: rest).splitOn '/').filterMap Component.ofSegment? := by
  have hvoid : Component.ofSegment? [] = none := rfl
  by_cases hc : c = '/'
  · simp [components, split, hc, Lead.component?]
  · rw [if_neg hc]
    by_cases hdot : c = '.'
    · cases rest with
      | nil => simp [components, split, hdot, Lead.component?, hvoid]
      | cons d rest =>
        by_cases hd : d = '/'
        · simp [components, split, hdot, hd, Lead.component?, List.splitOn_cons_eq_if_modifyHead,
            hvoid]
        · -- a dot with more behind it is a part of a name
          have hhead : ((d :: rest).splitOn '/').headD [] ≠ [] := by
            obtain ⟨first, others, hs⟩ :=
              List.exists_cons_of_ne_nil (List.splitOn_ne_nil '/' rest)
            simp [List.splitOn_cons_eq_if_modifyHead, hd, hs]
          rw [if_neg (fun h => hhead h.2)]
          simp [components, split, hdot, hd, Lead.component?]
    · rw [if_neg (fun h => hdot h.1)]
      simp [components, split, hc, hdot, Lead.component?]

lemma splitOn_append {seg : List Char} (hseg : '/' ∉ seg) (l : List Char) :
    (l ++ '/' :: seg).splitOn '/' = l.splitOn '/' ++ [seg] := by
  rw [List.splitOn_append_cons_self, List.splitOn_eq_singleton hseg]

/-- A slash and a text add the components of the segments of the text. -/
lemma components_append_slash {cs l : List Char} (hcs : cs ≠ []) :
    components ⟨String.ofList (cs ++ '/' :: l)⟩ =
      components ⟨String.ofList cs⟩ ++ (l.splitOn '/').filterMap Component.ofSegment? := by
  obtain ⟨c, rest, rfl⟩ := List.exists_cons_of_ne_nil hcs
  have hhead : (rest.splitOn '/' ++ l.splitOn '/').headD [] = (rest.splitOn '/').headD [] := by
    obtain ⟨first, others, hs⟩ := List.exists_cons_of_ne_nil (List.splitOn_ne_nil '/' rest)
    rw [hs]
    rfl
  rw [List.cons_append, components_ofList_cons, components_ofList_cons, List.splitOn_append_cons_self,
    hhead, ← List.cons_append, List.splitOn_append_cons_self, List.filterMap_append,
    List.filterMap_append]
  split
  · rfl
  · split
    · rfl
    · rfl

/-! ## Canonical texts -/

lemma isAbsolute_of_slash {t : String} (h : '/' ∉ t.toList) : isAbsolute ⟨t⟩ = false := by
  unfold isAbsolute split
  split
  · next heq => exact absurd (heq ▸ List.mem_cons_self) h
  · rfl
  · rfl
  · rfl

lemma isAbsolute_of_isStep {c : Component} (hc : c.IsStep) : isAbsolute ⟨c.text⟩ = false :=
  isAbsolute_of_slash hc.2

/-- The text of a step has that step as its only component. -/
lemma components_of_isStep {c : Component} (hc : c.IsStep) : components ⟨c.text⟩ = [c] := by
  obtain ⟨hseg, hslash⟩ := hc
  have htext : c.text = String.ofList c.text.toList := String.ofList_toList.symm
  cases htail : c.text.toList with
  | nil =>
    rw [htail] at hseg
    cases hseg
  | cons d rest =>
    have hd : d ≠ '/' := fun h => hslash (by rw [htail, h]; exact List.mem_cons_self)
    have hrest : '/' ∉ rest := fun h => hslash (by rw [htail]; exact List.mem_cons_of_mem _ h)
    have hdot : ¬ (d = '.' ∧ (rest.splitOn '/').headD [] = []) := by
      rintro ⟨rfl, hr⟩
      rw [List.splitOn_eq_singleton hrest, List.headD_cons] at hr
      rw [htail, hr] at hseg
      cases hseg
    rw [htext, htail, components_ofList_cons, if_neg hd, if_neg hdot, ← htail,
      List.splitOn_eq_singleton hslash]
    simp [hseg]

/-- A relative path adds the components of its segments. -/
lemma components_join_of_relative {p q : Path} (hp : p.text ≠ "") (hq : q.isAbsolute = false) :
    (p.join q).components =
      p.components ++ (q.text.toList.splitOn '/').filterMap Component.ofSegment? := by
  obtain ⟨text⟩ := p
  obtain ⟨cs, rfl⟩ : ∃ cs, text = String.ofList cs := ⟨_, String.ofList_toList.symm⟩
  have hcs : cs ≠ [] := by
    rintro rfl
    exact hp rfl
  have hslash : ∀ init : List Char,
      String.ofList (init ++ ['/']) ++ q.text = String.ofList (init ++ '/' :: q.text.toList) := by
    intro init
    rw [← String.toList_inj]
    simp
  rw [join, hq, if_neg Bool.false_ne_true]
  by_cases hend : cs.getLast? = some '/'
  · -- no further slash is put between the two
    obtain ⟨init, rfl⟩ := List.getLast?_eq_some_iff.1 hend
    rw [if_pos (by simp), hslash]
    by_cases hinit : init = []
    · subst hinit
      rw [List.nil_append, List.nil_append, components_ofList_cons, components_ofList_cons, if_pos rfl,
        if_pos rfl]
      simp [Component.ofSegment?]
    · have hvoid : ([].splitOn '/').filterMap Component.ofSegment? = [] := rfl
      rw [components_append_slash hinit, components_append_slash hinit, hvoid, List.append_nil]
  · -- otherwise the slash that is put between the two makes the first text end in one
    have hjoin : String.ofList cs ++ "/" ++ q.text = String.ofList (cs ++ ['/']) ++ q.text := by
      rw [String.ofList_append]
    rw [if_neg (by simp [hcs, hend]), hjoin, hslash, components_append_slash hcs]

lemma join_of_text_eq_empty {p : Path} (hp : p.text = "") (q : Path) : p.join q = q := by
  simp [join, hp]

lemma components_of_text_eq_empty {p : Path} (hp : p.text = "") : p.components = [] := by
  obtain ⟨text⟩ := p
  subst hp
  decide

lemma components_join {p : Path} {c : Component} (hc : c.IsStep) :
    (p.join ⟨c.text⟩).components = p.components ++ [c] := by
  by_cases hp : p.text = ""
  · rw [join_of_text_eq_empty hp, components_of_text_eq_empty hp, components_of_isStep hc]
    rfl
  · rw [components_join_of_relative hp (isAbsolute_of_isStep hc), List.splitOn_eq_singleton hc.2,
      List.filterMap_cons_some hc.1]
    rfl

lemma components_extend {cs : List Component} (p : Path) (hcs : ∀ c ∈ cs, c.IsStep) :
    (p.extend cs).components = p.components ++ cs := by
  induction cs generalizing p with
  | nil => simp [extend]
  | cons c rest ih =>
    have hc : c.IsStep := hcs c List.mem_cons_self
    show ((p.join ⟨c.text⟩).extend rest).components = _
    rw [ih _ fun d hd => hcs d (List.mem_cons_of_mem _ hd), components_join hc, List.append_assoc]
    rfl

/-- Components in canonical order: the root, if it is there, comes first, and all else is
steps. -/
def Component.AreCanonical (cs : List Component) : Prop :=
  ∃ steps : List Component, (∀ c ∈ steps, c.IsStep) ∧ (cs = steps ∨ cs = .root :: steps)

/-- The canonical text has the components that it is made of. -/
lemma components_ofComponents {cs : List Component} (hcs : Component.AreCanonical cs) :
    (ofComponents cs).components = cs := by
  obtain ⟨steps, hsteps, rfl | rfl⟩ := hcs
  · rw [ofComponents, components_extend _ hsteps]
    rfl
  · have hroot : (⟨""⟩ : Path).join ⟨Component.root.text⟩ = ⟨"/"⟩ := by decide
    show (((⟨""⟩ : Path).join ⟨Component.root.text⟩).extend steps).components = _
    rw [hroot, components_extend _ hsteps]
    have : components ⟨"/"⟩ = [.root] := by decide
    rw [this]
    rfl

/-! ## Normalisation -/

/-- What is kept while a path is normalised, the last component first. -/
def Component.AreKept (kept : List Component) : Prop :=
  ∃ steps : List Component, (∀ c ∈ steps, c.IsStep) ∧ (kept = steps ∨ kept = steps ++ [.root])

lemma areKept_cancel {kept : List Component} {c : Component} (hkept : Component.AreKept kept)
    (hc : c.IsStep) : Component.AreKept (cancel kept c) := by
  have hpush : Component.AreKept (c :: kept) := by
    obtain ⟨steps, hsteps, h⟩ := hkept
    refine ⟨c :: steps, by simpa using ⟨hc, hsteps⟩, ?_⟩
    rcases h with rfl | rfl
    · exact .inl rfl
    · exact .inr rfl
  unfold cancel
  split
  · exact hkept
  · obtain ⟨steps, hsteps, h | h⟩ := hkept
    · exact ⟨_, fun d hd => hsteps d (h ▸ List.mem_cons_of_mem _ hd), .inl rfl⟩
    · cases steps with
      | nil => cases h
      | cons d steps =>
        cases h
        exact ⟨steps, fun d hd => hsteps d (List.mem_cons_of_mem _ hd), .inr rfl⟩
  · exact hkept
  · exact hpush

lemma areKept_foldl_cancel {steps kept : List Component} (hkept : Component.AreKept kept)
    (hsteps : ∀ c ∈ steps, c.IsStep) : Component.AreKept (steps.foldl cancel kept) := by
  induction steps generalizing kept with
  | nil => exact hkept
  | cons c rest ih =>
    exact ih (areKept_cancel hkept (hsteps c List.mem_cons_self))
      fun d hd => hsteps d (List.mem_cons_of_mem _ hd)

lemma areKept_components (p : Path) : Component.AreKept (p.components.foldl cancel []) := by
  have hsteps : ∀ c ∈ p.split.2.filterMap Component.ofSegment?, c.IsStep :=
    fun _ => isStep_of_mem_segments
  rw [components, List.foldl_append]
  refine areKept_foldl_cancel ?_ hsteps
  cases p.split.1 with
  | root => exact ⟨[], by simp, .inr rfl⟩
  | here => exact ⟨[], by simp, .inl rfl⟩
  | bare => exact ⟨[], by simp, .inl rfl⟩

/-- The components of the canonical text are those that are left after cancelling. -/
lemma components_normalize (p : Path) :
    p.normalize.components = (p.components.foldl cancel []).reverse := by
  refine components_ofComponents ?_
  obtain ⟨steps, hsteps, h | h⟩ := areKept_components p
  · exact ⟨steps.reverse, by simpa using hsteps, .inl (by rw [h])⟩
  · exact ⟨steps.reverse, by simpa using hsteps, .inr (by rw [h, List.reverse_append]; rfl)⟩

/-- A path that normalisation makes.  Canonical paths that compare as equal are equal, which is why
files are known by them. -/
def IsCanonical (p : Path) : Prop := ∃ q : Path, p = q.normalize

lemma isCanonical_normalize (p : Path) : p.normalize.IsCanonical := ⟨p, rfl⟩

/-- Canonical paths that compare as equal have the same text. -/
lemma IsCanonical.eq_of_compare {p q : Path} (hp : p.IsCanonical) (hq : q.IsCanonical)
    (h : compare p q = .eq) : p = q := by
  obtain ⟨p, rfl⟩ := hp
  obtain ⟨q, rfl⟩ := hq
  have hcomponents := compare_eq_iff.1 h
  rw [components_normalize, components_normalize] at hcomponents
  rw [normalize, normalize, hcomponents]

lemma IsCanonical.compare_eq_iff {p q : Path} (hp : p.IsCanonical) (hq : q.IsCanonical) :
    compare p q = .eq ↔ p = q := by
  constructor
  · exact hp.eq_of_compare hq
  · rintro rfl
    exact Std.ReflCmp.compare_self

end Path

end IncludeDeps
