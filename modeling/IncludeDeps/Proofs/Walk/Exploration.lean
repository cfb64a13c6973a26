import IncludeDeps.Proofs.Walk
import Mathlib.Logic.Relation

/-!
# Whole walks

`Walk.Explores` is a walk to its end, without a bound on its length: it tells which walk is left
when everything on the stack and all that it leads to has been entered.

* `Walk.Explores.preserves` carries an invariant of single steps through a whole walk;
* `Walk.Explores.append_iff` cuts a walk where its stack is cut;
* `Walk.Explores.get?_of_visited` and `Walk.Explores.get?_of_not_visited`: what is known of a file
  does not change once it was entered, nor if it never is;
* `Walk.Explores.closed` and `Walk.Explores.reached`: entered is what was entered before and what
  the stack leads to.
-/

namespace IncludeDeps

namespace Walk

/-- The walk `w` turns into `w'` when the files on the stack, and all that they lead to, are
entered. -/
inductive Explores (c : PassContext) : List Path → Walk → Walk → Prop
  | done (w : Walk) : Explores c [] w w
  | skip {p : Path} {rest : List Path} {w w' : Walk} :
    w.visited.contains p → Explores c rest w w' → Explores c (p :: rest) w w'
  | enter {p : Path} {rest : List Path} {w w' : Walk} :
    w.visited.contains p = false →
    Explores c ((w.enter c p).1 ++ rest) (w.enter c p).2 w' → Explores c (p :: rest) w w'

variable {c : PassContext} {w w' : Walk} {p q : Path} {stack : List Path}

@[simp] lemma visited_enter (c : PassContext) (w : Walk) (p : Path) :
    (w.enter c p).2.visited = w.visited.insert p := by
  unfold enter
  simp only
  split
  · rfl
  · split
    · rfl
    · rfl

lemma contains_visited_enter :
    (w.enter c p).2.visited.contains q ↔ compare q p = .eq ∨ w.visited.contains q := by
  rw [visited_enter, OrderedSet.contains_insert]

lemma not_visited_enter : (w.enter c p).2.visited.contains q = false ↔
    compare q p ≠ .eq ∧ w.visited.contains q = false := by
  rw [← Bool.not_eq_true, contains_visited_enter, not_or, Bool.not_eq_true]

lemma canonical_push (hw : w.Sound c) (hs : ∀ q ∈ p :: stack, q.IsCanonical) :
    ∀ q ∈ (w.enter c p).1 ++ stack, q.IsCanonical := by
  intro q hq
  rcases List.mem_append.1 hq with hq | hq
  · exact (isFile_of_mem_next hw (hs p List.mem_cons_self) hq).1
  · exact hs q (List.mem_cons_of_mem _ hq)

namespace Explores

/-! ## Stacks -/

lemma append {stack' : List Path} {w'' : Walk} (h : Explores c stack w w')
    (h' : Explores c stack' w' w'') : Explores c (stack ++ stack') w w'' := by
  induction h with
  | done w => exact h'
  | skip hp _ ih => exact .skip hp (ih h')
  | enter hp _ ih =>
    have hrest := ih h'
    rw [List.append_assoc] at hrest
    exact .enter hp hrest

lemma exists_of_append {stack₁ stack₂ : List Path} (h : Explores c (stack₁ ++ stack₂) w w') :
    ∃ v, Explores c stack₁ w v ∧ Explores c stack₂ v w' := by
  -- on the walk; what is entered pushes onto the first stack, so the cut stays above the second
  -- one
  generalize hs : stack₁ ++ stack₂ = stack at h
  induction h generalizing stack₁ with
  | done w =>
    obtain ⟨rfl, rfl⟩ := List.append_eq_nil_iff.1 hs
    exact ⟨w, .done w, .done w⟩
  | @skip p rest w w' hp hrest ih =>
    cases stack₁ with
    | nil =>
      rw [List.nil_append] at hs
      exact ⟨w, .done w, hs ▸ .skip hp hrest⟩
    | cons q stack₁ =>
      obtain ⟨rfl, rfl⟩ := List.cons.inj hs
      obtain ⟨v, h₁, h₂⟩ := ih rfl
      exact ⟨v, .skip hp h₁, h₂⟩
  | @enter p rest w w' hp hrest ih =>
    cases stack₁ with
    | nil =>
      rw [List.nil_append] at hs
      exact ⟨w, .done w, hs ▸ .enter hp hrest⟩
    | cons q stack₁ =>
      obtain ⟨rfl, rfl⟩ := List.cons.inj hs
      have hassoc := List.append_assoc (w.enter c q).1 stack₁ stack₂
      obtain ⟨v, h₁, h₂⟩ := ih hassoc
      exact ⟨v, .enter hp h₁, h₂⟩

/-- A walk is cut where its stack is cut: what is in front is walked to the end before anything
behind it is entered. -/
theorem append_iff {stack₁ stack₂ : List Path} :
    Explores c (stack₁ ++ stack₂) w w' ↔
      ∃ v, Explores c stack₁ w v ∧ Explores c stack₂ v w' := by
  constructor
  · exact exists_of_append
  · rintro ⟨v, h₁, h₂⟩
    exact h₁.append h₂

/-- There is only one way to walk, so a walk is determined by its stack and by what was known at
the start. -/
theorem unique {w'' : Walk} (h : Explores c stack w w') (h' : Explores c stack w w'') :
    w' = w'' := by
  induction h with
  | done w =>
    cases h'
    rfl
  | skip hp _ ih =>
    cases h' with
    | skip _ h' => exact ih h'
    | enter hnot _ =>
      rw [hp] at hnot
      cases hnot
  | enter hp _ ih =>
    cases h' with
    | skip hnot _ =>
      rw [hp] at hnot
      cases hnot
    | enter _ h' => exact ih h'

lemma of_visited (h : ∀ p ∈ stack, w.visited.contains p) : Explores c stack w w := by
  induction stack with
  | nil => exact .done w
  | cons p rest ih =>
    exact .skip (h p List.mem_cons_self) (ih fun q hq => h q (List.mem_cons_of_mem _ hq))

/-! ## Invariants of whole walks -/

/-- What every step keeps, a whole walk keeps.  A step may rely on what holds all along: that its
file is canonical and was not entered before, and that what is known fits what can be read. -/
theorem preserves {P : Walk → Prop}
    (hstep : ∀ w p, w.Sound c → p.IsCanonical → w.visited.contains p = false → P w →
      P (w.enter c p).2)
    (h : Explores c stack w w') (hw : w.Sound c) (hs : ∀ p ∈ stack, p.IsCanonical) (hP : P w) :
    w'.Sound c ∧ P w' := by
  induction h with
  | done w => exact ⟨hw, hP⟩
  | skip _ _ ih => exact ih hw (fun q hq => hs q (List.mem_cons_of_mem _ hq)) hP
  | @enter p rest w w' hp _ ih =>
    have hcanonical : p.IsCanonical := hs p List.mem_cons_self
    exact ih (sound_enter hw hcanonical) (canonical_push hw hs) (hstep w p hw hcanonical hp hP)

lemma sound (h : Explores c stack w w') (hw : w.Sound c) (hs : ∀ p ∈ stack, p.IsCanonical) :
    w'.Sound c :=
  (h.preserves (P := fun _ => True) (fun _ _ _ _ _ _ => trivial) hw hs trivial).1

lemma visited_mono (h : Explores c stack w w') (hq : w.visited.contains q) :
    w'.visited.contains q := by
  induction h with
  | done w => exact hq
  | skip _ _ ih => exact ih hq
  | enter _ _ ih => exact ih (contains_visited_enter.2 (.inr hq))

lemma visited_of_mem (h : Explores c stack w w') (hq : q ∈ stack) : w'.visited.contains q := by
  induction h with
  | done w => cases hq
  | skip hp hrest ih =>
    rcases List.mem_cons.1 hq with rfl | hq
    · exact hrest.visited_mono hp
    · exact ih hq
  | @enter p rest w w' hp hrest ih =>
    rcases List.mem_cons.1 hq with rfl | hq
    · exact hrest.visited_mono (contains_visited_enter.2 (.inl Std.ReflCmp.compare_self))
    · exact ih (List.mem_append_right _ hq)

lemma isIncomplete_mono (h : Explores c stack w w') (hw : w.Sound c)
    (hs : ∀ p ∈ stack, p.IsCanonical) (hflag : w.pass.isIncomplete) : w'.pass.isIncomplete := by
  refine (h.preserves (P := fun w => w.pass.isIncomplete) ?_ hw hs hflag).2
  intro w p hw hp _ hflag
  rcases enter_cases hw hp with ⟨d, -, h⟩ | ⟨-, h⟩
  · rw [h.isIncomplete, hflag]
    rfl
  · rw [h.isIncomplete, hflag]

lemma isIncomplete_eq_false (h : Explores c stack w w') (hw : w.Sound c)
    (hs : ∀ p ∈ stack, p.IsCanonical) (hflag : w'.pass.isIncomplete = false) :
    w.pass.isIncomplete = false := by
  rw [Bool.eq_false_iff] at hflag ⊢
  exact fun hstart => hflag (h.isIncomplete_mono hw hs hstart)

/-! ## What is known of files -/

/-- A step changes what is known of its own file only. -/
lemma get?_enter_of_ne (hw : w.Sound c) (hp : p.IsCanonical) (hq : compare q p ≠ .eq) :
    (w.enter c p).2.pass.files.get? q = w.pass.files.get? q := by
  rcases enter_cases hw hp with ⟨d, -, h⟩ | ⟨-, h⟩
  · rw [h.pass.files, if_neg hq]
  · rw [h.pass.files]

lemma compare_ne_of_visited (hp : w.visited.contains p = false) (hq : w.visited.contains q) :
    compare q p ≠ .eq := by
  intro heq
  rw [OrderedSet.contains_congr heq, hp] at hq
  cases hq

/-- What is known of a file does not change once it was entered.  This is about one walk: a walk
from another source may enter the file again and find more. -/
theorem get?_of_visited (h : Explores c stack w w') (hw : w.Sound c)
    (hs : ∀ p ∈ stack, p.IsCanonical) (hq : w.visited.contains q) :
    w'.pass.files.get? q = w.pass.files.get? q := by
  let P : Walk → Prop := fun v => v.visited.contains q ∧ v.pass.files.get? q = w.pass.files.get? q
  have hstep : ∀ v p, v.Sound c → p.IsCanonical → v.visited.contains p = false → P v →
      P (v.enter c p).2 := by
    rintro v p hv hp hnot ⟨hvq, hfiles⟩
    refine ⟨contains_visited_enter.2 (.inr hvq), ?_⟩
    rw [get?_enter_of_ne hv hp (compare_ne_of_visited hnot hvq), hfiles]
  exact (h.preserves hstep hw hs ⟨hq, rfl⟩).2.2

lemma get?_of_not_visited (h : Explores c stack w w') (hw : w.Sound c)
    (hs : ∀ q ∈ stack, q.IsCanonical) (hp : w'.visited.contains p = false) :
    w'.pass.files.get? p = w.pass.files.get? p := by
  let P : Walk → Prop := fun v =>
    v.visited.contains p = false → v.pass.files.get? p = w.pass.files.get? p
  refine (h.preserves (P := P) ?_ hw hs fun _ => rfl).2 hp
  intro v r hv hr _ hP hnot
  obtain ⟨hne, hold⟩ := not_visited_enter.1 hnot
  rw [get?_enter_of_ne hv hr hne, hP hold]

end Explores

/-! ## Where a walk leads -/

/-- The file `p` is known, and one of its includes was resolved to `q`. -/
def Leads (w : Walk) (p q : Path) : Prop := ∃ d, w.pass.files.get? p = some d ∧ q ∈ d.next

namespace Explores

lemma leads_enter (hw : w.Sound c) (hp : p.IsCanonical) :
    (w.enter c p).2.Leads p q ↔ q ∈ (w.enter c p).1 := by
  rcases enter_cases hw hp with ⟨d, -, h⟩ | ⟨hd, h⟩
  · rw [Leads, h.next, h.pass.files, if_pos Std.ReflCmp.compare_self]
    simp
  · rw [Leads, h.next, h.pass.files, Pass.get?_eq_none_of_look? hd]
    simp

/-- What a file that was entered leads to is entered as well, with what is known of the file in the
end, since nothing is added after the file was entered. -/
theorem closed (h : Explores c stack w w') (hw : w.Sound c) (hs : ∀ p ∈ stack, p.IsCanonical)
    (hp : p.IsCanonical) (hvisited : w'.visited.contains p) (hnew : w.visited.contains p = false)
    (hq : w'.Leads p q) : w'.visited.contains q := by
  induction h with
  | done w =>
    rw [hvisited] at hnew
    cases hnew
  | skip _ _ ih => exact ih hw (fun q hq => hs q (List.mem_cons_of_mem _ hq)) hvisited hnew hq
  | @enter p' rest w w' hp' hrest ih =>
    have hcanonical : p'.IsCanonical := hs p' List.mem_cons_self
    have hsound := sound_enter hw hcanonical
    have hstack := canonical_push hw hs
    by_cases heq : compare p p' = .eq
    · obtain rfl := hp.eq_of_compare hcanonical heq
      have hin : (w.enter c p).2.visited.contains p :=
        contains_visited_enter.2 (.inl Std.ReflCmp.compare_self)
      rw [Leads, hrest.get?_of_visited hsound hstack hin] at hq
      exact hrest.visited_of_mem (List.mem_append_left _ ((leads_enter hw hcanonical).1 hq))
    · exact ih hsound hstack hvisited (not_visited_enter.2 ⟨heq, hnew⟩) hq

/-- Whatever is entered was entered before, or the stack leads to it.  So a walk from a source does
not enter more than the source leads to. -/
theorem reached (h : Explores c stack w w') (hw : w.Sound c) (hs : ∀ p ∈ stack, p.IsCanonical)
    (hq : q.IsCanonical) (hvisited : w'.visited.contains q) :
    w.visited.contains q ∨ ∃ p ∈ stack, Relation.ReflTransGen w'.Leads p q := by
  induction h with
  | done w => exact .inl hvisited
  | skip _ _ ih =>
    rcases ih hw (fun q hq => hs q (List.mem_cons_of_mem _ hq)) hvisited with h | ⟨p, hp, h⟩
    · exact .inl h
    · exact .inr ⟨p, List.mem_cons_of_mem _ hp, h⟩
  | @enter p' rest w w' hp' hrest ih =>
    have hcanonical : p'.IsCanonical := hs p' List.mem_cons_self
    have hsound := sound_enter hw hcanonical
    have hstack := canonical_push hw hs
    rcases ih hsound hstack hvisited with h | ⟨p, hp, h⟩
    · rcases contains_visited_enter.1 h with heq | h
      · obtain rfl := hq.eq_of_compare hcanonical heq
        exact .inr ⟨q, List.mem_cons_self, .refl⟩
      · exact .inl h
    · rcases List.mem_append.1 hp with hp | hp
      · -- a header that the first file on the stack leads to
        have hin : (w.enter c p').2.visited.contains p' :=
          contains_visited_enter.2 (.inl Std.ReflCmp.compare_self)
        have hleads : w'.Leads p' p := by
          rw [Leads, hrest.get?_of_visited hsound hstack hin]
          exact (leads_enter hw hcanonical).2 hp
        exact .inr ⟨p', List.mem_cons_self, .head hleads h⟩
      · exact .inr ⟨p, List.mem_cons_of_mem _ hp, h⟩

end Explores

end Walk

end IncludeDeps
