import IncludeDeps.Proofs.Pass

/-!
# The turns of a walk

A walk keeps a stack.  Each turn takes away what is on top of it, and if that was not entered before, enters
it and puts on the stack whatever it leads to that was not entered yet.  So a file may be on the stack many
times, and files that were entered in the meantime are taken away without more ado.

`Walk.turn` is one turn.  The turns end (`Walk.Explores.exists_ends`), with the walk that `Pass.visit` makes,
and there are not many of them: what a turn puts on the stack, it adds to the entries that are recorded for
files that were entered (`Walk.Ready.length_turn_le`), and these are counted once each.
`Walk.Explores.exists_ends_le` is what this comes to.
-/

namespace IncludeDeps

namespace OrderedSet

variable {α : Type} [Ord α] [Std.TransOrd α]

omit [Std.TransOrd α] in
lemma perm_insertEntry {k : α} {l : List (α × Unit)} (h : ∀ e ∈ l, compare k e.1 ≠ .eq) :
    (OrderedMap.insertEntry id k () l).Perm ((k, ()) :: l) := by
  induction l with
  | nil => exact .refl _
  | cons d rest ih =>
    unfold OrderedMap.insertEntry
    split
    · exact .refl _
    · next heq => exact absurd heq (h d List.mem_cons_self)
    · exact ((ih fun e he => h e (List.mem_cons_of_mem _ he)).cons d).trans (.swap _ _ _)

lemma perm_insert {s : OrderedSet α} {a : α} (h : s.contains a = false) :
    (s.insert a).toList.Perm (a :: s.toList) := by
  have hne : ∀ e ∈ s.toMap.toList, compare a e.1 ≠ .eq := by
    intro e he heq
    obtain ⟨b, hb, rfl⟩ := List.mem_map.1 he
    have hin : s.contains a := contains_iff.2 ⟨b, hb, heq⟩
    rw [h] at hin
    cases hin
  have hperm := (perm_insertEntry hne).map Prod.fst
  rw [List.map_cons, toMap, List.map_map] at hperm
  exact hperm.trans ((List.Perm.of_eq (List.map_id _)).cons a)

end OrderedSet

/-- How many entries are recorded for a file. -/
def Pass.recorded (pass : Pass) (p : Path) : ℕ := (pass.files.get? p).elim 0 (·.resolved.length)

namespace Walk

/-- Whether a file was not entered yet. -/
def isNew (w : Walk) (p : Path) : Bool := !w.visited.contains p

/-- One turn of a walk, with the stack that it goes on with. -/
def turn (c : PassContext) : List Path × Walk → List Path × Walk
  | ([], w) => ([], w)
  | (p :: rest, w) =>
    if w.isNew p then
      let (next, w) := w.enter c p
      (next.filter w.isNew ++ rest, w)
    else (rest, w)

/-- The turns that begin with `s` come to an end, which is `w`, after `n` of them and not before. -/
structure Ends (c : PassContext) (s : List Path × Walk) (n : ℕ) (w : Walk) : Prop where
  done : (turn c)^[n] s = ([], w)
  busy : ∀ m < n, ((turn c)^[m] s).1 ≠ []

/-- The entries that are recorded for all files that were entered, counted. -/
def load (w : Walk) : ℕ := (w.visited.toList.map w.pass.recorded).sum

/-- A walk in a coherent pass, with canonical paths on the stack. -/
structure Ready (c : PassContext) (s : List Path × Walk) : Prop where
  sound : s.2.Sound c
  canonical : ∀ p ∈ s.1, p.IsCanonical

variable {c : PassContext} {s : List Path × Walk} {w w' : Walk} {p q : Path} {rest stack : List Path} {n : ℕ}

/-! ## What a turn does -/

lemma turn_of_visited (h : w.visited.contains p) : turn c (p :: rest, w) = (rest, w) := by
  rw [turn, isNew, h]
  rfl

lemma turn_of_new (h : w.visited.contains p = false) :
    turn c (p :: rest, w) =
      ((w.enter c p).1.filter (w.enter c p).2.isNew ++ rest, (w.enter c p).2) := by
  rw [turn, isNew, h]
  rfl

lemma Ready.turn (h : Ready c s) : Ready c (turn c s) := by
  obtain ⟨_ | ⟨p, rest⟩, w⟩ := s
  · exact h
  · have hp := h.canonical p List.mem_cons_self
    cases hvisited : w.visited.contains p with
    | true =>
      rw [turn_of_visited hvisited]
      exact ⟨h.sound, fun q hq => h.canonical q (List.mem_cons_of_mem _ hq)⟩
    | false =>
      rw [turn_of_new hvisited]
      refine ⟨sound_enter h.sound hp, fun q hq => canonical_push h.sound h.canonical q ?_⟩
      exact (List.filter_sublist.append_right rest).subset hq

lemma Ready.turns (h : Ready c s) (n : ℕ) : Ready c ((Walk.turn c)^[n] s) := by
  induction n with
  | zero => exact h
  | succ n ih =>
    rw [Function.iterate_succ_apply']
    exact ih.turn

/-! ## How many turns there are -/

/-- A step goes on with no more files than entries are recorded. -/
lemma length_next_le (hw : w.Sound c) (hp : p.IsCanonical) :
    (w.enter c p).1.length ≤ (w.enter c p).2.pass.recorded p := by
  rcases enter_cases hw hp with ⟨d, -, h⟩ | ⟨-, h⟩
  · rw [h.next, Pass.recorded, h.pass.files, if_pos Std.ReflCmp.compare_self]
    exact List.length_filterMap_le _ _
  · rw [h.next]
    exact Nat.zero_le _

/-- The entries of a file that is entered are put to those of the others, which stay as they are. -/
lemma load_enter (hw : w.Sound c) (hp : p.IsCanonical) (h : w.visited.contains p = false) :
    (w.enter c p).2.load = (w.enter c p).2.pass.recorded p + w.load := by
  have hothers : w.visited.toList.map (w.enter c p).2.pass.recorded =
      w.visited.toList.map w.pass.recorded := by
    refine List.map_congr_left fun q hq => ?_
    have hne := Explores.compare_ne_of_visited h (OrderedSet.contains_of_mem hq)
    rw [Pass.recorded, Explores.get?_enter_of_ne hw hp hne, Pass.recorded]
  rw [load, visited_enter, ((OrderedSet.perm_insert h).map _).sum_eq, List.map_cons, List.sum_cons, hothers,
    load]

/-- A turn takes one file from the stack, and what it puts there is recorded. -/
lemma Ready.length_turn_le (h : Ready c s) (hs : s.1 ≠ []) :
    (Walk.turn c s).1.length + 1 + s.2.load ≤ s.1.length + (Walk.turn c s).2.load := by
  obtain ⟨_ | ⟨p, rest⟩, w⟩ := s
  · exact absurd rfl hs
  · have hp := h.canonical p List.mem_cons_self
    cases hvisited : w.visited.contains p with
    | true =>
      rw [turn_of_visited hvisited]
      rfl
    | false =>
      have hw : w.Sound c := h.sound
      have hpushed := List.length_filter_le (w.enter c p).2.isNew (w.enter c p).1
      have hnext := length_next_le hw hp
      have hload := load_enter hw hp hvisited
      simp only [turn_of_new hvisited, List.length_append, List.length_cons]
      omega

lemma Ready.length_turns_le (h : Ready c s) (hbusy : ∀ m < n, ((Walk.turn c)^[m] s).1 ≠ []) :
    ((Walk.turn c)^[n] s).1.length + n + s.2.load ≤ s.1.length + ((Walk.turn c)^[n] s).2.load := by
  induction n with
  | zero => rfl
  | succ n ih =>
    have hbefore := ih fun m hm => hbusy m (hm.trans n.lt_succ_self)
    have hturn := (h.turns n).length_turn_le (hbusy n n.lt_succ_self)
    rw [Function.iterate_succ_apply']
    omega

/-- There are no more turns than files on the stack in the beginning, and entries recorded on the
way.  A turn takes one file from the stack, and puts there what is recorded for a file that is
entered for the first time on this walk, and only then. -/
theorem Ends.le (h : Ends c s n w) (hs : Ready c s) : n + s.2.load ≤ s.1.length + w.load := by
  have hall := hs.length_turns_le h.busy
  rw [h.done, List.length_nil, zero_add] at hall
  exact hall

/-! ## The turns end -/

lemma ends_nil (w : Walk) : Ends c ([], w) 0 w := ⟨rfl, fun _ h => absurd h (Nat.not_lt_zero _)⟩

lemma Ends.cons (h : Ends c (turn c (p :: rest, w)) n w') : Ends c (p :: rest, w) (n + 1) w' := by
  refine ⟨h.done, fun m hm => ?_⟩
  cases m with
  | zero => exact List.cons_ne_nil p rest
  | succ m => exact h.busy m (Nat.lt_of_succ_lt_succ hm)

/-- Files that were entered are taken from the stack. -/
lemma Ends.append {l : List Path} (hl : ∀ q ∈ l, w.visited.contains q) (h : Ends c (stack, w) n w') :
    Ends c (l ++ stack, w) (l.length + n) w' := by
  induction l with
  | nil => rwa [List.nil_append, List.length_nil, zero_add]
  | cons q l ih =>
    have hrest := ih fun q' hq' => hl q' (List.mem_cons_of_mem _ hq')
    rw [← turn_of_visited (hl q List.mem_cons_self)] at hrest
    have hcons := Ends.cons hrest
    rwa [Nat.add_right_comm] at hcons

lemma isNew_of_isNew_enter (h : (w.enter c p).2.isNew q) : w.isNew q := by
  rw [isNew, Bool.not_eq_true'] at h ⊢
  exact (not_visited_enter.1 h).2

/-- What is left of a stack when a file was entered does not depend on what was entered before. -/
lemma filter_isNew_enter {l l' : List Path} (h : l.filter w.isNew = l'.filter w.isNew) :
    l.filter (w.enter c p).2.isNew = l'.filter (w.enter c p).2.isNew := by
  have hnarrow : ∀ l : List Path, (l.filter w.isNew).filter (w.enter c p).2.isNew =
      l.filter (w.enter c p).2.isNew := by
    intro l
    rw [List.filter_filter]
    refine List.filter_congr fun q _ => ?_
    rw [Bool.and_eq_left_iff_imp]
    exact isNew_of_isNew_enter
  rw [← hnarrow l, h, hnarrow]

/-- A walk is made by turns, on any stack with the same files that are to be entered.  The turns
leave out what was entered before when they put files on the stack, and the walk only when it takes
them away, so the two stacks may differ. -/
theorem Explores.exists_ends (h : Explores c stack w w') {l : List Path}
    (hl : l.filter w.isNew = stack.filter w.isNew) : ∃ n, Ends c (l, w) n w' := by
  -- by the exploration: the recursive walk and the turns may have different stacks, but the files
  -- on them that are new are the same, in the same order
  induction h generalizing l with
  | done w =>
    have hvisited : ∀ q ∈ l, w.visited.contains q := by
      simpa [isNew, List.filter_eq_nil_iff] using hl
    have hends := (ends_nil (c := c) w).append hvisited
    rw [List.append_nil] at hends
    exact ⟨_, hends⟩
  | @skip p rest w w' hp _ ih =>
    have hnew : w.isNew p = false := by
      rw [isNew, hp]
      rfl
    rw [List.filter_cons_of_neg (by rw [hnew]; exact Bool.false_ne_true)] at hl
    exact ih hl
  | @enter p rest w w' hp _ ih =>
    have hnew : w.isNew p := by
      rw [isNew, hp]
      rfl
    rw [List.filter_cons_of_pos hnew] at hl
    obtain ⟨before, after, rfl, hbefore, -, hafter⟩ := List.filter_eq_cons_iff.1 hl
    have hstack : ((w.enter c p).1.filter (w.enter c p).2.isNew ++ after).filter (w.enter c p).2.isNew =
        ((w.enter c p).1 ++ rest).filter (w.enter c p).2.isNew := by
      rw [List.filter_append, List.filter_append, filter_isNew_enter hafter, List.filter_filter]
      simp only [Bool.and_self]
    obtain ⟨n, hn⟩ := ih hstack
    rw [← turn_of_new hp] at hn
    have hvisited : ∀ q ∈ before, w.visited.contains q := by
      simpa [isNew] using hbefore
    exact ⟨_, hn.cons.append hvisited⟩

/-- The walk from a source is made by turns.  There is one for the source, and at most one for each entry that
is recorded in the end for a file that was entered. -/
theorem Explores.exists_ends_le {pass : Pass} {source : Path}
    (h : Explores c [source] (pass.setOut c) w) (hc : pass.Coherent c) (hs : source.IsCanonical) :
    ∃ n, Ends c ([source], pass.setOut c) n w ∧ n ≤ 1 + w.load := by
  obtain ⟨n, hn⟩ := h.exists_ends rfl
  have hle := hn.le ⟨hc.sound_setOut, by simpa using hs⟩
  exact ⟨n, hn, (Nat.le_add_right n _).trans hle⟩

end Walk

end IncludeDeps
