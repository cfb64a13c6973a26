import IncludeDeps.Source.LogicalLine
import Mathlib.Data.List.Basic
import Mathlib.Tactic.Lemma

/-!
# Physical and logical lines

What the lines of a text are, told from its first line break on, and how they are joined.

* `Text.lineInduction` goes through a text line by line; `Text.lines_append_break` and
  `Text.lines_of_notMem` are what it meets at a line and at the end;
* `Source.joinLines_continued` and `Source.joinLines_ended` are what one physical line does to the
  run that it is part of;
* `Source.joinLines_append` and `Source.logicalLines_append` cut the logical lines where no run is
  under way;
* `Source.joinLines_later`: later lines are joined in the same way, under later numbers.
-/

namespace IncludeDeps

namespace Text

variable {c : Char} {p x a b : List Char}

/-- A text without the character `c` at its end, if it is there. -/
def chop (c : Char) (cs : List Char) : List Char := (dropLast? c cs).getD cs

lemma dropLast?_concat (c : Char) (cs : List Char) : dropLast? c (cs ++ [c]) = some cs := by
  simp [dropLast?]

lemma dropLast?_of_ne (h : p.getLast? ≠ some c) : dropLast? c p = none := if_neg h

lemma chop_of_ne (h : p.getLast? ≠ some c) : chop c p = p := by rw [chop, dropLast?_of_ne h]; rfl

lemma chop_cons {d : Char} (h : p ≠ []) : chop c (d :: p) = d :: chop c p := by
  obtain ⟨init, e, rfl⟩ := p.eq_nil_or_concat.resolve_left h
  by_cases he : e = c
  · subst he
    rw [List.concat_eq_append, ← List.cons_append, chop, chop, dropLast?_concat, dropLast?_concat]
    rfl
  · have hlast : ∀ cs : List Char, (cs ++ [e]).getLast? ≠ some c := by simpa using he
    rw [List.concat_eq_append, chop_of_ne (hlast init), ← List.cons_append, chop_of_ne (hlast _)]

/-! ## The lines of a text -/

/-- A text is a last line without a line break, or a line, a line break and a text. -/
theorem lineInduction {motive : List Char → Prop} (last : ∀ p, '\n' ∉ p → motive p)
    (line : ∀ p rest, '\n' ∉ p → motive rest → motive (p ++ '\n' :: rest)) (text : List Char) :
    motive text := by
  by_cases h : '\n' ∈ text
  · obtain ⟨p, rest, htext, hp⟩ := List.eq_append_cons_of_mem h
    have hlength : rest.length < text.length := by simp [htext]; omega
    rw [htext]
    exact line p rest hp (lineInduction last line rest)
  · exact last text h
termination_by text.length

lemma lines_cons (hc : c ≠ '\n') (hreturn : c = '\r' → x.head? ≠ some '\n') :
    lines (c :: x) = (c :: (lines x).headD []) :: (lines x).tail := by
  rw [lines]
  · cases lines x <;> rfl
  · exact hc
  · rintro rest rfl rfl
    exact hreturn rfl rfl

/-- The first line goes up to the first line feed, or to a carriage return right before it. -/
theorem lines_append_break (hp : '\n' ∉ p) (x : List Char) :
    lines (p ++ '\n' :: x) = chop '\r' p :: lines x := by
  induction p with
  | nil => rfl
  | cons c p ih =>
    obtain ⟨hc, hp⟩ := List.ne_and_not_mem_of_not_mem_cons hp
    cases p with
    | nil =>
      by_cases hreturn : c = '\r'
      · subst hreturn
        rfl
      · have hlast : [c].getLast? ≠ some '\r' := by simpa using hreturn
        rw [chop_of_ne hlast]
        exact lines_cons hc.symm fun h => absurd h hreturn
    | cons d p =>
      have hd : d ≠ '\n' := (List.ne_of_not_mem_cons hp).symm
      rw [List.cons_append, lines_cons hc.symm (fun _ => by simpa using hd), ih hp,
        chop_cons (List.cons_ne_nil d p)]
      rfl

lemma lines_of_notMem (hp : '\n' ∉ p) (hne : p ≠ []) : lines p = [p] := by
  induction p with
  | nil => exact absurd rfl hne
  | cons c p ih =>
    obtain ⟨hc, hp⟩ := List.ne_and_not_mem_of_not_mem_cons hp
    have hhead : p.head? ≠ some '\n' := fun h => hp (List.mem_of_mem_head? h)
    rw [lines_cons hc.symm fun _ => hhead]
    cases p with
    | nil => rfl
    | cons d p => rw [ih hp (List.cons_ne_nil d p)]; rfl

/-- A text that is empty or ends in a line break comes to an end before whatever follows it. -/
theorem lines_append (ha : a = [] ∨ a.getLast? = some '\n') (b : List Char) :
    lines (a ++ b) = lines a ++ lines b := by
  induction a using lineInduction with
  | last p hp =>
    obtain rfl : p = [] := ha.resolve_right fun h => hp (List.mem_of_getLast? h)
    rfl
  | line p rest hp ih =>
    have hrest : rest = [] ∨ rest.getLast? = some '\n' := by
      cases rest with
      | nil => exact .inl rfl
      | cons d rest => exact .inr (by simpa using ha)
    rw [List.append_assoc, List.cons_append, lines_append_break hp, lines_append_break hp, ih hrest]
    rfl

end Text

namespace Source

open Text (chop)

variable {pending : Option LogicalLine} {n k : Nat} {l head a b : List Char}
  {rest ps qs : List (List Char)}

namespace LogicalLine

/-- A line with further text at its end. -/
def extend (line : LogicalLine) (more : List Char) : LogicalLine :=
  { line with text := line.text ++ more }

/-- A line of a text that has `k` more lines before it. -/
def later (k : Nat) (line : LogicalLine) : LogicalLine := { line with number := line.number + k }

end LogicalLine

/-! ## Joining -/

/-- A backslash at the end of a line is dropped, and the run goes on. -/
lemma joinLines_continued (h : chop '\r' l = head ++ ['\\']) :
    joinLines pending n (l :: rest) =
      joinLines (some ((pending.getD ⟨n, []⟩).extend head)) (n + 1) rest := by
  have hdrop : Text.dropLast? '\\' ((Text.dropLast? '\r' l).getD l) = some head := by
    rw [← chop, h, Text.dropLast?_concat]
  rw [joinLines]
  simp only [hdrop]
  rfl

/-- Without a backslash the run is complete. -/
lemma joinLines_ended (h : (chop '\r' l).getLast? ≠ some '\\') :
    joinLines pending n (l :: rest) =
      (pending.getD ⟨n, []⟩).extend (chop '\r' l) :: joinLines none (n + 1) rest := by
  have hdrop : Text.dropLast? '\\' ((Text.dropLast? '\r' l).getD l) = none :=
    Text.dropLast?_of_ne h
  rw [joinLines]
  simp only [hdrop]
  rfl

lemma continued_or_ended (l : List Char) :
    (∃ head, l = head ++ ['\\']) ∨ l.getLast? ≠ some '\\' := by
  rw [← List.getLast?_eq_some_iff]
  exact Decidable.em _

/-- Where the last of some lines is complete, the lines after it are joined by themselves, with the
numbers that they have after the others. -/
theorem joinLines_append (hne : ps = [] → pending = none)
    (hlast : ∀ l ∈ ps.getLast?, (chop '\r' l).getLast? ≠ some '\\') :
    joinLines pending n (ps ++ qs) =
      joinLines pending n ps ++ joinLines none (n + ps.length) qs := by
  -- by the lines, with what is pending: it is pending no more where the last of the lines ends
  induction ps generalizing pending n with
  | nil =>
    rw [hne rfl]
    rfl
  | cons l rest ih =>
    have hnext : n + (l :: rest).length = n + 1 + rest.length := by
      rw [List.length_cons]
      omega
    have hrest : ∀ l ∈ rest.getLast?, (chop '\r' l).getLast? ≠ some '\\' := by
      intro l' hl'
      refine hlast l' ?_
      rw [List.getLast?_cons, Option.mem_def.1 hl']
      rfl
    rw [List.cons_append, hnext]
    rcases continued_or_ended (chop '\r' l) with ⟨head, hhead⟩ | hended
    · rw [joinLines_continued hhead, joinLines_continued hhead]
      refine ih (fun hnil => ?_) hrest
      subst hnil
      exact absurd (by simp [hhead]) (hlast l rfl)
    · rw [joinLines_ended hended, joinLines_ended hended, ih (fun _ => rfl) hrest]
      rfl

/-- With more lines before them, lines are joined in the same way under greater numbers.  How they
are joined does not depend on their numbers. -/
theorem joinLines_later :
    joinLines (pending.map (.later k)) (n + k) qs = (joinLines pending n qs).map (.later k) := by
  induction qs generalizing pending n with
  | nil => cases pending <;> rfl
  | cons l rest ih =>
    have hrun : (pending.map (LogicalLine.later k)).getD ⟨n + k, []⟩ =
        (pending.getD ⟨n, []⟩).later k := by
      cases pending <;> rfl
    have hnext : n + k + 1 = n + 1 + k := by omega
    rcases continued_or_ended (chop '\r' l) with ⟨head, hhead⟩ | hended
    · rw [joinLines_continued hhead, joinLines_continued hhead, hrun, hnext, ← ih]
      rfl
    · rw [joinLines_ended hended, joinLines_ended hended, hrun, hnext, List.map_cons, ← ih]
      rfl

lemma joinLines_none_later (n k : Nat) (qs : List (List Char)) :
    joinLines none (n + k) qs = (joinLines none n qs).map (.later k) :=
  @joinLines_later none n k qs

/-- A text that leaves no line open, neither for want of a line break nor by a backslash, has its
logical lines before those of whatever follows it. -/
theorem logicalLines_append (ha : a = [] ∨ a.getLast? = some '\n')
    (hlast : ∀ l ∈ (Text.lines a).getLast?, (chop '\r' l).getLast? ≠ some '\\') :
    logicalLines (a ++ b) =
      logicalLines a ++ (logicalLines b).map (.later (Text.lines a).length) := by
  rw [logicalLines, Text.lines_append ha, joinLines_append (fun _ => rfl) hlast]
  exact congrArg (_ ++ ·) (joinLines_none_later 1 _ _)

end Source

end IncludeDeps
