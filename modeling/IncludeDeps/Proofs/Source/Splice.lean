import IncludeDeps.Proofs.Source.Reader
import Mathlib.Data.List.Forall2

/-!
# Splicing lines

A line may be cut at any place by a backslash and a line break, for what is read: the two parts are
joined before anything else is looked at (`Source.read_splice`).  Only the numbers of the lines
after the place grow by one.

The one place to be avoided is behind a backslash that ends a line, or the text: the line would end
in the new backslash as well, and only that one is dropped.  A carriage return counts for nothing
right before a line feed, and to cut between the two would bring it back, so there is none.
-/

namespace IncludeDeps.Source

open Text (chop)

/-! ## Logical lines -/

/-- The same lines, each on the same place or one line later, and maybe an empty line after them. -/
inductive IsRespaced : List LogicalLine → List LogicalLine → Prop
  | nil : IsRespaced [] []
  | empty (n : Nat) : IsRespaced [] [⟨n, []⟩]
  | same (line : LogicalLine) {ls ms : List LogicalLine} :
      IsRespaced ls ms → IsRespaced (line :: ls) (line :: ms)
  | later (line : LogicalLine) {ls ms : List LogicalLine} :
      IsRespaced ls ms → IsRespaced (line :: ls) (line.later 1 :: ms)

variable {isOpen : Bool} {n : Nat} {pending : Option LogicalLine} {ls ms : List LogicalLine}
  {p s a b : List Char} {rest : List (List Char)} {found more : List (Include ⊕ MacroDefinition)}

lemma isRespaced_later (ls : List LogicalLine) : IsRespaced ls (ls.map (.later 1)) := by
  induction ls with
  | nil => exact .nil
  | cons line ls ih => exact .later line ih

lemma isRespaced_joinLines_none (n : Nat) (rest : List (List Char)) :
    IsRespaced (joinLines none n rest) (joinLines none (n + 1) rest) := by
  rw [joinLines_none_later]
  exact isRespaced_later _

/-- When the lines that are left come one later, the run that is under way stays where it is. -/
lemma isRespaced_joinLines_succ (line : LogicalLine) (n : Nat) (rest : List (List Char)) :
    IsRespaced (joinLines (some line) n rest) (joinLines (some line) (n + 1) rest) := by
  induction rest generalizing line n with
  | nil => exact .same line .nil
  | cons l rest ih =>
    rcases continued_or_ended (chop '\r' l) with ⟨head, hhead⟩ | hended
    · rw [joinLines_continued hhead, joinLines_continued hhead]
      exact ih _ _
    · rw [joinLines_ended hended, joinLines_ended hended]
      exact .same _ (isRespaced_joinLines_none _ _)

lemma extend_extend (line : LogicalLine) (p s : List Char) :
    (line.extend p).extend s = line.extend (p ++ s) := by
  simp [LogicalLine.extend]

lemma chop_return_of_notMem (h : '\r' ∉ p) : chop '\r' p = p :=
  Text.chop_of_ne fun hlast => h (List.mem_of_getLast? hlast)

/-- A line is joined from its two parts. -/
lemma isRespaced_joinLines_cut (hp : '\r' ∉ p) (hs : '\r' ∉ s)
    (hplace : s = [] → p.getLast? ≠ some '\\') :
    IsRespaced (joinLines pending n ((p ++ s) :: rest))
      (joinLines pending n ((p ++ ['\\']) :: s :: rest)) := by
  have hps : chop '\r' (p ++ s) = p ++ s := chop_return_of_notMem (by simp [hp, hs])
  rw [joinLines_continued (chop_return_of_notMem (by simp [hp]))]
  -- the line goes on after the second part if and only if it has gone on before it was cut
  rcases continued_or_ended s with ⟨head, rfl⟩ | hended
  · rw [joinLines_continued (by rw [hps, ← List.append_assoc]),
      joinLines_continued (chop_return_of_notMem hs), Option.getD_some, extend_extend]
    exact isRespaced_joinLines_succ _ _ _
  · have hlast : (p ++ s).getLast? ≠ some '\\' := by
      cases s with
      | nil => simpa using hplace rfl
      | cons c s => simpa [List.getLast?_append] using hended
    rw [joinLines_ended (by rw [hps]; exact hlast), hps,
      joinLines_ended (by rw [chop_return_of_notMem hs]; exact hended), chop_return_of_notMem hs,
      Option.getD_some, extend_extend]
    exact .same _ (isRespaced_joinLines_none _ _)

/-- What is put at the end of a text is a line of its own there. -/
lemma isRespaced_joinLines_end (hp : '\n' ∉ p) (hreturn : '\r' ∉ p)
    (hplace : p.getLast? ≠ some '\\') :
    IsRespaced (joinLines pending n (Text.lines p)) (joinLines pending n [p ++ ['\\']]) := by
  rw [joinLines_continued (chop_return_of_notMem (by simp [hreturn]))]
  show IsRespaced _ [(pending.getD ⟨n, []⟩).extend p]
  by_cases hnil : p = []
  · subst hnil
    cases pending with
    | none => exact .empty n
    | some line =>
      have hline : line.extend [] = line := by simp [LogicalLine.extend]
      show IsRespaced [line] [line.extend []]
      rw [hline]
      exact .same line .nil
  · rw [Text.lines_of_notMem hp hnil, joinLines_ended (by rwa [chop_return_of_notMem hreturn]),
      chop_return_of_notMem hreturn]
    exact .same _ .nil

lemma isRespaced_joinLines_cons {ps qs : List (List Char)}
    (h : ∀ pending n, IsRespaced (joinLines pending n ps) (joinLines pending n qs))
    (l : List Char) : IsRespaced (joinLines pending n (l :: ps)) (joinLines pending n (l :: qs)) := by
  rcases continued_or_ended (chop '\r' l) with ⟨head, hhead⟩ | hended
  · rw [joinLines_continued hhead, joinLines_continued hhead]
    exact h _ _
  · rw [joinLines_ended hended, joinLines_ended hended]
    exact .same _ (h _ _)

/-- The place is on the first line of a text. -/
lemma isRespaced_joinLines_first (hp : '\n' ∉ p) (hreturnp : '\r' ∉ p) (hreturnb : '\r' ∉ b)
    (hplace : ¬ (p.getLast? = some '\\' ∧ (b = [] ∨ b.head? = some '\n'))) :
    IsRespaced (joinLines pending n (Text.lines (p ++ b)))
      (joinLines pending n (Text.lines (p ++ '\\' :: '\n' :: b))) := by
  have hcut : Text.lines (p ++ '\\' :: '\n' :: b) = (p ++ ['\\']) :: Text.lines b := by
    rw [← List.singleton_append, ← List.append_assoc, Text.lines_append_break (by simp [hp]),
      chop_return_of_notMem (by simp [hreturnp])]
  rw [hcut]
  -- what is after the place goes up to the next break, or is the rest of the text, or is nothing
  by_cases hb : '\n' ∈ b
  · obtain ⟨s, b, rfl, hs⟩ := List.eq_append_cons_of_mem hb
    have hreturns : '\r' ∉ s := fun h => hreturnb (List.mem_append_left _ h)
    rw [← List.append_assoc, Text.lines_append_break (by simp [hp, hs]),
      Text.lines_append_break hs, chop_return_of_notMem hreturns,
      chop_return_of_notMem (by simp [hreturnp, hreturns])]
    refine isRespaced_joinLines_cut hreturnp hreturns fun hnil hlast => ?_
    subst hnil
    exact hplace ⟨hlast, .inr rfl⟩
  · by_cases hnil : b = []
    · subst hnil
      rw [List.append_nil]
      exact isRespaced_joinLines_end hp hreturnp fun hlast => hplace ⟨hlast, .inl rfl⟩
    · rw [Text.lines_of_notMem hb hnil,
        Text.lines_of_notMem (by simp [hp, hb]) (List.append_ne_nil_of_right_ne_nil p hnil)]
      exact isRespaced_joinLines_cut hreturnp hreturnb fun h => absurd h hnil

theorem isRespaced_joinLines (hreturn : '\r' ∉ a ++ b)
    (hplace : ¬ (a.getLast? = some '\\' ∧ (b = [] ∨ b.head? = some '\n'))) :
    IsRespaced (joinLines pending n (Text.lines (a ++ b)))
      (joinLines pending n (Text.lines (a ++ '\\' :: '\n' :: b))) := by
  induction a using Text.lineInduction generalizing pending n with
  | last p hp =>
    obtain ⟨hreturnp, hreturnb⟩ : '\r' ∉ p ∧ '\r' ∉ b := by simpa [not_or] using hreturn
    exact isRespaced_joinLines_first hp hreturnp hreturnb hplace
  | line p rest hp ih =>
    have hreturnrest : '\r' ∉ rest ++ b := fun h => hreturn (by simp_all)
    have hplacerest : ¬ (rest.getLast? = some '\\' ∧ (b = [] ∨ b.head? = some '\n')) := by
      rintro ⟨hlast, hb⟩
      exact hplace ⟨by simp [List.getLast?_append, List.getLast?_cons, hlast], hb⟩
    rw [List.append_assoc, List.append_assoc, List.cons_append, List.cons_append,
      Text.lines_append_break hp, Text.lines_append_break hp]
    exact isRespaced_joinLines_cons (fun _ _ => ih hreturnrest hplacerest) _

/-! ## What is read -/

/-- The same directive, or the same one line later. -/
def IsNear (x y : Include ⊕ MacroDefinition) : Prop := y = x ∨ y = moved 1 x

lemma forall₂_readLine?_later (n : Nat) (code : List Char) :
    List.Forall₂ IsNear (readLine? n code).toList (readLine? (n + 1) code).toList := by
  rw [readLine?_later]
  cases readLine? n code with
  | none => exact .nil
  | some x => exact .cons (.inr rfl) .nil

lemma forall₂_readLine?_same (n : Nat) (code : List Char) :
    List.Forall₂ IsNear (readLine? n code).toList (readLine? n code).toList :=
  List.forall₂_same.2 fun _ _ => .inl rfl

/-- An empty line says nothing, and the others say the same.  That lines come later shows in the
numbers of the includes and nowhere else. -/
theorem IsRespaced.forall₂_readLines (h : IsRespaced ls ms) (isOpen : Bool) :
    List.Forall₂ IsNear (readLines isOpen ls) (readLines isOpen ms) := by
  induction h generalizing isOpen with
  | nil => exact .nil
  | empty n =>
    have hblank : readLines isOpen [⟨n, []⟩] = [] := by cases isOpen <;> rfl
    rw [hblank]
    exact .nil
  | same line _ ih => exact List.rel_append (forall₂_readLine?_same _ _) (ih _)
  | later line _ ih => exact List.rel_append (forall₂_readLine?_later _ _) (ih _)

lemma ofFound_of_forall₂ (h : List.Forall₂ IsNear found more) :
    (Directives.ofFound more).macros = (Directives.ofFound found).macros ∧
      List.Forall₂ (fun i j => j = i ∨ j = i.later 1) (Directives.ofFound found).includes
        (Directives.ofFound more).includes := by
  induction h with
  | nil => exact ⟨rfl, .nil⟩
  | @cons x y found more hxy _ ih =>
    cases x with
    | inl i =>
      rcases hxy with rfl | rfl
      · exact ⟨ih.1, .cons (.inl rfl) ih.2⟩
      · exact ⟨ih.1, .cons (.inr rfl) ih.2⟩
    | inr m =>
      have hy : y = .inr m := hxy.elim id id
      subst hy
      exact ⟨congrArg (m :: ·) ih.1, ih.2⟩

/-- A backslash and a line break may be put in anywhere but behind a backslash that ends a line or
the text: the macros stay the same, and so do the includes, but for lines that come one later. -/
theorem read_splice (hreturn : '\r' ∉ a ++ b)
    (hplace : ¬ (a.getLast? = some '\\' ∧ (b = [] ∨ b.head? = some '\n'))) :
    (read (a ++ '\\' :: '\n' :: b)).macros = (read (a ++ b)).macros ∧
      List.Forall₂ (fun i j => j = i ∨ j = i.later 1) (read (a ++ b)).includes
        (read (a ++ '\\' :: '\n' :: b)).includes :=
  ofFound_of_forall₂ ((isRespaced_joinLines hreturn hplace).forall₂_readLines false)

/-- The text before a place in the middle of a comment marker. -/
def beforePlace : List Char := "#define A 1 /".toList

/-- The text after that place. -/
def afterPlace : List Char := "* one */\n#include \"a.h\"\n".toList

theorem read_splice_marker : '\r' ∉ beforePlace ++ afterPlace ∧
    ¬ (beforePlace.getLast? = some '\\' ∧ (afterPlace = [] ∨ afterPlace.head? = some '\n')) ∧
    (read (beforePlace ++ '\\' :: '\n' :: afterPlace)).macros = [⟨"A", "1"⟩] ∧
    List.Forall₂ (fun i j => j = i ∨ j = i.later 1) [⟨.quoted, "a.h", false, some 2⟩]
      (read (beforePlace ++ '\\' :: '\n' :: afterPlace)).includes := by
  have hreturn : '\r' ∉ beforePlace ++ afterPlace := by decide +kernel
  have hplace : ¬ (beforePlace.getLast? = some '\\' ∧
      (afterPlace = [] ∨ afterPlace.head? = some '\n')) := by
    decide +kernel
  have hread : read (beforePlace ++ afterPlace) =
      ⟨[⟨.quoted, "a.h", false, some 2⟩], [⟨"A", "1"⟩]⟩ := by
    decide +kernel
  have hsplice := read_splice hreturn hplace
  rw [hread] at hsplice
  exact ⟨hreturn, hplace, hsplice⟩

end IncludeDeps.Source
